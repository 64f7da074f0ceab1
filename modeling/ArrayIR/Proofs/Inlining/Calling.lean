/-
  ArrayIR.Proofs.Inlining.Calling — inlined code answers as the call does.

  A call evaluates its arguments and runs the body of the callee with less fuel; up
  to the fuel, it is the evaluation of the arguments followed by the body
  (`Inlining.call_answered_iff`). The spliced code simulates that, and so it answers
  as the call does (`Inlining.returned`).
-/

import ArrayIR.Proofs.Fuel
import ArrayIR.Proofs.Inlining.Splice

namespace ArrayIR

open Eval

/-! ## Answers -/

theorem Answered.below {x y : Nat → Exec Value} (h : ∀ n, ∃ m, Below (x n) (y m)) {st : Store} {d : Dump}
    {cells : BufferId → Array Scalar} (ha : Answered x st d cells) : Answered y st d cells := by
  obtain ⟨n, v, st1, hv, hd, hc⟩ := ha
  obtain ⟨m, hm⟩ := h n
  exact ⟨m, v, st1, hm st v st1 hv, hd, hc⟩

theorem Eval.exprs_length {call : Caller} {L : Locals} {es : List Expr} {vs : List Value} {st st' : Store}
    (h : exprs call L es st = .ok vs st') : vs.length = es.length := by
  induction es generalizing vs st with
  | nil =>
    rw [exprs] at h
    cases h
    rfl
  | cons e es ih =>
    rw [exprs] at h
    obtain ⟨v, s, -, h⟩ := state_bind_ok h
    obtain ⟨us, s', hus, h⟩ := state_bind_ok h
    obtain ⟨rfl, rfl⟩ := state_pure_ok h
    rw [List.length_cons, List.length_cons, ih hus]

namespace Inlining

variable {s : Session} {f : Func} {args : List Expr} {L : Locals} {st : Store}

/-- What inlining asks of a callee: it is the function called by its name, it is well formed and well
scoped, the arguments have the types of the parameters, and its merges can be evaluated in any order. -/
structure Spliceable (s : Session) (f : Func) (args : List Expr) : Prop where
  found : s.find? f.name = some f
  verified : f.verify = .ok ()
  wellScoped : Stmt.blockWellScoped f.body f.inputs = true
  typed : args.map (·.ty) = f.paramTys
  reorderable : ∀ fuel, Stmt.blockCommutes (s.call fuel) f.body

/-- Evaluate the arguments and run the body on them. -/
def runBody (s : Session) (f : Func) (args : List Expr) (L : Locals) (fuel : Nat) : Exec Value :=
  exprs (s.call fuel) L args >>= body (s.call fuel) fuel f

/-- A call evaluates the arguments and runs the body, with less fuel for the body. -/
theorem call_below_runBody (hf : s.find? f.name = some f) (t : Ty) (fuel : Nat) :
    Below (expr (s.call fuel) L (.call f.name args t)) (runBody s f args L fuel) := by
  rw [expr]
  refine (Below.refl _).bind fun vs => ?_
  cases fuel with
  | zero =>
    intro st v st' hx
    cases hx
  | succ fuel =>
    rw [Session.call_succ hf]
    intro st v st' hx
    split at hx
    · cases hx
    · exact body_below (s.call_below (Nat.le_succ fuel)) (Nat.le_succ fuel) f vs st v st' hx

theorem runBody_below_call (hf : s.find? f.name = some f) (harity : args.length = f.params.length) (t : Ty)
    (fuel : Nat) : Below (runBody s f args L fuel) (expr (s.call (fuel + 1)) L (.call f.name args t)) := by
  intro st v st' hx
  obtain ⟨vs, st1, hvs, hv⟩ := state_bind_ok hx
  have hvs' := exprs_below (fun e _ => expr_below (s.call_below (Nat.le_succ fuel)) e) st vs st1 hvs
  rw [expr]
  show EStateM.bind _ _ st = _
  rw [EStateM.bind, hvs']
  show s.call (fuel + 1) f.name vs st1 = _
  rw [Session.call_succ hf, if_neg (by rw [exprs_length hvs, harity]; exact not_not.mpr rfl)]
  exact hv

theorem call_answered_iff (hf : s.find? f.name = some f) (harity : args.length = f.params.length) (t : Ty) {d : Dump}
    {cells : BufferId → Array Scalar} : Answered (fun n => expr (s.call n) L (.call f.name args t)) st d cells ↔
      Answered (runBody s f args L) st d cells :=
  ⟨fun h => h.below fun n => ⟨n, call_below_runBody hf t n⟩,
    fun h => h.below fun n => ⟨n + 1, runBody_below_call hf harity t n⟩⟩

/-! ## Results that are returned -/

variable {b b' : Builder} {e value : Expr}

theorem deliver_none (h : Build.deliver none value b = .ok e b') :
    ∃ out, Emits (Stmt.blockBinds out) out b b' ∧ Stmt.blockReturns out = false ∧
      ∀ call fuel code L, runThen call fuel (code ++ out) L e = runThen call fuel code L value := by
  have same : e = value → b' = b → ∃ out, Emits (Stmt.blockBinds out) out b b' ∧ Stmt.blockReturns out = false ∧
      ∀ call fuel code L, runThen call fuel (code ++ out) L e = runThen call fuel code L value := by
    rintro rfl rfl
    exact ⟨[], .refl _, rfl, fun _ _ code _ => by rw [List.append_nil]⟩
  have temporary : Build.temp value "inline_result" b = .ok e b' → ∃ out, Emits (Stmt.blockBinds out) out b b' ∧
      Stmt.blockReturns out = false ∧
      ∀ call fuel code L, runThen call fuel (code ++ out) L e = runThen call fuel code L value := by
    intro ht
    obtain ⟨y, rfl, hemits, -⟩ := Build.temp_ok ht
    exact ⟨[.assign (.var y value.ty) value], hemits, rfl,
      fun _ _ code _ => runThen_temp code value y value.ty value.ty⟩
  cases value with
  | var x t =>
    cases h
    exact same rfl rfl
  | const c t =>
    cases h
    exact same rfl rfl
  | _ => exact temporary h

/-- Spliced code comes to its end, and the names that were bound keep their values. -/
theorem keeps_bound {call : Caller} {fuel : Nat} {out : Block} {fl : Flow} {st1 : Store}
    (hret : Stmt.blockReturns out = false) (hsite : Site args (Stmt.blockBinds out) L st)
    (h : block call fuel out L st = .ok fl st1) :
    ∃ L', fl = .next L' ∧ ∀ x v, L.get? x = some v → L'.get? x = some v := by
  have hwithin := block_within h
  cases fl with
  | returned v =>
    rw [hret] at hwithin
    cases hwithin
  | next L' =>
    refine ⟨L', rfl, fun x v hx => ?_⟩
    rw [hwithin x fun hm => ?_, hx]
    rw [hsite.unbound x hm] at hx
    cases hx

/-- The code emitted for a call, and the expression returned for it, answer as the call does. -/
theorem returned (hf : Spliceable b.session f args) (h : Build.inline f args none b = .ok e b') :
    ∃ out, b'.block = b.block ++ out ∧ ∀ L st, Site args (Stmt.blockBinds out) L st →
      (∀ d cells, Answered (fun n => expr (b.session.call n) L (.call f.name args f.result)) st d cells ↔
        Answered (fun n => runThen (b.session.call n) n out L e) st d cells) ∧
      ∀ fuel fl st1, block (b.session.call fuel) fuel out L st = .ok fl st1 →
        ∃ L', fl = .next L' ∧ ∀ x v, L.get? x = some v → L'.get? x = some v := by
  obtain ⟨b1, ahead, copy, value, hspliced, hemits, hdeliver⟩ := Build.inline_ok hf.typed h
  obtain ⟨last, hlast, hret, hrun⟩ := deliver_none hdeliver
  refine ⟨ahead ++ copy ++ last, by rw [hlast.block, hemits.block, List.append_assoc], fun L st hsite => ?_⟩
  have hsite' : Site args (Stmt.blockBinds (ahead ++ copy)) L st := { hsite with
    unbound := fun y hy => hsite.unbound y (by
      rw [Stmt.blockBinds_append]
      exact List.mem_append_left _ hy) }
  constructor
  · intro d cells
    rw [call_answered_iff hf.found hspliced.arity]
    refine Outcome.answered_iff fun fuel => ?_
    rw [hrun]
    exact hspliced.outcome hf.verified hf.wellScoped hf.typed (Session.call_inStep b.session.strict_admits fuel)
      (hf.reorderable fuel) hsite'
  · intro fuel fl st1 hblock
    refine keeps_bound ?_ hsite hblock
    rw [Stmt.blockReturns_append, hspliced.not_returns, hret]
    rfl

end Inlining

end ArrayIR
