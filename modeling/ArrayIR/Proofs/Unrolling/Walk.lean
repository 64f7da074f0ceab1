/-
  ArrayIR.Proofs.Unrolling.Walk — from unrolled loops to unrolled functions.

  What unrolling makes of a block simulates the block, if every loop that is split is
  simulated by its halves (`unrolled_block_sim`). What a loop has to be like for that
  may depend on the values it is run with: a condition on loops holds along a run if
  it holds wherever a loop starts (`Stmt.Along`). So the function that the pass
  publishes runs in step with the one it was given (`apply_outcome`).
-/

import ArrayIR.Proofs.Answer
import ArrayIR.Proofs.Definitions
import ArrayIR.Proofs.Publish
import ArrayIR.Proofs.Unrolling.Halves

namespace ArrayIR

open Eval

namespace Eval

variable {F' F : Locals → Store → Prop} {body : Locals → Exec Flow} {again : Locals → Exec Locals} {n : Nat}
  {L : Locals} {st' : Store} {fl : Flow}

/-- In a loop that ends, the body has ended at the head of every iteration. -/
theorem IterateGuard.of_ok {test : Locals → Exec Bool} (hF : ∀ L st fl st1, F L st → body L st = .ok fl st1 → F' L st)
    {st : Store} (h : IterateGuard F test body again n L st)
    (hrun : iterate test body again n L st = .ok fl st') : IterateGuard F' test body again n L st := by
  induction n generalizing L st with
  | zero => exact True.intro
  | succ n ih =>
    intro st1 ht
    obtain ⟨hhead, hnext⟩ := h st1 ht
    rw [iterate_succ, state_bind_of_ok ht, if_pos rfl] at hrun
    obtain ⟨fl1, st2, hb, hrun⟩ := state_bind_ok hrun
    refine ⟨hF L st1 fl1 st2 hhead hb, fun L1 st3 L2 st4 hb' ha => ?_⟩
    cases hb.symm.trans hb'
    change (again L1 >>= _) st2 = _ at hrun
    rw [state_bind_of_ok ha] at hrun
    exact ih (hnext L1 st2 L2 st4 hb ha) hrun

theorem RepeatGuard.of_ok {x : VarName} {step : Int} (hF : ∀ L st fl st1, F L st → body L st = .ok fl st1 → F' L st)
    {i : Int} {st : Store} (h : RepeatGuard F x step body again n i L st)
    (hrun : repeatCounted x step body again n i L st = .ok fl st') : RepeatGuard F' x step body again n i L st := by
  induction n generalizing i L st with
  | zero => exact True.intro
  | succ n ih =>
    rw [repeatCounted_succ] at hrun
    obtain ⟨fl1, st1, hb, hrun⟩ := state_bind_ok hrun
    refine ⟨hF _ st fl1 st1 h.1 hb, fun L1 st2 L2 st3 hb' ha => ?_⟩
    cases hb.symm.trans hb'
    change (again L1 >>= _) st1 = _ at hrun
    rw [state_bind_of_ok ha] at hrun
    exact ih (h.2 L1 st1 L2 st3 hb ha) hrun

end Eval

namespace Stmt

mutual

theorem simple_not_returns : ∀ {s : Stmt}, s.simple = true → s.returns = false
  | assign _ _, _ => rfl
  | ret _, h => by cases h
  | ite _ yes no _, h => by
    rw [simple, Bool.and_eq_true] at h
    rw [returns, simpleAll_not_returns h.1, simpleAll_not_returns h.2]
    rfl
  | whileLoop _ _ _, h | forLoop _ _ _, h => by cases h

theorem simpleAll_not_returns : ∀ {ss : List Stmt}, simpleAll ss = true → blockReturns ss = false
  | [], _ => rfl
  | s :: ss, h => by
    rw [simpleAll, Bool.and_eq_true] at h
    rw [blockReturns, simple_not_returns h.1, simpleAll_not_returns h.2]
    rfl

end

/-- A condition on a counted loop where it starts. -/
abbrev AtLoops := Counter → Block → Merge → Locals → Store → Prop

mutual

/-- The condition holds of every counted loop that is run from here on, where it starts. -/
def Along (G : AtLoops) (call : Caller) (fuel : Nat) : Stmt → Locals → Store → Prop
  | assign _ _, _, _ | ret _, _, _ => True
  | ite c yes no _, L, st => ∀ b st₁, condition call L c st = .ok b st₁ →
    if b then blockAlong G call fuel yes L st₁ else blockAlong G call fuel no L st₁
  | whileLoop c body m, L, st => ∀ L₁ st₁, bindMerge call m Prod.fst L st = .ok L₁ st₁ →
    IterateGuard (blockAlong G call fuel body) (condition call · c) (block call fuel body)
      (bindMerge call m Prod.snd) fuel L₁ st₁
  | forLoop c body m, L, st => G c body m L st ∧ ∀ h st₁, header call L c st = .ok h st₁ →
    ∀ L₁ st₂, bindMerge call m Prod.fst L st₁ = .ok L₁ st₂ →
      RepeatGuard (blockAlong G call fuel body) c.var h.step (block call fuel body) (bindMerge call m Prod.snd)
        h.trips h.start L₁ st₂

def blockAlong (G : AtLoops) (call : Caller) (fuel : Nat) : List Stmt → Locals → Store → Prop
  | [], _, _ => True
  | s :: ss, L, st => s.Along G call fuel L st ∧
    ∀ L₁ st₁, stmt call fuel s L st = .ok (.next L₁) st₁ → blockAlong G call fuel ss L₁ st₁

end

/-- The condition holds, and the loop ends. -/
def Ending (G : AtLoops) (call : Caller) (fuel : Nat) : AtLoops := fun c body m L st =>
  G c body m L st ∧ ∃ fl st₁, stmt call fuel (.forLoop c body m) L st = .ok fl st₁

section

variable {G : AtLoops} {call : Caller} {fuel : Nat}

mutual

/-- Along a run that ends, the loops end. -/
theorem Along.ending : ∀ {s : Stmt} {L : Locals} {st st' : Store} {fl : Flow}, s.Along G call fuel L st →
    stmt call fuel s L st = .ok fl st' → s.Along (Ending G call fuel) call fuel L st
  | assign _ _, _, _, _, _, _, _ | ret _, _, _, _, _, _, _ => trivial
  | ite c yes no m, L, st, st', fl, h, hrun => fun b st1 hb => by
    rw [stmt_ite, state_bind_of_ok hb] at hrun
    obtain ⟨fl1, st2, hbranch, -⟩ := state_bind_ok hrun
    have h := h b st1 hb
    cases b with
    | true => exact blockAlong.ending h hbranch
    | false => exact blockAlong.ending h hbranch
  | whileLoop c body m, L, st, st', fl, h, hrun => fun L1 st1 hm => by
    rw [stmt, state_bind_of_ok hm] at hrun
    exact (h L1 st1 hm).of_ok (fun _ _ _ _ => blockAlong.ending) hrun
  | forLoop c body m, L, st, st', fl, h, hrun => by
    refine ⟨⟨h.1, fl, st', hrun⟩, fun hd st1 hx L1 st2 hm => ?_⟩
    rw [stmt_forLoop, state_bind_of_ok hx] at hrun
    by_cases h0 : hd.step = 0
    · rw [if_pos h0] at hrun
      cases hrun
    · rw [if_neg h0, state_bind_of_ok hm] at hrun
      exact (h.2 hd st1 hx L1 st2 hm).of_ok (fun _ _ _ _ => blockAlong.ending) hrun

theorem blockAlong.ending : ∀ {ss : List Stmt} {L : Locals} {st st' : Store} {fl : Flow},
    blockAlong G call fuel ss L st →
    block call fuel ss L st = .ok fl st' → blockAlong (Ending G call fuel) call fuel ss L st
  | [], _, _, _, _, _, _ => trivial
  | s :: ss, L, st, st', fl, h, hrun => by
    rw [block_cons] at hrun
    obtain ⟨fl1, st1, hs, hrun⟩ := state_bind_ok hrun
    refine ⟨h.1.ending hs, fun L1 st2 hs' => ?_⟩
    cases hs.symm.trans hs'
    exact (h.2 L1 st1 hs).ending hrun

end

end

end Stmt

namespace Unrolling

variable {n : Nat} {env : TypeEnv}

mutual

/-- What unrolling has left simple it has left alone. -/
theorem Unrolled.eq_of_simple : ∀ {s : Stmt} {out : Block}, Unrolled n env s out → Stmt.simpleAll out = true → out = [s]
  | .assign _ _, _, h, _ | .ret _, _, h, _ => h
  | .ite c yes no m, out, h, hs => by
    obtain ⟨yes', no', hy, hn, rfl⟩ := h
    simp only [Stmt.simpleAll, Stmt.simple, Bool.and_eq_true] at hs
    rw [blockUnrolled.eq_of_simple hy hs.1.1, blockUnrolled.eq_of_simple hn hs.1.2]
  | .whileLoop c body m, out, h, hs => by
    obtain ⟨body', -, rfl⟩ := h
    cases hs
  | .forLoop c body m, out, h, hs => by
    obtain ⟨body', -, rfl | ⟨-, -, t, p, -, -, rfl⟩⟩ := h
    · cases hs
    · rw [Stmt.simpleAll_append, Bool.and_eq_true] at hs
      cases hs.2

theorem blockUnrolled.eq_of_simple : ∀ {ss : List Stmt} {out : Block}, blockUnrolled n env ss out →
    Stmt.simpleAll out = true → out = ss
  | [], _, h, _ => h
  | s :: ss, out, h, hs => by
    obtain ⟨o, os, ho, hos, rfl⟩ := h
    rw [Stmt.simpleAll_append, Bool.and_eq_true] at hs
    rw [Unrolled.eq_of_simple ho hs.1, blockUnrolled.eq_of_simple hos hs.2]
    rfl

end

/-! ## What the check says of the halves -/

variable {out : Block} {factor : UnrollFactor} {s' s : Session} {f g : Func}

section Checked

variable {call : Caller} {V D D' : List VarName} {E : TypeEnv} {l : Loop} {p : Parts}

theorem Loop.Scoped.of (hs : (Stmt.forLoop l.counter l.body l.merge).wellScoped V = true)
    (hnd : ([l.counter.var] ++ l.merge.keys ++ Stmt.blockBinds l.body).Nodup)
    (hfresh : ∀ x ∈ [l.counter.var] ++ l.merge.keys ++ Stmt.blockBinds l.body, x ∉ V)
    (hc : l.merge.Commutes call) (hbc : Stmt.blockCommutes call l.body) : l.Scoped call V := by
  simp only [Stmt.wellScoped, Bool.and_eq_true] at hs
  obtain ⟨⟨⟨⟨⟨h1, h2⟩, h3⟩, he⟩, hb⟩, hr⟩ := hs
  exact ⟨hnd, hfresh, ⟨Expr.within_iff.mp h1, Expr.within_iff.mp h2, Expr.within_iff.mp h3⟩, he, hb, hr, hc, hbc⟩

/-- The halves pass the check only if all names they bind are different. -/
theorem halves_names (h : WellFormed.block E (p.front l ++ [p.rest l]) D = .ok D') (hD : D.Nodup)
    (hV : ∀ x ∈ V, x ∈ D) :
    ([l.counter.var] ++ l.merge.keys ++ Stmt.blockBinds l.body).Nodup ∧
      (∀ x ∈ [l.counter.var] ++ l.merge.keys ++ Stmt.blockBinds l.body, x ∉ V) ∧ p.Clear l V := by
  obtain ⟨hnd, hnotD⟩ := (WellFormed.block_ok h).fresh hD
  have hbinds : Stmt.blockBinds (p.front l ++ [p.rest l]) =
      Stmt.blockBinds (p.front l) ++ ([l.counter.var] ++ l.merge.keys ++ Stmt.blockBinds l.body) := by
    rw [Stmt.blockBinds_append, Stmt.blockBinds_singleton, Parts.rest, Stmt.binds, keys_entered]
    rfl
  rw [hbinds] at hnd hnotD
  obtain ⟨hndf, hndl, hdisf⟩ := List.nodup_append.mp hnd
  have hnotV : ∀ x ∈ Stmt.blockBinds (p.front l) ++
      ([l.counter.var] ++ l.merge.keys ++ Stmt.blockBinds l.body), x ∉ V :=
    fun x hx hxV => hnotD x hx (hV x hxV)
  refine ⟨hndl, fun x hx => hnotV x (List.mem_append_right _ hx), hndf, fun x hx hn => ?_⟩
  rcases hn with hn | hn
  · rcases Loop.Scoped.mem_inside.mp hn with hn | hn
    · exact hdisf x hx x (List.mem_append_left _ hn) rfl
    · exact hnotV x (List.mem_append_left _ hx) hn
  · exact hdisf x hx x (List.mem_append_right _ hn) rfl

theorem Bounds.stop_ty {bigStep stop : Expr} (h : Bounds l n out bigStep stop)
    (hstart : l.counter.start.ty = .i64) : stop.ty = .i64 ∨ stop.ty = .scalar .f64 := by
  cases h with
  | mk _ _ _ _ h5 => exact h5.ty hstart

/-- The halves pass the check only if the counter is a 64-bit integer. -/
theorem halves_counter (hp : p.Of n l) (h : WellFormed.block E (p.front l ++ [p.rest l]) D = .ok D')
    (hstart : l.counter.start.ty = .i64) : E.get? l.counter.var = some .i64 := by
  obtain ⟨D1, -, h⟩ := WellFormed.block_append h
  rw [WellFormed.block] at h
  obtain ⟨D2, hrest, -⟩ := except_bind_ok h
  obtain ⟨hint, hvar, -⟩ := WellFormed.forLoop_ok hrest
  rcases hp.bounds.stop_ty hstart with hty | hty
  · rw [hvar]
    exact congrArg some hty
  · rw [show p.stop.ty.isInt = false by rw [hty]; rfl] at hint
    cases hint

end Checked

mutual

/-- Unrolling keeps the names that a statement binds. -/
theorem Unrolled.binds : ∀ {s : Stmt} {out : Block}, Unrolled n env s out → ∀ x ∈ s.binds, x ∈ Stmt.blockBinds out
  | .assign _ _, _, h, x, hx | .ret _, _, h, x, hx => by
    obtain rfl := h
    rwa [Stmt.blockBinds_singleton]
  | .ite c yes no m, out, h, x, hx => by
    obtain ⟨yes', no', hy, hn, rfl⟩ := h
    rw [Stmt.blockBinds_singleton]
    simp only [Stmt.binds, List.mem_append] at hx ⊢
    exact hx.imp_left fun hx => hx.imp (blockUnrolled.binds hy x) (blockUnrolled.binds hn x)
  | .whileLoop c body m, out, h, x, hx => by
    obtain ⟨body', hb, rfl⟩ := h
    rw [Stmt.blockBinds_singleton]
    simp only [Stmt.binds, List.mem_append] at hx ⊢
    exact hx.imp_right (blockUnrolled.binds hb x)
  | .forLoop c body m, out, h, x, hx => by
    obtain ⟨body', hb, rfl | ⟨-, -, t, p, -, -, rfl⟩⟩ := h
    · rw [Stmt.blockBinds_singleton]
      simp only [Stmt.binds, List.mem_cons, List.mem_append] at hx ⊢
      exact hx.imp_right fun hx => hx.imp_right (blockUnrolled.binds hb x)
    · rw [Stmt.blockBinds_append, Stmt.blockBinds_singleton]
      refine List.mem_append_right _ ?_
      simp only [Parts.rest, Stmt.binds, keys_entered, List.mem_cons, List.mem_append] at hx ⊢
      exact hx.imp_right fun hx => hx.imp_right (blockUnrolled.binds hb x)

theorem blockUnrolled.binds : ∀ {ss : List Stmt} {out : Block}, blockUnrolled n env ss out →
    ∀ x ∈ Stmt.blockBinds ss, x ∈ Stmt.blockBinds out
  | [], _, _, x, hx => absurd hx List.not_mem_nil
  | s :: ss, out, h, x, hx => by
    obtain ⟨o, os, ho, hos, rfl⟩ := h
    rw [Stmt.blockBinds_append, List.mem_append]
    rw [Stmt.blockBinds, List.mem_append] at hx
    exact hx.imp (Unrolled.binds ho x) (blockUnrolled.binds hos x)

end

/-- The block `out`, made of code that binds `xs`, passes the check where the names in `V` are defined. -/
structure Checked (E env : TypeEnv) (xs : List VarName) (out : Block) (V : List VarName) : Prop where
  passes : ∃ D D', WellFormed.block E out D = .ok D' ∧ D.Nodup ∧ ∀ x ∈ V, x ∈ D
  env : ∀ x ∈ xs, E.get? x = env.get? x

namespace Checked

variable {E : TypeEnv} {V : List VarName} {m : Merge}

theorem single {xs : List VarName} {s : Stmt} (h : Checked E env xs [s] V) :
    ∃ D D', WellFormed.stmt E s D = .ok D' ∧ D.Nodup ∧ ∀ x ∈ V, x ∈ D := by
  obtain ⟨D, D', hok, hD, hV⟩ := h.passes
  rw [WellFormed.block] at hok
  obtain ⟨D1, hs, -⟩ := except_bind_ok hok
  exact ⟨D, D1, hs, hD, hV⟩

variable {c : Expr} {body' body : List Stmt}

theorem ite {yes no yes' no' : List Stmt} (h : Checked E env (Stmt.ite c yes no m).binds [.ite c yes' no' m] V) :
    Checked E env (Stmt.blockBinds yes) yes' V ∧ Checked E env (Stmt.blockBinds no) no' V := by
  obtain ⟨D, D', hs, hD, hV⟩ := h.single
  obtain ⟨D1, D2, hy, hn, -⟩ := WellFormed.ite_ok hs
  have hy' := WellFormed.block_ok hy
  exact ⟨⟨⟨D, D1, hy, hD, hV⟩, fun x hx => h.env x (by simp [Stmt.binds, hx])⟩,
    ⟨⟨D1, D2, hn, hy'.2 hD, fun x hx => hy'.mem.mpr (.inr (hV x hx))⟩, fun x hx => h.env x (by simp [Stmt.binds, hx])⟩⟩

theorem whileLoop (h : Checked E env (Stmt.whileLoop c body m).binds [.whileLoop c body' m] V) :
    Checked E env (Stmt.blockBinds body) body' (m.keys ++ V) := by
  obtain ⟨D, D', hs, hD, hV⟩ := h.single
  obtain ⟨D1, hm, hb⟩ := WellFormed.whileLoop_ok hs
  refine ⟨⟨D1, D', hb, hm.2 hD, fun x hx => hm.mem.mpr ?_⟩, fun x hx => h.env x (by simp [Stmt.binds, hx])⟩
  exact (List.mem_append.mp hx).imp_right (hV x)

theorem forLoop {c : Counter} (h : Checked E env (Stmt.forLoop c body m).binds [.forLoop c body' m] V) :
    Checked E env (Stmt.blockBinds body) body' (c.var :: (m.keys ++ V)) := by
  obtain ⟨D, D', hs, hD, hV⟩ := h.single
  obtain ⟨-, -, D1, hm, hb⟩ := WellFormed.forLoop_ok hs
  refine ⟨⟨D1, D', hb, hm.2 hD, fun x hx => hm.mem.mpr ?_⟩, fun x hx => h.env x (by simp [Stmt.binds, hx])⟩
  rw [← List.cons_append, List.mem_append] at hx
  exact hx.imp_right (hV x)

theorem cons {s : Stmt} {ss : List Stmt} {out' : Block} (ho : ∀ x ∈ s.binds, x ∈ Stmt.blockBinds out)
    (h : Checked E env (Stmt.blockBinds (s :: ss)) (out ++ out') V) :
    Checked E env s.binds out V ∧ ∀ V1, s.after V = some V1 → Checked E env (Stmt.blockBinds ss) out' V1 := by
  obtain ⟨D, D', hok, hD, hV⟩ := h.passes
  obtain ⟨D1, h1, h2⟩ := WellFormed.block_append hok
  have hout := WellFormed.block_ok h1
  refine ⟨⟨⟨D, D1, h1, hD, hV⟩, fun x hx => h.env x (by simp [Stmt.blockBinds, hx])⟩, fun V1 hafter => ?_⟩
  refine ⟨⟨D1, D', h2, hout.2 hD, fun x hx => hout.mem.mpr ?_⟩, fun x hx => h.env x (by simp [Stmt.blockBinds, hx])⟩
  exact ((Stmt.after_mem hafter).2 x hx).symm.imp (ho x) (hV x)

end Checked

section Halves

variable {call : Caller} {E : TypeEnv} {V : List VarName} {l : Loop} {p : Parts}

/-- Where the halves of a loop pass the check, they keep the names of the loop apart from their own. -/
theorem halves_scoped (hk : Checked E env (Stmt.forLoop l.counter l.body l.merge).binds (p.front l ++ [p.rest l]) V)
    (hs : (Stmt.forLoop l.counter l.body l.merge).wellScoped V = true) (hc : l.merge.Commutes call)
    (hbc : Stmt.blockCommutes call l.body) : l.Scoped call V ∧ p.Clear l V := by
  obtain ⟨D, D', hok, hD, hV⟩ := hk.passes
  obtain ⟨hnd, hfresh, hclear⟩ := halves_names hok hD hV
  exact ⟨.of hs hnd hfresh hc hbc, hclear⟩

/-- They pass it only if the counter has the type of its bounds. -/
theorem halves_counts (hp : p.Of n l)
    (hk : Checked E env (Stmt.forLoop l.counter l.body l.merge).binds (p.front l ++ [p.rest l]) V)
    (ht : env.get? l.counter.var = some l.counterTy) (hstart : l.counter.start.ty = .i64)
    (hstop : l.counter.stop.ty = .i64) (hstep : l.counter.step.ty = .i64) : l.Counts .i64 := by
  obtain ⟨D, D', hok, -, -⟩ := hk.passes
  have hvar := halves_counter hp hok hstart
  rw [hk.env l.counter.var List.mem_cons_self, ht] at hvar
  exact ⟨rfl, Option.some.inj hvar, .i64 hstart, .i64 hstop, .i64 hstep⟩

end Halves

/-! ## Unrolled code simulates the code -/

section Simulation

variable {call : Caller} {fuel : Nat} {E : TypeEnv} {Good : Counter → Block → Merge → Prop} {G : Stmt.AtLoops}

/-- The halves simulate every loop that is split, if it is good and the condition holds where it starts. -/
def HalvesSimulate (n : Nat) (E env : TypeEnv) (call : Caller) (fuel : Nat) (Good : Counter → Block → Merge → Prop)
    (G : Stmt.AtLoops) : Prop :=
  ∀ {c : Counter} {body : Block} {m : Merge} {out : Block} {V : List VarName}, Good c body m →
    Halves n env c body m out →
    Checked E env (Stmt.forLoop c body m).binds out V → (Stmt.forLoop c body m).wellScoped V = true →
      Sim .strict (.names .strict (· ∈ V) .none) (G c body m) (stmt call fuel (.forLoop c body m)) (block call fuel out)
        (.names .strict (· ∈ m.keys ++ V) .none)

mutual

theorem unrolled_stmt_sim (hcall : CallersAlike .strict call call) (hloop : HalvesSimulate n E env call fuel Good G) :
    ∀ {s : Stmt} {out : Block} {V : List VarName}, Unrolled n env s out → Checked E env s.binds out V →
    s.wellScoped V = true → (∀ c body m, .forLoop c body m ∈ s.parts → Good c body m) →
      Sim .strict (.names .strict (· ∈ V) .none) (s.Along G call fuel) (stmt call fuel s) (block call fuel out)
        (.scope .strict .none (s.after V))
  | .assign target value, out, V, h, _, hs, _ => by
    obtain rfl := h
    rw [block_singleton]
    exact .assignScoped hcall (Likeness.strict_admitsStmt _) hs
  | .ret value, out, V, h, _, hs, _ => by
    obtain rfl := h
    rw [block_singleton]
    exact .ret (expr_scoped hcall (Likeness.strict_admits _) hs)
  | .ite c yes no m, out, V, h, hk, hs, hg => by
    obtain ⟨yes', no', hy, hno, rfl⟩ := h
    have hs' := hs
    simp only [Stmt.wellScoped, Bool.and_eq_true] at hs'
    obtain ⟨⟨⟨⟨-, hsy⟩, hsn⟩, -⟩, -⟩ := hs'
    rw [block_singleton]
    exact .iteScoped hcall (Likeness.strict_admits _) (fun _ _ => Likeness.strict_admits _) hs
      (unrolled_block_sim hcall hloop hy hk.ite.1 hsy fun c body m hp => hg c body m (by simp [Stmt.parts, hp]))
      (unrolled_block_sim hcall hloop hno hk.ite.2 hsn fun c body m hp => hg c body m (by simp [Stmt.parts, hp]))
  | .whileLoop c body m, out, V, h, hk, hs, hg => by
    obtain ⟨body', hb, rfl⟩ := h
    have hs' := hs
    simp only [Stmt.wellScoped, Bool.and_eq_true] at hs'
    rw [block_singleton]
    exact .whileScoped hcall (Likeness.strict_admits _) (fun _ _ => Likeness.strict_admits _) hs
      (unrolled_block_sim hcall hloop hb hk.whileLoop hs'.1.2 fun c body m hp => hg c body m (by simp [Stmt.parts, hp]))
  | .forLoop c body m, out, V, h, hk, hs, hg => by
    obtain ⟨body', hb, rfl | hhalves⟩ := h
    · have hs' := hs
      simp only [Stmt.wellScoped, Bool.and_eq_true] at hs'
      rw [block_singleton]
      exact (Sim.forScoped hcall ⟨Likeness.strict_admits _, Likeness.strict_admits _, Likeness.strict_admits _⟩
        (fun _ _ => Likeness.strict_admits _) hs
        (unrolled_block_sim hcall hloop hb hk.forLoop hs'.1.2 fun c body m hp => hg c body m
          (by simp [Stmt.parts, hp]))).mono id
        (fun hf => hf.2) id
    · -- a loop is split only if its body is simple, and then unrolling has left the body alone
      obtain rfl := hb.eq_of_simple (simple_of_short hhalves.2.1)
      exact (hloop (hg c body' m List.mem_cons_self) hhalves hk hs).mono id (fun hf => hf.1) id

/-- What unrolling makes of a block simulates the block. -/
theorem unrolled_block_sim (hcall : CallersAlike .strict call call) (hloop : HalvesSimulate n E env call fuel Good G) :
    ∀ {ss : List Stmt} {out : Block} {V : List VarName}, blockUnrolled n env ss out →
    Checked E env (Stmt.blockBinds ss) out V → Stmt.blockWellScoped ss V = true →
    (∀ c body m, .forLoop c body m ∈ Stmt.blockParts ss → Good c body m) →
      Sim .strict (.names .strict (· ∈ V) .none) (Stmt.blockAlong G call fuel ss) (block call fuel ss)
        (block call fuel out) (.scope .strict .none (Stmt.blockAfter ss V))
  | [], _, V, h, _, _, _ => by
    obtain rfl := h
    exact .nil id
  | s :: ss, out, V, h, hk, hs, hg => by
    obtain ⟨o, os, ho, hos, rfl⟩ := h
    obtain ⟨hk1, hk2⟩ := hk.cons ho.binds
    have hs1 : s.wellScoped V = true := by
      rw [Stmt.blockWellScoped, Bool.and_eq_true] at hs
      exact hs.1
    exact .consScoped
      (unrolled_stmt_sim hcall hloop ho hk1 hs1 fun c body m hp => hg c body m (List.mem_append_left _ hp))
        fun V1 hafter =>
        unrolled_block_sim hcall hloop hos (hk2 V1 hafter) (scoped_tail hs hafter) fun c body m hp =>
          hg c body m (List.mem_append_right _ hp)

end

end Simulation

/-! ## Unrolled functions -/

/-- The pass publishes a function with the same parameters, whose body is the unrolled one. -/
theorem apply_unrolled (h : (pass factor).apply () f s = .ok (g, ()) s') :
    g.params = f.params ∧ s'.find? g.name = some g ∧
      (∀ {fn : FnName} {f' : Func}, s.find? fn = some f' → s'.find? fn = some f') ∧
      blockUnrolled factor.val f.env f.body g.body ∧
      Checked g.env f.env (Stmt.blockBinds f.body) g.body f.inputs := by
  obtain ⟨body, b, hbody, hpublish⟩ := Pass.apply_ok h
  obtain ⟨hleave, hverify, hregister⟩ := Pass.publish_ok hpublish
  obtain ⟨_, _, b1, henter, hbody⟩ := pass_bind_ok hbody
  cases henter
  obtain ⟨⟨ss, _⟩, _, b2, hnested, hbody⟩ := pass_bind_ok hbody
  obtain ⟨rfl, -, rfl⟩ := pass_pure_ok hbody
  obtain ⟨b3, hstmts, rfl, rfl⟩ := pass_nested_ok hnested
  have hrebuilt : ∃ out, Rebuilds f.env _ (blockUnrolled factor.val f.env f.body out) out out _ _ :=
    stmts_unrolled hstmts
  obtain ⟨out, N, hemits, hperm, hunrolled⟩ := hrebuilt
  have hout : b3.block = out := hemits.block
  cases hleave
  obtain ⟨D, D', hparams, hok⟩ := Func.verify_ok hverify
  have hD := WellFormed.params_ok hparams
  obtain ⟨hreg, hkeep⟩ := Session.register_ok hregister
  subst hout
  -- the names that the pass has taken are not names of the function
  have hnd := hperm.nodup ((WellFormed.block_ok hok).fresh (hD.2 .nil)).1
  have hnew : ∀ x ∈ Stmt.blockBinds f.body, x ∉ N := fun x hx hn => (List.nodup_append.mp hnd).2.2 x hx x hn rfl
  refine ⟨rfl, hreg, fun {fn f'} hf => hkeep ?_, hunrolled hnew fun _ _ => rfl,
    ⟨D, D', hok, hD.2 .nil, fun x hx => hD.mem.mpr (.inl hx)⟩, fun x hx => hemits.env x (hnew x hx)⟩
  rw [← hf]
  exact congrArg (fun fs : List Func => fs.find? (·.name = fn)) (congrArg Session.functions hemits.session)

/-- The new function runs in step with the old one, if the halves of its loops do. -/
theorem apply_outcome (hf : s.find? f.name = some f) (h : (pass factor).apply () f s = .ok (g, ()) s')
    (hscoped : Stmt.blockWellScoped f.body f.inputs = true) {args : List Value} {st : Store}
    (hlive : ∀ v ∈ args, ∀ b ∈ v.buffers, b < st.size) {fuel : Nat} {Good : Counter → Block → Merge → Prop}
    {G : Stmt.AtLoops} (hgood : ∀ c body m, .forLoop c body m ∈ f.statements → Good c body m)
    (hloop : HalvesSimulate factor.val g.env f.env (s'.call fuel) fuel Good G)
    (halong : Stmt.blockAlong G (s'.call fuel) fuel f.body (.ofList (f.params.zip args)) st) :
    Outcome (.identity st.size) (Ends .strict (Likes .strict)) (s'.call (fuel + 1) f.name args st)
      (s'.call (fuel + 1) g.name args st) := by
  obtain ⟨hparams, hg, hkeep, hunrolled, hchecked⟩ := apply_unrolled h
  have hargs : List.Forall₂ (Likes .strict (.identity st.size)) args args :=
    List.forall₂_same.mpr fun v hv => Value.alike_self (fun _ => trivial) fun b hb => ⟨rfl, hlive v hv b hb⟩
  rw [Session.call_succ (hkeep hf), Session.call_succ hg, hparams]
  by_cases hlen : args.length = f.params.length
  · rw [if_neg (not_not.mpr hlen), if_neg (not_not.mpr hlen)]
    have hcall := Session.call_inStep s'.strict_admits fuel
    refine body_outcome (unrolled_block_sim hcall hloop hunrolled hchecked hscoped hgood)
      (Agree.identity .strict st) ?_ halong
    intro x _
    rw [hparams]
    exact params_alike f.params hargs x
  · rw [if_pos hlen, if_pos hlen]
    trivial

end Unrolling

end ArrayIR
