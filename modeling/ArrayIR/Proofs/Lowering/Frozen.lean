/-
  ArrayIR.Proofs.Lowering.Frozen — lowered conditions of `while` loops.

  The code of an adverb is emitted ahead of the statement that the adverb stands in.
  For the condition of a `while` loop that is ahead of the loop. So what the adverbs
  of a condition give is computed once, and not at every header. If all that the
  condition reads besides is left alone by the loop, every test of the lowered loop
  has the same outcome: the loop is left at its first test or not at all
  (`Lowering.frozen_condition`). And if an adverb reads a name that the loop binds,
  its code comes too early (`Lowering.condition_ahead_of_loop`).
-/

import ArrayIR.Pass.Adverbs
import ArrayIR.Proofs.Appending
import ArrayIR.Proofs.Held

namespace ArrayIR

open ArrayIR.Expr (Held)

namespace Lowering

open Adverbs

variable {lower : LowerFn} {fixed : VarName → Prop}

/-- A step of a pass without a state, as a computation over the builder. -/
abbrev PassAppends {α : Type} (P : α → Block → Prop) (x : PassM Unit α) : Prop :=
  Appends (fun (p : α × Unit) out => P p.1 out) (x ())

variable {α β : Type} {x : PassM Unit α} {f : α → PassM Unit β} {e : Expr} {P : α → Block → Prop}
  {r : Replacement (PassM Unit)} {rs below : List (Replacement (PassM Unit))} {out : Block}

theorem PassAppends.bind {Q : β → Block → Prop} (h : PassAppends P x)
    (next : ∀ a out, P a out → PassAppends (fun c more => Q c (out ++ more)) (f a)) : PassAppends Q (x >>= f) :=
  Appends.bind h fun p out hp => next p.1 out hp

theorem PassAppends.lift {x : Build α} (h : Appends P x) : PassAppends P (liftM x : PassM Unit α) := by
  refine Appends.bind h fun a out ha => .pure ?_
  rwa [List.append_nil]

abbrev PassAppending {α : Type} (x : PassM Unit α) : Prop := PassAppends (fun _ _ => True) x

theorem PassAppending.bind (h : PassAppending x)
    (next : ∀ a, PassAppending (f a)) : PassAppending (x >>= f) := PassAppends.bind h fun a _ _ => next a

theorem PassAppending.pure (a : α) : PassAppending (pure a) := Appends.pure trivial

theorem PassAppending.mapM {xs : List α} (h : ∀ a ∈ xs, PassAppending (f a)) : PassAppending (xs.mapM f) := by
  induction xs with
  | nil =>
    rw [List.mapM_nil]
    exact pure _
  | cons x xs ih =>
    rw [List.mapM_cons]
    refine (h x List.mem_cons_self).bind fun _ => ?_
    exact (ih fun a ha => h a (List.mem_cons_of_mem _ ha)).bind fun _ => pure _

/-! ### Every replacement appends -/

/-- How an expression is lowered appends code, and so does how its children are. -/
structure Sound (r : Replacement (PassM Unit)) : Prop where
  self : PassAppending r.self
  kids : PassAppending r.kids

theorem captures_appends (h : Sound r) (e : Expr) : PassAppending (r.captures e) := by
  refine PassAppending.bind (.lift (.lift _)) fun values => ?_
  cases e with
  | closure fn captured t =>
    show PassAppending (if _ then _ else _)
    split
    · exact .pure _
    · exact h.kids
  | _ =>
    refine PassAppending.mapM fun v _ => ?_
    split
    · exact h.self.bind fun _ => .pure _
    · exact .pure _

theorem callable_appends (h : Sound r) (e : Expr) : PassAppending (callable lower e r) := by
  refine PassAppending.bind (.lift (Tidy.callee e).appends) fun f => ?_
  refine PassAppending.bind (.lift (Build.compile_appends _)) fun g => (captures_appends h e).bind fun captured => ?_
  cases e.ty <;> exact .pure _

theorem selves_appends (h : ∀ r ∈ rs, Sound r) :
    PassAppending (rs.mapM (·.self)) := .mapM fun r hr => (h r hr).self

theorem initAndArgs_appends (init : Option Expr) (h : ∀ r ∈ rs, Sound r) : PassAppending (initAndArgs init rs) := by
  unfold initAndArgs
  split
  · rename_i r rs
    refine (h r List.mem_cons_self).self.bind fun _ => ?_
    exact (selves_appends fun r hr => h r (List.mem_cons_of_mem _ hr)).bind fun _ => .pure _
  · exact (selves_appends h).bind fun _ => .pure _

theorem lowered_bound {code : Build Expr} (h : Appends BoundIn code) (t : Ty) :
    Appends BoundIn (step.lowered code t) := h.bind fun _ _ he => Build.coerce_bound t _ he

theorem PassAppends.andThen {f : α → PassM Unit Expr} (h : PassAppending x)
    (next : ∀ a, PassAppends BoundIn (f a)) : PassAppends BoundIn (x >>= f) :=
  PassAppends.bind h fun a out _ => (next a).mono fun _ _ he => he.prepend out

/-- An adverb is lowered to a name that is bound ahead. -/
theorem adverb_bound (he : e.isAdverb = true) (h : ∀ r ∈ below, Sound r)
    (hlen : below.length = e.children.length) : PassAppends BoundIn (step lower e below) := by
  have lifted : ∀ {code : Build Expr} (t : Ty), Appends BoundIn code →
      PassAppends BoundIn (liftM (step.lowered code t) : PassM Unit Expr) :=
        fun t hcode => .lift (lowered_bound hcode t)
  cases e with
  | map f args axis t =>
    match below, hlen with
    | rf :: rs, _ =>
      refine .andThen (callable_appends (h rf (by simp)) f) fun f => ?_
      refine .andThen (selves_appends fun r hr => h r (by simp [hr])) fun args => ?_
      exact lifted t (Build.map_appends f args axis)
  | reduce f c init args axis t =>
    match below, hlen with
    | rf :: rc :: rs, _ =>
      refine .andThen (callable_appends (h rf (by simp)) f) fun f => ?_
      refine .andThen (callable_appends (h rc (by simp)) c) fun c => ?_
      refine .andThen (initAndArgs_appends init fun r hr => h r (by simp [hr])) fun p => ?_
      exact lifted t (Build.reduce_appends f c p.1 p.2 axis)
  | scan f c e init args axis t =>
    match below, hlen with
    | rf :: rc :: re :: rs, _ =>
      refine .andThen (callable_appends (h rf (by simp)) f) fun f => ?_
      refine .andThen (callable_appends (h rc (by simp)) c) fun c => ?_
      refine .andThen (callable_appends (h re (by simp)) e) fun e => ?_
      refine .andThen (initAndArgs_appends init fun r hr => h r (by simp [hr])) fun p => ?_
      exact lifted t (Build.scan_appends f c e p.1 p.2 axis)
  | allPairs f args axis t =>
    match below, hlen with
    | rf :: rs, _ =>
      match rs with
      | [rx, ry] =>
        refine .andThen (callable_appends (h rf (by simp)) f) fun f => ?_
        refine .andThen (h rx (by simp)).self fun x => .andThen (h ry (by simp)).self fun y => ?_
        exact lifted t (Build.allPairs_appends f x y axis)
      | [] | [_] | _ :: _ :: _ :: _ => exact .lift (.fail _)
  | _ => cases he

/-- What is no adverb is a call of a lowered function, or the same node over other children. -/
theorem step_appends (h : ∀ r ∈ below, Sound r)
    (hlen : below.length = e.children.length) : PassAppending (step lower e below) := by
  have rebuilt : PassAppending (e.rebuild below) := (selves_appends h).bind fun _ => .pure _
  by_cases he : e.isAdverb = true
  · exact (adverb_bound he h hlen).ignore
  · cases e with
    | call fn args t =>
      refine PassAppending.bind (.lift (Build.lookupFn_tidy fn).appends) fun f => ?_
      refine PassAppending.bind (.lift (Build.compile_appends _)) fun g => ?_
      exact (selves_appends h).bind fun _ => .pure _
    | map | reduce | scan | allPairs => exact absurd rfl he
    | _ => exact rebuilt

theorem replace_self (e : Expr) :
    (e.replace (step lower)).self = step lower e (e.children.map (Expr.replace (step lower))) := by
  rw [Expr.replace, Expr.fold_eq]

theorem replace_kids (e : Expr) :
    (e.replace (step lower)).kids = (e.children.map (Expr.replace (step lower))).mapM (·.self) := by
  rw [Expr.replace, Expr.fold_eq]

theorem replace_sound (e : Expr) : Sound (e.replace (step lower)) := by
  refine Expr.induction (P := fun e => Sound (e.replace (step lower))) (fun e ih => ?_) e
  have hbelow : ∀ r ∈ e.children.map (Expr.replace (step lower)), Sound r := by
    intro r hr
    obtain ⟨c, hc, rfl⟩ := List.mem_map.mp hr
    exact ih c hc
  constructor
  · rw [replace_self]
    exact step_appends hbelow (by simp)
  · rw [replace_kids]
    exact selves_appends hbelow

/-! ### Held conditions -/

/-- Names fixed from the start, or bound by the code. -/
def FixedIn (fixed : VarName → Prop) (out : Block) (x : VarName) : Prop := fixed x ∨ x ∈ Stmt.blockBinds out

theorem held_append (h : Held False (FixedIn fixed out) e) (more : Block) :
    Held False (FixedIn fixed (out ++ more)) e := by
  refine h.mono fun x hx => hx.imp_right fun hm => ?_
  rw [Stmt.blockBinds_append]
  exact List.mem_append_left _ hm

theorem held_prepend (h : Held False (FixedIn fixed out) e) (before : Block) :
    Held False (FixedIn fixed (before ++ out)) e := by
  refine h.mono fun x hx => hx.imp_right fun hm => ?_
  rw [Stmt.blockBinds_append]
  exact List.mem_append_right _ hm

theorem selves_held {es : List Expr}
    (h : ∀ e ∈ es, PassAppends (fun e' out => Held False (FixedIn fixed out) e') (e.replace (step lower)).self) :
    PassAppends (fun es' out => es'.length = es.length ∧ ∀ e ∈ es', Held False (FixedIn fixed out) e)
      ((es.map (Expr.replace (step lower))).mapM (·.self)) := by
  induction es with
  | nil =>
    rw [List.map_nil, List.mapM_nil]
    exact Appends.pure ⟨rfl, fun e he => absurd he List.not_mem_nil⟩
  | cons e es ih =>
    rw [List.map_cons, List.mapM_cons]
    refine PassAppends.bind (h e List.mem_cons_self) fun e' out he => ?_
    refine PassAppends.bind (ih fun e he => h e (List.mem_cons_of_mem _ he)) fun es' more hes => Appends.pure ?_
    refine ⟨by rw [List.length_cons, List.length_cons, hes.1], fun d hd => ?_⟩
    rw [List.append_nil]
    rcases List.mem_cons.mp hd with rfl | hd
    · exact held_append he more
    · exact held_prepend (hes.2 d hd) out

/-- A node that is plain stays so over other children. -/
theorem plainNode_withChildren (he : e.isPlainNode = true) {cs : List Expr} (hlen : cs.length = e.children.length) :
    (e.withChildren cs).isPlainNode = true ∧ (e.withChildren cs).children = cs := by
  cases e with
  | const c t =>
    obtain rfl := List.eq_nil_of_length_eq_zero hlen
    exact ⟨rfl, rfl⟩
  | prim op args t => exact ⟨rfl, rfl⟩
  | tuple items t => exact ⟨rfl, rfl⟩
  | cast x t =>
    obtain ⟨y, rfl⟩ := List.length_eq_one_iff.mp hlen
    exact ⟨rfl, rfl⟩
  | proj x i t =>
    obtain ⟨y, rfl⟩ := List.length_eq_one_iff.mp hlen
    exact ⟨rfl, rfl⟩
  | _ => cases he

/-- The lowered expression depends on the same fixed names, and on names that are bound ahead of it. -/
theorem replace_held (h : Held True fixed e) :
    PassAppends (fun e' out => Held False (FixedIn fixed out) e') (e.replace (step lower)).self := by
  have hbelow : ∀ e : Expr, ∀ r ∈ e.children.map (Expr.replace (step lower)), Sound r := by
    intro e r hr
    obtain ⟨c, -, rfl⟩ := List.mem_map.mp hr
    exact replace_sound c
  induction h with
  | @adverb e _ he =>
    rw [replace_self]
    refine (adverb_bound he (hbelow e) (by simp)).mono fun p out hp => ?_
    obtain ⟨y, t, hy, hm⟩ := hp
    rw [hy]
    exact .name (.inr hm)
  | @name x t hx =>
    rw [replace_self]
    exact Appends.pure (.name (.inl hx))
  | @node e he _ ih =>
    have hrebuild : step lower e = e.rebuild := by
      cases e with
      | const | prim | tuple | cast | proj => rfl
      | _ => cases he
    rw [replace_self, hrebuild]
    refine PassAppends.bind (selves_held ih) fun cs out hcs => Appends.pure ?_
    obtain ⟨hnode, hchildren⟩ := plainNode_withChildren he hcs.1
    rw [List.append_nil]
    exact .node hnode (hchildren.symm ▸ hcs.2)

/-- A `while` loop is lowered to one whose condition depends on what the source's condition reads outside
of its adverbs, and on names bound ahead of the loop. Where the loop leaves alone what is read there, it is
left at its first test or not at all: what the adverbs give is never computed again. -/
theorem frozen_condition {c : Expr} {body : Block} {m : Merge} {b b' : Builder} {s : Stmt} (hc : Held True fixed c)
    (h : (pass lower).stmt (.whileLoop c body m) () b = .ok (s, ()) b') :
    ∃ out c' body' m', b'.block = b.block ++ out ∧ s = .whileLoop c' body' m' ∧ Held False (FixedIn fixed out) c' ∧
      ((Stmt.blockBinds (out ++ [s])).Nodup → (∀ x, fixed x → x ∉ s.binds) →
        ∀ call fuel L st L' st', Eval.stmt call fuel s L st = .ok (.next L') st' →
          Eval.bindMerge call m' Prod.fst L st = .ok L' st' ∧ Eval.condition call L' c' st' = .ok false st') := by
  rw [Pass.stmt] at h
  obtain ⟨entries, _, b₁, hentries, h⟩ := pass_bind_ok h
  obtain ⟨names, _, b₂, hnames, h⟩ := pass_bind_ok h
  obtain ⟨c', _, b₃, hcond, h⟩ := pass_bind_ok h
  obtain ⟨⟨body', backs⟩, _, b₄, hnested, h⟩ := pass_bind_ok h
  obtain ⟨rfl, -, rfl⟩ := pass_pure_ok h
  have hside : PassAppending ((pass lower).side m Prod.fst) := .mapM fun _ _ => (replace_sound _).self
  have hbindings : PassAppending ((pass lower).names m) := .mapM fun _ _ => .pure _
  obtain ⟨out₁, hout₁, -⟩ := hside hentries
  obtain ⟨out₂, hout₂, -⟩ := hbindings hnames
  obtain ⟨out₃, hout₃, hheld⟩ := replace_held hc hcond
  obtain ⟨b₅, -, -, rfl⟩ := pass_nested_ok hnested
  have hheld' := held_prepend hheld (out₁ ++ out₂)
  refine ⟨out₁ ++ out₂ ++ out₃, c', body', _, ?_, rfl, hheld', fun hnd hfixed call fuel L st L' st' hrun => ?_⟩
  · show b₃.block = _
    rw [hout₃, hout₂, hout₁, List.append_assoc, List.append_assoc, List.append_assoc]
  · refine Eval.while_fixed hheld' (fun x hx hm => ?_) hrun
    rcases hx with hx | hx
    · exact hfixed x hx hm
    · -- a name bound ahead of the loop is not bound in it
      rw [Stmt.blockBinds_append, Stmt.blockBinds_singleton] at hnd
      exact (List.nodup_append.mp hnd).2.2 x hx x hm rfl

open Sample (identity plus)

/-- Whether the sum of an array is below `n`. -/
def sumBelow (a : Expr) : Expr :=
  .prim .lt [.reduce (.fnRefTo "identity") (.fnRefTo "plus") none [a] 0 .i64, .var "n" .i64] (.scalar .bool)

/-- Count how many times the first element is to be increased for the sum to reach `n`. -/
def countingLoop : Stmt :=
  .whileLoop (sumBelow (.var "a" (.array .i64 1)))
    [.assign (.index (.var "a" (.array .i64 1)) (.int64 0) .i64)
      (.prim .add [.index (.var "a" (.array .i64 1)) (.int64 0) .i64, .int64 1] .i64),
     .assign (.var "k2" .i64) (.prim .add [.var "k" .i64, .int64 1] .i64)]
    (.ofList [("k", .int64 0, .var "k2" .i64)])

def countingBuilder : Builder where
  session := { functions := [identity, plus] }
  env := .ofList [("a", .array .i64 1), ("n", .i64), ("k", .i64), ("k2", .i64)]
  block := []

/-- Whether the loop has been lowered, with different names, and binds `n` nowhere. -/
def countingFresh : EStateM.Result Fault Builder (Stmt × Unit) → Bool
  | .ok (s, _) b' => decide (Stmt.blockBinds (b'.block ++ [s])).Nodup && !(s.binds.contains "n")
  | .error _ _ => false

/-- The lowered loop does not count: it is left with `k` as on entry. -/
theorem frozen_counting : ∃ s b', (pass (lowerCached 1)).stmt countingLoop () countingBuilder = .ok (s, ()) b' ∧
    ∃ c body m, s = .whileLoop c body m ∧ ∀ call fuel L st L' st',
      Eval.stmt call fuel s L st = .ok (.next L') st' → Eval.bindMerge call m Prod.fst L st = .ok L' st' := by
  have hfresh : countingFresh ((pass (lowerCached 1)).stmt countingLoop () countingBuilder) = true := by decide +kernel
  have hheld : Held True (· = "n") (sumBelow (.var "a" (.array .i64 1))) := by
    refine .node rfl fun c hc => ?_
    rcases List.mem_cons.mp hc with rfl | hc
    · exact .adverb trivial rfl
    · obtain rfl := List.mem_singleton.mp hc
      exact .name rfl
  cases h : (pass (lowerCached 1)).stmt countingLoop () countingBuilder with
  | error e b' =>
    rw [h] at hfresh
    cases hfresh
  | ok p b' =>
    obtain ⟨s, _⟩ := p
    rw [h] at hfresh
    obtain ⟨hnd, hn⟩ := Bool.and_eq_true_iff.mp hfresh
    obtain ⟨out, c, body, m, hout, rfl, -, hrun⟩ := frozen_condition hheld h
    obtain rfl : b'.block = out := hout
    refine ⟨_, b', rfl, c, body, m, rfl, fun call fuel L st L' st' hs => ?_⟩
    refine (hrun (of_decide_eq_true hnd) ?_ call fuel L st L' st' hs).1
    rintro x rfl hx
    simp [hx] at hn

def increment : Func := .returning "increment" [("x", .i64)] (.prim .add [.var "x" .i64, .int64 1] .i64)

/-- Increase all elements until the sum reaches `n`. -/
def growing : Func where
  name := "growing"
  params := ["a", "n"]
  paramTys := [.array .i64 1, .i64]
  result := .array .i64 1
  env := .ofList [("a", .array .i64 1), ("n", .i64), ("m", .array .i64 1), ("m2", .array .i64 1)]
  body := [.whileLoop (sumBelow (.var "m" (.array .i64 1)))
      [.assign (.var "m2" (.array .i64 1)) (.map (.fnRefTo "increment") [.var "m" (.array .i64 1)] 0 (.array .i64 1))]
      (.ofList [("m", .var "a" (.array .i64 1), .var "m2" (.array .i64 1))]),
    .ret (.var "m" (.array .i64 1))]

def growingSession : Session := { functions := [identity, plus, increment, growing] }

/-- What a function of a session gives on the array of one and two, and the bound eight. -/
def growingRun (s : Session) (fn : FnName) : EStateM.Result Fault Store Value :=
  s.call 5 fn [.array ⟨.i64, 0, [2], [1], 0⟩, .int 8] ⟨#[#[.int 1, .int 2]]⟩

/-- The elements of the array that a run gives. -/
def elements? : EStateM.Result Fault Store Value → Option (List Scalar)
  | .ok (.array v) st => some (v.elements st)
  | _ => none

def fault? {α : Type} : EStateM.Result Fault Store α → Option Fault
  | .ok _ _ => none
  | .error e _ => some e

/-- The fault of the lowered function. -/
def loweredFault? : Option Fault :=
  match (passIn growingSession).apply () growing growingSession with
  | .ok (g, _) s' => fault? (growingRun s' g.name)
  | .error _ _ => none

def isUnknown (x : VarName) : Fault → Bool
  | .error (.unknownVariable y) => y = x
  | _ => false

theorem eq_of_isUnknown {x : VarName} {e : Fault} (h : isUnknown x e = true) : e = .error (.unknownVariable x) := by
  unfold isUnknown at h
  split at h
  · rw [of_decide_eq_true h]
  · cases h

/-- The code of the condition, ahead of the loop, reads a name that the loop has not bound yet. -/
theorem condition_ahead_of_loop : elements? (growingRun growingSession "growing") = some [.int 4, .int 5] ∧
    loweredFault? = some (.error (.unknownVariable "m")) := by
  constructor
  · with_unfolding_all rfl
  · obtain ⟨e, he, hm⟩ := (Option.any_eq_true ..).mp (show loweredFault?.any (isUnknown "m") = true by decide +kernel)
    rw [he, eq_of_isUnknown hm]

end Lowering

end ArrayIR
