/-
  ArrayIR.Proofs.Frame — what running code depends on and what it leaves alone.

  An expression depends on no names but those it reads (`Eval.expr_congr`). A block
  changes no names but those it binds, and returns only if there is a return in it
  (`Eval.block_within`); so a fact about other names, once true in a run, stays true
  in a simulation (`Eval.Sim.keeping`).
-/

import ArrayIR.Proofs.Scope
import ArrayIR.Proofs.Simulation

namespace ArrayIR

namespace Eval

variable {call : Caller} {fuel : Nat}

/-! ## Expressions -/

variable {L' : Locals} {side : Expr × Expr → Expr} {st1 st : Store}

theorem exprs_congr {L : Locals} {es : List Expr} (h : ∀ e ∈ es, expr call L e = expr call L' e) :
    exprs call L es = exprs call L' es := by
  induction es with
  | nil => rw [exprs, exprs]
  | cons e es ih =>
    rw [exprs, exprs, h e List.mem_cons_self, ih fun e' he' => h e' (List.mem_cons_of_mem _ he')]

theorem optional_congr {L : Locals} {o : Option Expr} (h : ∀ e ∈ o.toList, expr call L e = expr call L' e) :
    optional call L o = optional call L' o := by
  cases o with
  | none => rw [optional, optional]
  | some e => rw [optional, optional, h e (by simp)]

/-- Evaluation depends on the names that are read only. -/
theorem expr_congr {L : Locals} (e : Expr) :
    (∀ x ∈ e.reads, L.get? x = L'.get? x) → expr call L e = expr call L' e := by
  refine Expr.induction (P := fun e => (∀ x ∈ e.reads, L.get? x = L'.get? x) → expr call L e = expr call L' e)
    (fun e ih h => ?_) e
  have one : ∀ c ∈ e.children, expr call L c = expr call L' c :=
    fun c hc => ih c hc fun x hx => h x (Expr.reads_of_child hc hx)
  have many : ∀ es : List Expr, (∀ c ∈ es, c ∈ e.children) → exprs call L es = exprs call L' es :=
    fun es hm => exprs_congr fun c hc => one c (hm c hc)
  have maybe : ∀ o : Option Expr, (∀ c ∈ o.toList, c ∈ e.children) → optional call L o = optional call L' o :=
    fun o hm => optional_congr fun c hc => one c (hm c hc)
  cases e with
  | var x t => rw [expr, expr, h x (Expr.mem_reads_var x t)]
  | const c t => rw [expr, expr]
  | fnRef fn t => rw [expr, expr]
  | prim op args t => rw [expr, expr, many args fun _ => id]
  | call fn args t => rw [expr, expr, many args fun _ => id]
  | tuple items t => rw [expr, expr, many items fun _ => id]
  | closure fn captured t => rw [expr, expr, many captured fun _ => id]
  | index x idx t => rw [expr, expr, one x (by simp), one idx (by simp)]
  | proj x i t => rw [expr, expr, one x (by simp)]
  | attr x field t => rw [expr, expr, one x (by simp)]
  | cast x t => rw [expr, expr, one x (by simp)]
  | alloc elt count t => rw [expr, expr, one count (by simp)]
  | capture c i t => rw [expr, expr, one c (by simp)]
  | view data shape strides offset size t =>
    rw [expr, expr, one data (by simp), one shape (by simp),
      one strides (by simp), one offset (by simp)]
  | slice start stop step t =>
    rw [expr, expr, one start (by simp), one stop (by simp),
      one step (by simp)]
  | map f args axis t =>
    rw [expr, expr, one f (by simp), many args (by simp +contextual)]
  | allPairs f args axis t =>
    rw [expr, expr, one f (by simp), many args (by simp +contextual)]
  | tiledMap f args axes tile t =>
    rw [expr, expr, one f (by simp), many args (by simp +contextual)]
  | reduce f c init args axis t =>
    rw [expr, expr, one f (by simp), one c (by simp),
      maybe init (by simp +contextual), many args (by simp +contextual)]
  | scan f c e init args axis t =>
    rw [expr, expr, one f (by simp), one c (by simp), one e (by simp),
      maybe init (by simp +contextual), many args (by simp +contextual)]
  | tiledReduce f c init args axes tile t =>
    rw [expr, expr, one f (by simp), one c (by simp), one init (by simp),
      many args (by simp +contextual)]

/-! ## Blocks -/

/-- What running code that binds `xs` leads to: other names are as they were, and a value is returned only
if the code may return. -/
def Flow.Within (xs : List VarName) (returns : Bool) (L : Locals) : Flow → Prop
  | .next L₁ => ∀ x, x ∉ xs → L₁.get? x = L.get? x
  | .returned _ => returns = true

namespace Flow.Within

variable {xs ys : List VarName} {b c : Bool} {L L₁ : Locals} {fl : Flow}

theorem mono (h : fl.Within xs b L) (hx : ∀ x ∈ xs, x ∈ ys) (hb : b = true → c = true) : fl.Within ys c L := by
  cases fl with
  | next L₁ => exact fun x hn => h x fun hm => hn (hx x hm)
  | returned v => exact hb h

/-- Running code from locals that have changed within `xs`. -/
theorem trans (h : fl.Within xs b L₁) (hL : ∀ x, x ∉ xs → L₁.get? x = L.get? x) : fl.Within xs b L := by
  cases fl with
  | next L2 => exact fun x hn => (h x hn).trans (hL x hn)
  | returned v => exact h

end Flow.Within

theorem mergeValues_names {L : Locals} {es : List (VarName × Expr × Expr)} {vs : List (VarName × Value)}
    (h : mergeValues call L side es st = .ok vs st1) : vs.map (·.1) = es.map (·.1) := by
  induction es generalizing vs st with
  | nil =>
    cases h
    rfl
  | cons e es ih =>
    obtain ⟨v, s, -, h⟩ := state_bind_ok h
    obtain ⟨us, s', hus, h⟩ := state_bind_ok h
    obtain ⟨rfl, rfl⟩ := state_pure_ok h
    rw [List.map_cons, List.map_cons, ih hus]

theorem bindMerge_keeps {m : Merge} {L L₁ : Locals}
    (h : bindMerge call m side L st = .ok L₁ st1) : ∀ x, x ∉ m.keys → L₁.get? x = L.get? x := by
  obtain ⟨vs, s, hvs, h⟩ := state_bind_ok h
  obtain ⟨rfl, rfl⟩ := state_pure_ok h
  intro x hx
  exact NameMap.get?_insertAll_of_not_mem (mergeValues_names hvs ▸ hx) L

section Loops

variable {xs : List VarName} {b : Bool} {test : Locals → Exec Bool} {body : Locals → Exec Flow}
  {again : Locals → Exec Locals}

theorem iterate_within (hb : ∀ {L st fl st1}, body L st = .ok fl st1 → fl.Within xs b L)
    (ha : ∀ {L st L₁ st1}, again L st = .ok L₁ st1 → ∀ x, x ∉ xs → L₁.get? x = L.get? x) {n : Nat} {L : Locals}
    {fl : Flow} (h : iterate test body again n L st = .ok fl st1) : fl.Within xs b L := by
  induction n generalizing L st with
  | zero =>
    rw [iterate] at h
    obtain ⟨t, s, -, h⟩ := state_bind_ok h
    cases t with
    | true => cases h
    | false =>
      cases h
      exact fun _ _ => rfl
  | succ n ih =>
    rw [iterate_succ] at h
    obtain ⟨t, s, -, h⟩ := state_bind_ok h
    cases t with
    | false =>
      cases h
      exact fun _ _ => rfl
    | true =>
      obtain ⟨fl', s', hbody, h⟩ := state_bind_ok h
      have hw := hb hbody
      cases fl' with
      | returned v =>
        cases h
        exact hw
      | next L₁ =>
        obtain ⟨L2, s2, hagain, h⟩ := state_bind_ok h
        exact (ih h).trans fun x hx => (ha hagain x hx).trans (hw x hx)

theorem repeatCounted_within {y : VarName} {step : Int} (hy : y ∈ xs)
    (hb : ∀ {L st fl st1}, body L st = .ok fl st1 → fl.Within xs b L)
    (ha : ∀ {L st L₁ st1}, again L st = .ok L₁ st1 → ∀ x, x ∉ xs → L₁.get? x = L.get? x) {n : Nat} {i : Int}
    {L : Locals} {fl : Flow} (h : repeatCounted y step body again n i L st = .ok fl st1) : fl.Within xs b L := by
  induction n generalizing i L st with
  | zero =>
    cases h
    exact fun _ _ => rfl
  | succ n ih =>
    rw [repeatCounted_succ] at h
    obtain ⟨fl', s', hbody, h⟩ := state_bind_ok h
    have hw := hb hbody
    have hi : ∀ x, x ∉ xs → (L.insert y (.ofInt i)).get? x = L.get? x :=
      fun x hx => NameMap.get?_insert_of_ne L _ fun e => hx (e ▸ hy)
    cases fl' with
    | returned v =>
      cases h
      exact hw
    | next L₁ =>
      obtain ⟨L2, s2, hagain, h⟩ := state_bind_ok h
      exact (ih h).trans fun x hx => ((ha hagain x hx).trans (hw x hx)).trans (hi x hx)

end Loops

mutual

theorem stmt_within : ∀ {s : Stmt} {L : Locals} {st st1 : Store} {fl : Flow}, stmt call fuel s L st = .ok fl st1 →
    fl.Within s.binds s.returns L
  | .assign target value, L, st, st1, fl, h => by
    by_cases ht : target.isTarget = true
    · rw [stmt] at h
      obtain ⟨v, s, -, h⟩ := state_bind_ok h
      cases target with
      | var x t =>
        cases h
        exact fun z hz => NameMap.get?_insert_of_ne L v fun e => hz (e ▸ List.mem_cons_self)
      | index a i t =>
        obtain ⟨_, _, -, h⟩ := state_bind_ok h
        obtain ⟨_, _, -, h⟩ := state_bind_ok h
        obtain ⟨_, _, -, h⟩ := state_bind_ok h
        cases h
        exact fun _ _ => rfl
      | _ => cases ht
    · rw [stmt_assign_of_not_target _ _ (Bool.not_eq_true _ ▸ ht)] at h
      obtain ⟨_, _, -, h⟩ := state_bind_ok h
      cases h
  | .ret value, L, st, st1, fl, h => by
    rw [stmt] at h
    obtain ⟨_, _, -, h⟩ := state_bind_ok h
    cases h
    rfl
  | .ite c yes no m, L, st, st1, fl, h => by
    rw [stmt_ite] at h
    obtain ⟨b, s, -, h⟩ := state_bind_ok h
    obtain ⟨fl', s', hb, h⟩ := state_bind_ok h
    have hw : fl'.Within (Stmt.ite c yes no m).binds (Stmt.ite c yes no m).returns L := by
      cases b with
      | true => exact (block_within hb).mono (by simp +contextual [Stmt.binds]) (by simp +contextual [Stmt.returns])
      | false => exact (block_within hb).mono (by simp +contextual [Stmt.binds]) (by simp +contextual [Stmt.returns])
    cases fl' with
    | returned v =>
      cases h
      exact hw
    | next L₁ =>
      obtain ⟨L2, s2, hm, h⟩ := state_bind_ok h
      cases h
      exact fun x hx => (bindMerge_keeps hm x fun hk => hx (by simp [Stmt.binds, hk])).trans (hw x hx)
  | .whileLoop c body m, L, st, st1, fl, h => by
    rw [stmt] at h
    obtain ⟨L₁, s, hm, h⟩ := state_bind_ok h
    have hkeys : ∀ x, x ∉ (Stmt.whileLoop c body m).binds → x ∉ m.keys := fun x hx hk => hx (by simp [Stmt.binds, hk])
    exact (iterate_within (fun hb => (block_within hb).mono (by simp +contextual [Stmt.binds]) (by simp [Stmt.returns]))
      (fun ha x hx => bindMerge_keeps ha x (hkeys x hx)) h).trans fun x hx => bindMerge_keeps hm x (hkeys x hx)
  | .forLoop c body m, L, st, st1, fl, h => by
    rw [stmt_forLoop] at h
    obtain ⟨hd, s, -, h⟩ := state_bind_ok h
    by_cases h0 : hd.step = 0
    · rw [if_pos h0] at h
      cases h
    · rw [if_neg h0] at h
      obtain ⟨L₁, s1, hm, h⟩ := state_bind_ok h
      have hkeys : ∀ x, x ∉ (Stmt.forLoop c body m).binds → x ∉ m.keys := fun x hx hk => hx (by simp [Stmt.binds, hk])
      exact (repeatCounted_within List.mem_cons_self
        (fun hb => (block_within hb).mono (by simp +contextual) (by simp [Stmt.returns]))
        (fun ha x hx => bindMerge_keeps ha x (hkeys x hx)) h).trans fun x hx => bindMerge_keeps hm x (hkeys x hx)

/-- A block changes no names but those it binds, and returns only if there is a return in it. -/
theorem block_within : ∀ {ss : List Stmt} {L : Locals} {st st1 : Store} {fl : Flow},
    block call fuel ss L st = .ok fl st1 → fl.Within (Stmt.blockBinds ss) (Stmt.blockReturns ss) L
  | [], L, st, st1, fl, h => by
    rw [block_nil] at h
    cases h
    exact fun _ _ => rfl
  | s :: ss, L, st, st1, fl, h => by
    rw [block_cons] at h
    obtain ⟨fl', s', hs, h⟩ := state_bind_ok h
    have hw : fl'.Within (Stmt.blockBinds (s :: ss)) (Stmt.blockReturns (s :: ss)) L :=
      (stmt_within hs).mono (by simp +contextual [Stmt.blockBinds]) (by simp +contextual [Stmt.blockReturns])
    cases fl' with
    | returned v =>
      cases h
      exact hw
    | next L₁ =>
      exact ((block_within h).mono (by simp +contextual [Stmt.blockBinds])
        (by simp +contextual [Stmt.blockReturns])).trans hw

end

end Eval

/-! ## Facts kept along a simulation -/

/-- Linked locals, and a fact about those of the second run. -/
def Link.and (Γ : Link) (P : Locals → Prop) : Link where
  holds w L L' := Γ.holds w L L' ∧ P L'
  mono hle h := ⟨Γ.mono hle h.1, h.2⟩

namespace Eval

variable {k : Likeness} {Γ Δ : Link} {P : Locals → Prop}

theorem Sim.keeping {F : Locals → Store → Prop} {x y : Locals → Exec Flow} (h : Sim k Γ F x y Δ)
    (hy : ∀ {L st L₁ st1}, P L → y L st = .ok (.next L₁) st1 → P L₁) : Sim k (Γ.and P) F x y (Δ.and P) := by
  intro w L st L' st' hst hL hf
  refine (h w L st L' st' hst hL.1 hf).mono_eq fun w' a s b s' _ _ hrun hp => ⟨hp.1, ?_⟩
  cases a <;> cases b
  · exact ⟨hp.2, hy hL.2 hrun⟩
  · exact hp.2
  · exact hp.2
  · exact hp.2

theorem Across.keeping {x y : Locals → Exec Locals} (h : Across k Γ Δ.holds x y)
    (hy : ∀ {L st L₁ st1}, P L → y L st = .ok L₁ st1 → P L₁) : Across k (Γ.and P) (Δ.and P).holds x y := by
  intro w L L' hL st st' hst
  refine (h hL.1 st st' hst).mono_eq fun w' a s b s' _ _ hrun hp => ⟨hp.1, hp.2, hy hL.2 hrun⟩

end Eval

end ArrayIR
