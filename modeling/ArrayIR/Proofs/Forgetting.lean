/-
  ArrayIR.Proofs.Forgetting — passes that differ in how much they remember.

  A pass may keep more state than another and do the same otherwise. Then it rebuilds
  functions in the same way (`Pass.Forgets.apply`): forgetting what it has kept beside
  leaves what the other pass gives, be it a result or a failure.
-/

import ArrayIR.Proofs.Discipline.Replacing

namespace ArrayIR

variable {σ τ α β : Type}

/-- A result, with less of the pass's state. -/
def forget {γ : Type} (π : σ → τ) : EStateM.Result Fault γ (α × σ) → EStateM.Result Fault γ (α × τ)
  | .ok (a, st) c => .ok (a, π st) c
  | .error e c => .error e c

/-- The first computation does what the second one does, and keeps more. -/
def Forgets (π : σ → τ) (X : PassM σ α) (x : PassM τ α) : Prop := ∀ st b, forget π (X st b) = x (π st) b

namespace Forgets

variable {π : σ → τ}

theorem pure (a : α) : Forgets π (Pure.pure a) (Pure.pure a) := fun _ _ => rfl

theorem fail (e : Error) : Forgets π (ArrayIR.fail e : PassM σ α) (ArrayIR.fail e) := fun _ _ => rfl

variable {X : PassM σ α} {x : PassM τ α} {F : α → PassM σ β} {f : α → PassM τ β}

theorem bind (h : Forgets π X x) (hf : ∀ a, Forgets π (F a) (f a)) : Forgets π (X >>= F) (x >>= f) := by
  intro st b
  have hx := h st b
  show forget π (EStateM.bind (X st) (fun p => F p.1 p.2) b) = EStateM.bind (x (π st)) (fun p => f p.1 p.2) b
  unfold EStateM.bind
  rw [← hx]
  cases hX : X st b with
  | error e b' => rfl
  | ok p b' => exact hf p.1 p.2 b'

theorem lift (x : Build α) : Forgets π (liftM x : PassM σ α) (liftM x) := by
  intro st b
  show forget π (EStateM.bind x (fun a => Pure.pure (a, st)) b) = EStateM.bind x (fun a => Pure.pure (a, π st)) b
  unfold EStateM.bind
  cases x b with
  | error e b' => rfl
  | ok a b' => rfl

/-- What is done with the state at hand. -/
theorem look {F : σ → PassM σ α} {f : τ → PassM τ α} (h : ∀ st, Forgets π (F st) (f (π st))) :
    Forgets π (get >>= F) (get >>= f) := fun st b => h st st b

theorem put {st : σ} {st' : τ} (h : π st = st') : Forgets π (set st) (set st') := fun _ _ => h ▸ rfl

theorem update {f : σ → σ} {g : τ → τ} (h : ∀ st, π (f st) = g (π st)) : Forgets π (modify f) (modify g) := by
  intro st b
  show EStateM.Result.ok ((), π (f st)) b = EStateM.Result.ok ((), g (π st)) b
  rw [h]

theorem mapM {xs : List α} (h : ∀ a ∈ xs, Forgets π (F a) (f a)) : Forgets π (xs.mapM F) (xs.mapM f) := by
  induction xs with
  | nil => exact pure _
  | cons a xs ih =>
    rw [List.mapM_cons, List.mapM_cons]
    exact (h a List.mem_cons_self).bind fun _ => (ih fun b hb => h b (List.mem_cons_of_mem _ hb)).bind fun _ => pure _

theorem nested (h : Forgets π X x) : Forgets π (PassM.nested X) (PassM.nested x) := by
  intro st b
  have hx := h st { b with block := [] }
  show forget π (EStateM.bind (Build.nested (X st)) (fun p => Pure.pure ((p.1, p.2.1), p.2.2)) b) =
    EStateM.bind (Build.nested (x (π st))) (fun p => Pure.pure ((p.1, p.2.1), p.2.2)) b
  unfold EStateM.bind Build.nested
  rw [← hx]
  cases hX : X st { b with block := [] } with
  | error e b' => rfl
  | ok p b' => rfl

/-- The same replacement, with more state kept. -/
structure Replacing (π : σ → τ) (R : Replacement (PassM σ)) (r : Replacement (PassM τ)) : Prop where
  self : Forgets π R.self r.self
  kids : Forgets π R.kids r.kids

theorem captures {R : Replacement (PassM σ)} {r : Replacement (PassM τ)} (h : Replacing π R r) (e : Expr) :
    Forgets π (R.captures e) (r.captures e) := by
  refine bind (lift _) fun values => ?_
  have hvalues : Forgets π (values.mapM (Expr.reproject R.self)) (values.mapM (Expr.reproject r.self)) := by
    refine mapM fun v _ => ?_
    cases v with
    | capture x i t => exact h.self.bind fun _ => pure _
    | _ => exact pure _
  cases e with
  | closure fn vs t =>
    show Forgets π (if values.isEmpty then Pure.pure [] else R.kids) (if values.isEmpty then Pure.pure [] else r.kids)
    split
    · exact pure _
    · exact h.kids
  | _ => exact hvalues

theorem selves {below : List (Replacement (PassM σ))} {below' : List (Replacement (PassM τ))}
    (h : List.Forall₂ (Replacing π) below below') : Forgets π (below.mapM (·.self)) (below'.mapM (·.self)) := by
  induction h with
  | nil => exact pure _
  | cons hr _ ih =>
    rw [List.mapM_cons, List.mapM_cons]
    exact hr.self.bind fun _ => ih.bind fun _ => pure _

/-- Steps that differ in what they keep replace expressions in the same way. -/
theorem replace {S : Expr → List (Replacement (PassM σ)) → PassM σ Expr}
    {step : Expr → List (Replacement (PassM τ)) → PassM τ Expr}
    (h : ∀ e below below', List.Forall₂ (Replacing π) below below' → Forgets π (S e below) (step e below')) (e : Expr) :
    Replacing π (e.replace S) (e.replace step) := by
  induction e using Expr.induction with
  | step e ih =>
    have hbelow : List.Forall₂ (Replacing π) (e.children.map (Expr.replace S))
        (e.children.map (Expr.replace step)) := by
      rw [List.forall₂_map_left_iff, List.forall₂_map_right_iff]
      exact List.forall₂_same.mpr ih
    constructor
    · rw [Expr.self_replace, Expr.self_replace]
      exact h e _ _ hbelow
    · rw [Expr.kids_replace, Expr.kids_replace]
      exact selves hbelow

end Forgets

namespace Pass

/-- The first pass does what the second one does, and keeps more. -/
structure Forgets (p : Pass σ) (π : σ → τ) (q : Pass τ) : Prop where
  enter : ∀ f, ArrayIR.Forgets π (p.enter f) (q.enter f)
  leave : ∀ st f, p.leave st f = q.leave (π st) f
  expr : ∀ e, ArrayIR.Forgets π (p.expr e) (q.expr e)
  binding : ∀ x, ArrayIR.Forgets π (p.binding x) (q.binding x)
  assign : ∀ t v, ArrayIR.Forgets π (p.assign t v) (q.assign t v)
  loop : ∀ c body m, ArrayIR.Forgets π (p.loop c body m) (q.loop c body m)

namespace Forgets

variable {π : σ → τ} {p : Pass σ} {q : Pass τ}

theorem side (h : p.Forgets π q) (m : Merge) (pick : Expr × Expr → Expr) :
    ArrayIR.Forgets π (p.side m pick) (q.side m pick) :=
  .mapM fun _ _ => h.expr _

theorem names (h : p.Forgets π q) (m : Merge) : ArrayIR.Forgets π (p.names m) (q.names m) :=
    .mapM fun _ _ => h.binding _

mutual

theorem stmt (h : p.Forgets π q) : ∀ s : Stmt, ArrayIR.Forgets π (p.stmt s) (q.stmt s)
  | .assign target value => h.assign target value
  | .ret value => (h.expr value).bind fun _ => .pure _
  | .ite cond yes no merge => by
    rw [Pass.stmt, Pass.stmt]
    refine (h.expr cond).bind fun _ => ((h.stmts yes).bind fun _ => h.side merge _).nested.bind fun _ => ?_
    exact ((h.stmts no).bind fun _ => h.side merge _).nested.bind fun _ => (h.names merge).bind fun _ => .pure _
  | .whileLoop cond body merge => by
    rw [Pass.stmt, Pass.stmt]
    refine (h.side merge _).bind fun _ => (h.names merge).bind fun _ => (h.expr cond).bind fun _ => ?_
    exact ((h.stmts body).bind fun _ => h.side merge _).nested.bind fun _ => .pure _
  | .forLoop c body merge => by
    rw [Pass.stmt, Pass.stmt]
    refine (h.expr c.start).bind fun _ => (h.expr c.stop).bind fun _ => (h.expr c.step).bind fun _ => ?_
    refine (h.side merge _).bind fun _ => (h.names merge).bind fun _ => (h.binding c.var).bind fun _ => ?_
    exact ((h.stmts body).bind fun _ => h.side merge _).nested.bind fun _ => h.loop _ _ _

theorem stmts (h : p.Forgets π q) : ∀ ss : List Stmt, ArrayIR.Forgets π (p.stmts ss) (q.stmts ss)
  | [] => .pure _
  | s :: ss => by
    rw [Pass.stmts, Pass.stmts]
    exact (h.stmt s).bind fun _ => (ArrayIR.Forgets.lift _).bind fun _ => h.stmts ss

end

theorem body (h : p.Forgets π q) (f : Func) : ArrayIR.Forgets π (p.body f) (q.body f) :=
  (h.enter f).bind fun _ => (h.stmts f.body).nested.bind fun _ => .pure _

/-- The passes rebuild and publish the same function. -/
theorem apply (h : p.Forgets π q) (st : σ) (f : Func) (s : Session) :
    forget π (p.apply st f s) = q.apply (π st) f s := by
  unfold Pass.apply
  rw [← h.body f st ⟨s, f.env, []⟩]
  cases p.body f st ⟨s, f.env, []⟩ with
  | error e b => rfl
  | ok r b =>
    obtain ⟨code, st'⟩ := r
    have hpublish : p.publish st' f b.env (b.block ++ code) = q.publish (π st') f b.env (b.block ++ code) := by
      unfold Pass.publish
      simp only [h.leave]
    show forget π (EStateM.bind (p.publish st' f b.env (b.block ++ code)) (fun g => pure (g, st')) b.session) =
      EStateM.bind (q.publish (π st') f b.env (b.block ++ code)) (fun g => pure (g, π st')) b.session
    rw [hpublish]
    unfold EStateM.bind
    cases q.publish (π st') f b.env (b.block ++ code) b.session with
    | error e s' => rfl
    | ok g s' => rfl

end Forgets

end Pass

end ArrayIR
