/-
  ArrayIR.Proofs.Success — taking successful computations apart.

  A sequence of steps that succeeds is a success of each step, from the state the
  step before it has left. There is one statement of this for each monad that the
  library computes in, and one for each way of embedding one of them in another. One
  that fails does so at some step, after successes of those before it. Small functions
  that examples run are at the end.
-/

import ArrayIR.Pass
import Mathlib.Data.List.Forall2

namespace ArrayIR

variable {α β σ ε : Type}

theorem except_bind_ok {x : Except ε α} {f : α → Except ε β} {b : β} (h : (x >>= f) = .ok b) :
    ∃ a, x = .ok a ∧ f a = .ok b := by
  cases x with
  | error e => cases h
  | ok a => exact ⟨a, rfl, h⟩

theorem except_mapM_ok {f : α → Except ε β} {xs : List α} {ys : List β} (h : xs.mapM f = .ok ys) :
    List.Forall₂ (fun x y => f x = .ok y) xs ys := by
  induction xs generalizing ys with
  | nil =>
    cases h
    exact .nil
  | cons x xs ih =>
    rw [List.mapM_cons] at h
    obtain ⟨y, hy, h⟩ := except_bind_ok h
    obtain ⟨zs, hzs, h⟩ := except_bind_ok h
    cases h
    exact .cons hy (ih hzs)

variable {f : α → EStateM ε σ β} {s s' r' : σ} {a : α} {x : Except Error α} {r : EStateM.Result ε σ α} {b b' : Builder}

theorem state_bind_ok {x : EStateM ε σ α} {b : β}
    (h : (x >>= f) s = .ok b s') : ∃ a s1, x s = .ok a s1 ∧ f a s1 = .ok b s' := by
  change EStateM.bind x f s = .ok b s' at h
  unfold EStateM.bind at h
  cases hx : x s with
  | error e s1 =>
    rw [hx] at h
    cases h
  | ok a s1 =>
    rw [hx] at h
    exact ⟨a, s1, rfl, h⟩

/-- What follows a success goes on from where it has got to. -/
theorem state_bind_of_ok {x : EStateM ε σ α} {s1 : σ} (h : x s = .ok a s1) : (x >>= f) s = f a s1 := by
  show EStateM.bind x f s = _
  rw [EStateM.bind, h]

/-- What is done with the session at hand. -/
theorem get_bind_apply {s : Session} (x : Session → Compile α) : (get >>= x : Compile α) s = x s s := rfl

theorem state_pure_ok {b : α} (h : (pure a : EStateM ε σ α) s = .ok b s') : a = b ∧ s = s' := by
  cases h
  exact ⟨rfl, rfl⟩

theorem state_lift_ok (h : (liftM x : EStateM Fault σ α) s = .ok a s') : x = .ok a ∧ s = s' := by
  cases x with
  | error e => cases h
  | ok a => cases h; exact ⟨rfl, rfl⟩

theorem state_lift_of_ok (h : x = .ok a) (s : σ) : (liftM x : EStateM Fault σ α) s = .ok a s := by
  rw [h]
  rfl

def succeeds : EStateM.Result ε σ α → Bool
  | .ok _ _ => true
  | .error _ _ => false

theorem exists_of_succeeds (h : succeeds r = true) : ∃ a s, r = .ok a s := by
  cases r with
  | ok a s => exact ⟨a, s, rfl⟩
  | error e s => cases h

def succeedsWith (p : α → σ → Bool) : EStateM.Result ε σ α → Bool
  | .ok a s => p a s
  | .error _ _ => false

theorem exists_of_succeedsWith {p : α → σ → Bool} (h : succeedsWith p r = true) :
    ∃ a s, r = .ok a s ∧ p a s = true := by
  cases r with
  | ok a s => exact ⟨a, s, rfl, h⟩
  | error e s => cases h

/-! ## Failures -/

theorem exists_of_not_succeeds (h : succeeds r = false) : ∃ e s, r = .error e s := by
  cases r with
  | ok a s => cases h
  | error e s => exact ⟨e, s, rfl⟩

theorem state_bind_error {x : EStateM ε σ α} {t : σ} {e : ε}
    (h : (x >>= f) s = .error e t) : x s = .error e t ∨ ∃ a s1, x s = .ok a s1 ∧ f a s1 = .error e t := by
  change EStateM.bind x f s = .error e t at h
  unfold EStateM.bind at h
  cases hx : x s with
  | error e' s1 =>
    rw [hx] at h
    cases h
    exact .inl rfl
  | ok a s1 =>
    rw [hx] at h
    exact .inr ⟨a, s1, rfl, h⟩

theorem state_lift_error {t : σ} {e : Fault} (h : (liftM x : EStateM Fault σ α) s = .error e t) : t = s := by
  cases x with
  | error e' =>
    cases h
    rfl
  | ok a => cases h

/-! ## Passes -/

theorem pass_bind_ok {x : PassM σ α} {f : α → PassM σ β} {r : σ} {c : β}
    (h : (x >>= f) r b = .ok (c, r') b') : ∃ a r1 b1, x r b = .ok (a, r1) b1 ∧ f a r1 b1 = .ok (c, r') b' := by
  obtain ⟨⟨a, r1⟩, b1, hx, hf⟩ := state_bind_ok h
  exact ⟨a, r1, b1, hx, hf⟩

theorem pass_bind_of_ok {x : PassM σ α} {f : α → PassM σ β} {r r1 : σ} {b1 : Builder}
    (h : x r b = .ok (a, r1) b1) : (x >>= f) r b = f a r1 b1 :=
  state_bind_of_ok (f := fun p : α × σ => f p.1 p.2) h

theorem pass_lift_of_ok {x : Build α} (h : x b = .ok a b') (r : σ) : (liftM x : PassM σ α) r b = .ok (a, r) b' :=
  state_bind_of_ok (f := fun a => pure (a, r)) h

theorem pass_pure_ok {c : α} {r : σ} (h : (pure a : PassM σ α) r b = .ok (c, r') b') : a = c ∧ r = r' ∧ b = b' := by
  cases h
  exact ⟨rfl, rfl, rfl⟩

theorem pass_lift_ok {x : Build α} {r : σ}
    (h : (liftM x : PassM σ α) r b = .ok (a, r') b') : x b = .ok a b' ∧ r = r' := by
  obtain ⟨a', b1, hx, h⟩ := state_bind_ok (x := x) (f := fun a => pure (a, r)) h
  cases h
  exact ⟨hx, rfl⟩

theorem pass_nested_ok {x : PassM σ α} {ss : Block} {r : σ} (h : PassM.nested x r b = .ok ((ss, a), r') b') :
    ∃ b1, x r { b with block := [] } = .ok (a, r') b1 ∧ ss = b1.block ∧ b' = { b1 with block := b.block } := by
  obtain ⟨⟨ss', a', r1⟩, b1, hx, h⟩ := state_bind_ok h
  cases h
  unfold Build.nested at hx
  split at hx
  · rename_i p b2 hy
    cases hx
    exact ⟨b2, hy, rfl, rfl⟩
  · cases hx

theorem pass_nested_of_ok {x : PassM σ α} {r : σ} {b1 : Builder} (h : x r { b with block := [] } = .ok (a, r') b1) :
    PassM.nested x r b = .ok ((b1.block, a), r') { b1 with block := b.block } := by
  refine state_bind_of_ok (a := (b1.block, a, r')) ?_
  rw [Build.nested, h]

/-! ## Functions for examples -/

/-- The function that returns an expression over its parameters. -/
def Func.returning (name : FnName) (params : List (VarName × Ty)) (e : Expr) : Func where
  name := name
  params := params.map Prod.fst
  paramTys := params.map Prod.snd
  result := e.ty
  env := .ofList params
  body := [.ret e]

namespace Sample

def identity : Func := .returning "identity" [("x", .i64)] (.var "x" .i64)

def double : Func := .returning "double" [("x", .i64)] (.prim .add [.var "x" .i64, .var "x" .i64] .i64)

def plus : Func := .returning "plus" [("x", .i64), ("y", .i64)] (.prim .add [.var "x" .i64, .var "y" .i64] .i64)

end Sample

end ArrayIR
