/-
  ArrayIR.Proofs.Apart — buffers that a computation does not reach.

  Values are the only way to a buffer. What is computed from values that do not refer to
  a buffer does not refer to it either, and leaves it as it was (`Leaves`), whatever is
  called and stored on the way: an expression looks up, indexes and takes apart the values
  it is given, and the buffers it adds are new. So a call changes no buffer that its
  arguments do not refer to (`Session.call_leaves`). The regime (`Regime.apart`) is that all
  buffers but one are in bounds.
-/

import ArrayIR.Proofs.Regime

namespace ArrayIR

namespace Value

/-- The value does not refer to the buffer. -/
def Avoids (r : BufferId) (v : Value) : Prop := r ∉ v.buffers

/-- None of the values refers to the buffer. -/
def AllAvoid (r : BufferId) (vs : List Value) : Prop := ∀ v ∈ vs, v.Avoids r

end Value

open Value (AllAvoid)

/-- No name stands for a value that refers to the buffer. -/
def Locals.Avoid (r : BufferId) (L : Locals) : Prop := ∀ x v, L.get? x = some v → v.Avoids r

/-- A success leaves the buffer as it was, and gives a result as `P` says. -/
def Leaves {α : Type} (r : BufferId) (P : α → Prop) (x : Exec α) : Prop :=
  ∀ ⦃st : Store⦄ ⦃a : α⦄ ⦃st' : Store⦄, r < st.size → x st = .ok a st' →
    st.size ≤ st'.size ∧ st'.cells r = st.cells r ∧ P a

/-- Calls leave the buffer alone, and give values that do not refer to it, if the arguments do not. -/
def CallerLeaves (r : BufferId) (call : Caller) : Prop :=
  ∀ fn args, AllAvoid r args → Leaves r (Value.Avoids r) (call fn args)

/-- The regime under which nothing refers to the buffer. -/
def Regime.apart (r : BufferId) : Regime where
  names := Set.univ
  refers b := b ≠ r
  owns b := b ≠ r
  fit s := r < s.size
  turns s t := s.size ≤ t.size ∧ t.cells r = s.cells r
  excuses _ := False
  refers_of_owns := id
  refl _ := ⟨Nat.le_refl _, rfl⟩
  trans h h' := ⟨Nat.le_trans h.1 h'.1, h'.2.trans h.2⟩
  fit_of_turns hs h := Nat.lt_of_lt_of_le hs h.1
  alloc cells hs := ⟨⟨(Store.Grows.alloc _ cells).size, (Store.Grows.alloc _ cells).cells hs⟩, Nat.ne_of_gt hs⟩
  modify _ hb _ := ⟨by simp, Store.cells_modify_ne _ _ hb.symm⟩

section

variable {α : Type} {r : BufferId} {P : α → Prop} {x : Exec α} {v : Value} {vs : List Value} {call : Caller}

theorem apart_holds : (Regime.apart r).Holds v ↔ v.Avoids r :=
  ⟨fun h hr => h.2 r hr rfl, fun h => ⟨fun _ _ => trivial, fun _ hb hr => h (hr ▸ hb)⟩⟩

theorem apart_all : (Regime.apart r).All vs ↔ AllAvoid r vs := forall₂_congr fun _ _ => apart_holds

theorem leaves_iff : Leaves r P x ↔ (Regime.apart r).Obeys P x := by
  refine ⟨fun h => .same fun s a t hs hx => and_assoc.mpr (h hs hx), fun h s a t hs hx => ?_⟩
  rcases h s hs with ⟨-, hok⟩ | ⟨_, _, _, hfalse⟩
  · exact and_assoc.mp (hok a t hx)
  · exact hfalse.elim

theorem Leaves.of_obeys {x : Exec Value} (h : (Regime.apart r).Obeys (Regime.apart r).Holds x) :
    Leaves r (Value.Avoids r) x :=
  leaves_iff.mpr (h.mono fun _ => apart_holds.mp)

theorem CallerLeaves.callers (h : CallerLeaves r call) : (Regime.apart r).Callers call call :=
  fun fn _ args hargs => (leaves_iff.mp (h fn args (apart_all.mp hargs))).mono fun _ => apart_holds.mpr

end

variable {r : BufferId} {call : Caller}

namespace Adverb

open Eval (domain)

variable (hcall : CallerLeaves r call) {f c : Value} {xs : List Value}
include hcall

theorem invoke_leaves (hf : f.Avoids r) {args : List Value} (hargs : AllAvoid r args) :
    Leaves r (Value.Avoids r) ((domain call).invoke f args) :=
  .of_obeys (invoke_obeys hcall.callers (apart_holds.mpr hf) (apart_all.mpr hargs))

theorem applyAt_leaves (hf : f.Avoids r) (hxs : AllAvoid r xs) (axis : Nat) (idx : Value) :
    Leaves r (Value.Avoids r) (applyAt (domain call) f xs axis idx) :=
  .of_obeys (applyAt_obeys hcall.callers (apart_holds.mpr hf) (apart_all.mpr hxs) axis idx)

/-- A combination of two values. -/
theorem combine_leaves {a : Value} (hc : c.Avoids r) (ha : a.Avoids r) {x : Exec Value}
    (hx : Leaves r (Value.Avoids r) x) :
    Leaves r (Value.Avoids r) (do (domain call).invoke c [a, ← x]) :=
  .of_obeys (combine_obeys hcall.callers (apart_holds.mpr hc) (apart_holds.mpr ha)
    ((leaves_iff.mp hx).mono fun _ => apart_holds.mpr))

end Adverb

/-- Evaluating an expression leaves a buffer alone that no name leads to. -/
theorem Eval.expr_leaves (hcall : CallerLeaves r call) {L : Locals} (hL : L.Avoid r) (e : Expr) :
    Leaves r (Value.Avoids r) (expr call L e) :=
  .of_obeys (expr_obeys (fun x v hv => apart_holds.mpr (hL x v hv)) e (fun _ => hcall.callers) (mention_univ _))

/-- A call leaves alone the buffers that its arguments do not refer to, and its result does not refer to
them. -/
theorem Session.call_leaves (s : Session) (r : BufferId) (fuel : Nat) : CallerLeaves r (s.call fuel) := by
  have hcall : (Regime.apart r).Callers (s.call fuel) (s.call fuel) :=
    call_obeys (fun _ _ => rfl) (fun _ _ _ _ => ⟨mention_univ _, fun _ _ => id⟩) (.inl rfl)
  exact fun fn args hargs => .of_obeys (hcall fn trivial args (apart_all.mpr hargs))

end ArrayIR
