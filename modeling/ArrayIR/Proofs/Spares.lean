/-
  ArrayIR.Proofs.Spares — computations that leave the buffers there before alone.

  A computation spares the first `n` buffers when it changes none of them (`Spares`);
  the others may change, but no buffer ever changes its length.
  Evaluating an expression spares all buffers there are, if the calls it makes do
  (`Eval.expr_spares`): the only stores it makes itself are those of an adverb into
  the array the adverb has allocated. So does a block without stores, and so do the
  functions of a session that store nothing. It is a regime that all values are in
  (`Regime.sparing`), and only new buffers may be stored into.
-/

import ArrayIR.Proofs.Quiet
import ArrayIR.Proofs.Regime

namespace ArrayIR

/-- The first `n` buffers are as they were, no buffer is gone and none has another length. -/
structure Store.Keeps (n : Nat) (s s' : Store) : Prop where
  size : s.size ≤ s'.size
  cells : ∀ {b : BufferId}, b < n → s'.cells b = s.cells b
  lengths : ∀ {b : BufferId}, b < s.size → (s'.cells b).size = (s.cells b).size

namespace Store.Keeps

variable {n : Nat} {s s' s'' : Store}

theorem refl (s : Store) : Keeps n s s := ⟨Nat.le_refl _, fun _ => rfl, fun _ => rfl⟩

theorem trans (h : Keeps n s s') (h' : Keeps n s' s'') : Keeps n s s'' where
  size := Nat.le_trans h.size h'.size
  cells hb := (h'.cells hb).trans (h.cells hb)
  lengths hb := (h'.lengths (Nat.lt_of_lt_of_le hb h.size)).trans (h.lengths hb)

theorem alloc (hn : n ≤ s.size) (cells : Array Scalar) : Keeps n s (s.alloc cells).2 where
  size := (Grows.alloc s cells).size
  cells hb := (Grows.alloc s cells).cells (Nat.lt_of_lt_of_le hb hn)
  lengths hb := by rw [(Grows.alloc s cells).cells hb]

theorem modify (s : Store) {b : BufferId} (hb : n ≤ b) {f : Array Scalar → Array Scalar}
    (hf : ∀ cells, (f cells).size = cells.size) :
    Keeps n s (s.modify b f) where
  size := by simp
  cells hc := Store.cells_modify_ne s _ (Nat.ne_of_lt (Nat.lt_of_lt_of_le hc hb))
  lengths {c} hc := by
    by_cases h : c = b
    · rw [h, Store.cells_modify_self s _ (h ▸ hc), hf]
    · rw [Store.cells_modify_ne s _ h]

theorem grows (h : Keeps s.size s s') : s.Grows s' := ⟨h.size, h.cells⟩

end Store.Keeps

/-- A success leaves the first `n` buffers as they were, and gives a result as `P` says. -/
def Spares {α : Type} (n : Nat) (P : α → Prop) (x : Exec α) : Prop :=
  ∀ ⦃st : Store⦄ ⦃a : α⦄ ⦃st' : Store⦄, n ≤ st.size → x st = .ok a st' → st.Keeps n st' ∧ P a

/-- The regime under which the first `n` buffers are not stored into. -/
def Regime.sparing (n : Nat) : Regime where
  names := Set.univ
  refers _ := True
  owns b := n ≤ b
  fit s := n ≤ s.size
  turns := Store.Keeps n
  excuses _ := False
  refers_of_owns _ := trivial
  refl := .refl
  trans := .trans
  fit_of_turns hs h := Nat.le_trans hs h.size
  alloc cells hs := ⟨.alloc hs cells, hs⟩
  modify _ hb hf := .modify _ hb hf

section

variable {α β : Type} {n : Nat} {P : α → Prop} {x : Exec α}

theorem spares_iff : Spares n P x ↔ (Regime.sparing n).Obeys P x := by
  refine ⟨fun h => .same fun s a t hs hx => h hs hx, fun h s a t hs hx => ?_⟩
  rcases h s hs with ⟨-, hok⟩ | ⟨_, _, _, hfalse⟩
  · exact hok a t hx
  · exact hfalse.elim

theorem Regime.sparing_holds (v : Value) : (sparing n).Holds v := ⟨fun _ _ => trivial, fun _ _ => trivial⟩

theorem Regime.sparing_admits (L : Locals) : (sparing n).Admits L := fun _ v _ => sparing_holds v

theorem Regime.sparing_leads (fl : Eval.Flow) : (sparing n).Leads fl := by
  cases fl with
  | next L => exact sparing_admits L
  | returned v => exact sparing_holds v

theorem Regime.sparing_callers {call : Caller} (h : ∀ fn args, Spares n (fun _ => True) (call fn args)) :
    (sparing n).Callers call call := fun fn _ args _ => (spares_iff.mp (h fn args)).mono fun v _ => sparing_holds v

namespace Spares

theorem of_obeys (h : (Regime.sparing n).Obeys P x) : Spares n (fun _ => True) x :=
    spares_iff.mpr (h.mono fun _ _ => trivial)

theorem pure {a : α} (h : P a) : Spares n P (pure a) := spares_iff.mpr (.pure h)

/-- Whatever comes of a computation, what follows it spares the buffers. -/
theorem andThen {Q : β → Prop} {f : α → Exec β} (h : Spares n (fun _ => True) x) (next : ∀ a, Spares n Q (f a)) :
    Spares n Q (x >>= f) := spares_iff.mpr ((spares_iff.mp h).bind fun a _ => spares_iff.mp (next a))

end Spares

end

namespace Eval

open Regime (sparing_holds sparing_admits sparing_leads sparing_callers)

variable {n : Nat} {call : Caller} {fuel : Nat}

/-- Evaluating an expression spares the buffers that the functions it calls spare. -/
theorem expr_spares (L : Locals) (e : Expr) (hcall : calls e = true →
    ∀ fn args, Spares n (fun _ => True) (call fn args)) :
    Spares n (fun _ => True) (expr call L e) :=
  .of_obeys (expr_obeys (sparing_admits L) e (fun h => sparing_callers (hcall h)) (mention_univ _))

/-- An expression that calls no function is quiet. -/
theorem quiet_of_not_calls {e : Expr} (h : calls e = false) : Quiet call e := by
  intro L st v st' hx
  exact (expr_spares L e (fun h' => by rw [h] at h'; cases h') (Nat.le_refl _) hx).1.grows

theorem repeatCounted_spares {body : Locals → Exec Flow} {again : Locals → Exec Locals} {x : VarName} {step : Int}
    (hb : ∀ L, Spares n (fun _ => True) (body L)) (ha : ∀ L, Spares n (fun _ => True) (again L)) (k : Nat)
    (i : Int) (L : Locals) :
    Spares n (fun _ => True) (repeatCounted x step body again k i L) :=
  .of_obeys (repeatCounted_obeys (fun L _ => (spares_iff.mp (hb L)).mono fun fl _ => sparing_leads fl)
    (fun L _ => (spares_iff.mp (ha L)).mono fun L _ => sparing_admits L) k i (sparing_admits L))

variable (hcall : ∀ fn args, Spares n (fun _ => True) (call fn args))
include hcall

theorem bindMerge_spares (m : Merge) (side : Expr × Expr → Expr) (L : Locals) :
    Spares n (fun _ => True) (bindMerge call m side L) :=
  .of_obeys (bindMerge_obeys (sparing_callers hcall) (fun _ _ => mention_univ _) (sparing_admits L))

theorem header_spares (L : Locals) (c : Counter) : Spares n (fun _ => True) (header call L c) :=
  .of_obeys (header_obeys (sparing_callers hcall) (sparing_admits L) fun _ _ => mention_univ _)

/-- A block without stores spares the buffers that the functions it calls spare; and no block makes a buffer go
away. -/
theorem block_spares {ss : List Stmt} (h : Stmt.blockStores ss = true → n = 0) (L : Locals) :
    Spares n (fun _ => True) (block call fuel ss L) :=
  .of_obeys (block_obeys (sparing_callers hcall) (.inl rfl) (mention_univ _)
    (fun hs b _ => h hs ▸ Nat.zero_le b) (sparing_admits L))

end Eval

/-- A call spares the buffers that are there, if the functions of the session store nothing; and whatever
they do, no buffer goes away. -/
theorem Session.call_spares {n : Nat} (s : Session)
    (h : ∀ {fn : FnName} {f : Func}, s.find? fn = some f → Stmt.blockStores f.body = true → n = 0) (fuel : Nat)
    (fn : FnName) (args : List Value) : Spares n (fun _ => True) (s.call fuel fn args) := by
  have hcall : (Regime.sparing n).Callers (s.call fuel) (s.call fuel) :=
    call_obeys (fun _ _ => rfl) (fun _ _ f hf => ⟨mention_univ _, fun hs b _ => h hf hs ▸ Nat.zero_le b⟩) (.inl rfl)
  exact .of_obeys (hcall fn trivial args fun v _ => Regime.sparing_holds v)

end ArrayIR
