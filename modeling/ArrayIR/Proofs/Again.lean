/-
  ArrayIR.Proofs.Again — expressions that change no buffer may be evaluated again.

  Emitted code evaluates an expression wherever it stands: an extent once for the
  count of elements and once more for each stride, an initial value once for every
  position it is stored at. Between two evaluations the store has more buffers, and
  the array that is being filled has other elements. If the first evaluation changes
  no buffer that was there and nothing that is read leads to that array, the second
  one gives a like value and changes no buffer either (`Eval.expr_again`).
-/

import ArrayIR.Proofs.Adverbs.Beside
import ArrayIR.Proofs.Frame
import ArrayIR.Proofs.Scoped

namespace ArrayIR

/-! ## Reading some of the names -/

/-- The bindings of some of the names. -/
def Locals.only (L : Locals) (xs : List VarName) : Locals :=
  ⟨L.entries.filter (·.1 ∈ xs), L.sorted.filter _⟩

theorem findEntry_filter {α : Type} (xs : List VarName) (x : VarName) (es : List (VarName × α)) :
    findEntry x (es.filter (·.1 ∈ xs)) = if x ∈ xs then findEntry x es else none := by
  induction es with
  | nil => simp [findEntry]
  | cons e es ih => by_cases he : e.1 ∈ xs <;> by_cases hx : x = e.1 <;> simp_all [findEntry]

theorem Locals.get?_only (L : Locals) (xs : List VarName) (x : VarName) :
    NameMap.get? (L.only xs) x = if x ∈ xs then L.get? x else none :=
  findEntry_filter xs x L.entries

/-- Evaluation leaves a buffer alone that nothing it reads leads to. -/
theorem Eval.expr_leaves_reads {r : BufferId} {call : Caller} (hcall : CallerLeaves r call) {L : Locals} {e : Expr}
    (h : ∀ x ∈ e.reads, ∀ v, L.get? x = some v → v.Avoids r) : Leaves r (Value.Avoids r) (expr call L e) := by
  have hsame : expr call L e = expr call (L.only e.reads) e :=
    expr_congr e fun x hx => by rw [Locals.get?_only, if_pos hx]
  rw [hsame]
  refine expr_leaves hcall (fun x v hv => ?_) e
  rw [Locals.get?_only] at hv
  split at hv
  · next hx => exact h x hx v hv
  · cases hv

/-! ## Stores that differ in one buffer -/

/-- The second store is the first with more buffers, except for what the buffer `r` holds. -/
structure Store.GrowsBut (r : BufferId) (s t : Store) : Prop where
  size : s.size ≤ t.size
  cells : ∀ {b : BufferId}, b < s.size → b ≠ r → t.cells b = s.cells b

namespace Store.GrowsBut

variable {r : BufferId} {s t : Store}

theorem of_grows (h : s.Grows t) : GrowsBut r s t := ⟨h.size, fun hb _ => h.cells hb⟩

theorem refl (s : Store) : GrowsBut r s s := of_grows (.refl s)

end Store.GrowsBut

/-- Every buffer but `r` stands for itself. -/
def Pairing.allBut (r : BufferId) {n m : Nat} (h : n ≤ m) : Pairing where
  rel b c := b = c ∧ b < n ∧ b ≠ r
  left := n
  right := m
  bounded hb := ⟨hb.2.1, hb.1 ▸ Nat.lt_of_lt_of_le hb.2.1 h⟩

theorem Store.GrowsBut.agree {r : BufferId} {s t : Store} (h : s.GrowsBut r t) :
    Agree .strict (.allBut r h.size) s t where
  left := rfl
  right := rfl
  cells := by
    rintro - b c ⟨rfl, hb, hr⟩
    exact (h.cells hb hr).symm
  oneToOne := by
    rintro - b c b' c' ⟨rfl, -, -⟩ ⟨rfl, -, -⟩
    exact Iff.rfl

/-! ## Evaluating again -/

/-- What the expression reads was there in the store, and does not refer to the buffer. -/
def Expr.ReadsApart (e : Expr) (r : BufferId) (s : Store) (L : Locals) : Prop :=
  ∀ x ∈ e.reads, ∀ v, L.get? x = some v → v.Live s ∧ v.Avoids r

namespace Eval

variable {call : Caller} {L : Locals} {e : Expr} {v : Value} {r : BufferId} {s s1 t : Store}

/-- An expression that has changed no buffer gives a like value when it is evaluated again, and changes no
buffer then. -/
theorem expr_again (hcall : call.Local) (hreads : e.ReadsApart r s L)
    (h : expr call L e s = .ok v s1) (hquiet : s.Grows s1) (ht : s.GrowsBut r t) :
    ∃ v' t' w, expr call L e t = .ok v' t' ∧ t.Grows t' ∧ (r < t.size → v'.Avoids r) ∧ Agree .strict w s1 t' ∧
      Likes .strict w v v' := by
  -- the two evaluations are in step over the buffers that the stores share
  have halike : ReadsAlike .strict (.allBut r ht.size) .none L L e := by
    intro x hx
    rw [Renaming.none_value?]
    cases hv : L.get? x with
    | none => trivial
    | some u =>
      obtain ⟨hlive, havoids⟩ := hreads x hx u hv
      exact Value.alike_self (fun _ => trivial) fun b hb => ⟨rfl, hlive b hb, fun hbr => havoids (hbr ▸ hb)⟩
  have hstep := expr_inStep (fun _ => hcall.alike) e (Likeness.strict_admits e) Renaming.none_atomic halike
  rw [Renaming.subst_none] at hstep
  have hout := hstep s t ht.agree
  rw [h] at hout
  obtain ⟨v', t', hv', w, hle, hagree, hlikes⟩ := hout.ok_left
  have hleaves : ∀ c, (∀ x ∈ e.reads, ∀ u, L.get? x = some u → u.Avoids c) → c < t.size →
      t'.cells c = t.cells c ∧ v'.Avoids c := fun c hc hlt => (expr_leaves_reads (hcall.leaves c) hc hlt hv').2
  have havoids := hleaves r (fun x hx u hu => (hreads x hx u hu).2)
  refine ⟨v', t', w, hv', ⟨?_, fun {b} hb => ?_⟩, fun hr => (havoids hr).2, hagree, hlikes⟩
  · rw [hagree.right]
    exact hle.right
  · rcases Nat.lt_or_ge b s.size with hlt | hge
    · by_cases hbr : b = r
      · exact hbr ▸ (havoids (hbr ▸ hb)).1
      · rw [← hagree.cells trivial (hle.rel ⟨rfl, hlt, hbr⟩), hquiet.cells hlt, ht.cells hlt hbr]
    · -- a buffer that was not there at first is not what a name leads to
      exact (hleaves b (fun x hx u hu hm => Nat.not_lt.mpr hge ((hreads x hx u hu).1 b hm)) hb).1

/-- Assigning a value to a name. -/
theorem assign_run {fuel : Nat} (h : expr call L e s = .ok v s1) (x : VarName) (ty : Ty) :
    block call fuel [.assign (.var x ty) e] L s = .ok (.next (L.insert x v)) s1 := by
  rw [block_singleton, stmt, state_bind_of_ok h]
  rfl

theorem block_assign {fuel : Nat} (h : expr call L e s = .ok v s1) (x : VarName) (ty : Ty) (ss : Block) :
    block call fuel (.assign (.var x ty) e :: ss) L s = block call fuel ss (L.insert x v) s1 :=
  block_append_next (assign_run h x ty)

end Eval

end ArrayIR
