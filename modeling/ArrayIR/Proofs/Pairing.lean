/-
  ArrayIR.Proofs.Pairing — values of two runs that stand for each other.

  Two runs of related programs allocate their buffers in different orders and in
  different numbers, so their values cannot be equal. A pairing says which buffer of
  one store stands for which buffer of the other; two values are alike when they are
  built the same way over paired buffers, and two stores agree when paired buffers
  hold the same cells.

  A pairing only grows, and what it adds are buffers that are new on both sides
  (`Pairing.Le.old`). So a pair whose buffers are paired with nothing else stays so
  (`Pairing.Exclusive.mono`), which is what a store into both of them needs
  (`Agree.modify`).
-/

import ArrayIR.Eval
import Mathlib.Data.List.Forall2
import Mathlib.Order.Basic

namespace ArrayIR

/-- Which buffers of two stores stand for each other, and how many buffers there are on either side. -/
structure Pairing where
  rel : Nat → Nat → Prop
  left : Nat
  right : Nat
  bounded : ∀ {b c : Nat}, rel b c → b < left ∧ c < right

namespace Pairing

/-- No buffer stands for two others. -/
def OneToOne (w : Pairing) : Prop :=
  ∀ b c b' c', w.rel b c → w.rel b' c' → (b' = b ↔ c' = c)

/-- The two buffers are paired with nothing but each other. -/
def Exclusive (w : Pairing) (b c : Nat) : Prop :=
  ∀ b' c', w.rel b' c' → (b' = b ↔ c' = c)

/-- The second pairing is the first one later on: it has paired new buffers only. -/
structure Le (w w' : Pairing) : Prop where
  rel : ∀ {b c : Nat}, w.rel b c → w'.rel b c
  left : w.left ≤ w'.left
  right : w.right ≤ w'.right
  old : ∀ {b c : Nat}, w'.rel b c → b < w.left ∨ c < w.right → w.rel b c
  oneToOne : w.OneToOne → w'.OneToOne

instance : LE Pairing := ⟨Le⟩

instance : Preorder Pairing where
  le_refl _ := ⟨id, Nat.le_refl _, Nat.le_refl _, fun h _ => h, id⟩
  le_trans _ _ _ h h' :=
    { rel := fun r => h'.rel (h.rel r)
      left := Nat.le_trans h.left h'.left
      right := Nat.le_trans h.right h'.right
      old := fun r o => h.old (h'.old r (o.imp (Nat.lt_of_lt_of_le · h.left) (Nat.lt_of_lt_of_le · h.right))) o
      oneToOne := fun o => h'.oneToOne (h.oneToOne o) }

theorem Exclusive.mono {w w' : Pairing} {b c : Nat} (h : w.Exclusive b c) (hle : w ≤ w')
    (hb : b < w.left) (hc : c < w.right) : w'.Exclusive b c := by
  intro b' c' r
  constructor
  · intro e
    subst e
    exact (h _ _ (hle.old r (.inl hb))).mp rfl
  · intro e
    subst e
    exact (h _ _ (hle.old r (.inr hc))).mpr rfl

/-- The pairing after an allocation on both sides: the two new buffers are paired. -/
def push (w : Pairing) : Pairing where
  rel b c := w.rel b c ∨ (b = w.left ∧ c = w.right)
  left := w.left + 1
  right := w.right + 1
  bounded := by
    rintro b c (h | ⟨rfl, rfl⟩)
    · exact ⟨Nat.lt_succ_of_lt (w.bounded h).1, Nat.lt_succ_of_lt (w.bounded h).2⟩
    · exact ⟨Nat.lt_succ_self _, Nat.lt_succ_self _⟩

theorem push_exclusive (w : Pairing) : w.push.Exclusive w.left w.right := by
  rintro b c (h | ⟨rfl, rfl⟩)
  · have := w.bounded h
    omega
  · simp

theorem le_push (w : Pairing) : w ≤ w.push where
  rel := .inl
  left := Nat.le_succ _
  right := Nat.le_succ _
  old := by
    rintro b c (h | ⟨rfl, rfl⟩) o
    · exact h
    · omega
  oneToOne := by
    intro h b c b' c' r r'
    rcases r with r | ⟨rfl, rfl⟩
    · rcases r' with r' | ⟨rfl, rfl⟩
      · exact h _ _ _ _ r r'
      · have := w.bounded r
        omega
    · exact push_exclusive w _ _ r'

/-- The pairing after allocations that have no counterpart on the other side. -/
def grow (w : Pairing) (left right : Nat) (hl : w.left ≤ left) (hr : w.right ≤ right) : Pairing where
  rel := w.rel
  left := left
  right := right
  bounded h := ⟨Nat.lt_of_lt_of_le (w.bounded h).1 hl, Nat.lt_of_lt_of_le (w.bounded h).2 hr⟩

theorem le_grow (w : Pairing) {left right : Nat} (hl : w.left ≤ left) (hr : w.right ≤ right) :
    w ≤ w.grow left right hl hr :=
  ⟨id, hl, hr, fun h _ => h, id⟩

/-- Every one of `n` buffers stands for itself. -/
def identity (n : Nat) : Pairing where
  rel b c := b = c ∧ b < n
  left := n
  right := n
  bounded h := ⟨h.2, h.1 ▸ h.2⟩

theorem identity_oneToOne (n : Nat) : (identity n).OneToOne := by
  rintro b c b' c' ⟨rfl, -⟩ ⟨rfl, -⟩
  exact Iff.rfl

end Pairing

/-! ## Values -/

/-- The terms on which two runs are compared. -/
structure Likeness where
  /-- The functions that may run. -/
  fns : FnName → Prop
  /-- Whether the runs may store into buffers they share, so that these are paired one to one. -/
  stores : Prop
  /-- Whether arrays without elements may differ in strides, offset and buffer. -/
  loose : Prop
  /-- Whether paired buffers hold the same cells, so that the runs may read them. -/
  contents : Prop

/-- All functions may run, all reads and stores may happen, and layouts are the same. -/
def Likeness.strict : Likeness := ⟨fun _ => True, True, False, True⟩

/-- A view of no elements, with a stride for every axis. -/
def View.Vacant (v : View) : Prop := 0 ∈ v.shape ∧ v.strides.length = v.shape.length

/-- Two views with the same elements, as far as the buffers behind them agree. -/
structure View.Alike (k : Likeness) (R : BufferId → BufferId → Prop) (v u : View) : Prop where
  elt : v.elt = u.elt
  shape : v.shape = u.shape
  layout : (v.strides = u.strides ∧ v.offset = u.offset ∧ R v.buffer u.buffer) ∨
    (k.loose ∧ v.Vacant ∧ u.Vacant)

mutual

/-- Two values built the same way over paired buffers. -/
def Value.Alike (k : Likeness) (R : BufferId → BufferId → Prop) : Value → Value → Prop
  | .scalar x, v => v = .scalar x
  | .nothing, v => v = .nothing
  | .slice start stop step, v => v = .slice start stop step
  | .tuple xs, v => ∃ ys, v = .tuple ys ∧ Value.AlikeList k R xs ys
  | .buffer elt b, v => ∃ c, v = .buffer elt c ∧ R b c
  | .array u, v => ∃ u', v = .array u' ∧ u.Alike k R u'
  | .closure f xs, v => ∃ ys, v = .closure f ys ∧ k.fns f ∧ Value.AlikeList k R xs ys

def Value.AlikeList (k : Likeness) (R : BufferId → BufferId → Prop) : List Value → List Value → Prop
  | [], vs => vs = []
  | x :: xs, vs => ∃ y ys, vs = y :: ys ∧ x.Alike k R y ∧ Value.AlikeList k R xs ys

end

variable {R R' : BufferId → BufferId → Prop} {v u : Value} {b c : BufferId}

theorem Value.alikeList_iff {k : Likeness} {xs ys : List Value} :
    Value.AlikeList k R xs ys ↔ List.Forall₂ (Value.Alike k R) xs ys := by
  induction xs generalizing ys with
  | nil => simp [Value.AlikeList]
  | cons x xs ih =>
    constructor
    · rintro ⟨y, ys, rfl, h, hs⟩
      exact .cons h (ih.mp hs)
    · intro h
      cases h with
      | cons h hs => exact ⟨_, _, rfl, h, ih.mpr hs⟩

theorem View.Alike.mono {k : Likeness} (hR : ∀ {b c}, R b c → R' b c) {v u : View}
    (h : v.Alike k R u) : v.Alike k R' u :=
  ⟨h.elt, h.shape, h.layout.imp_left fun ⟨hs, ho, hb⟩ => ⟨hs, ho, hR hb⟩⟩

mutual

theorem Value.Alike.mono {k : Likeness} (hR : ∀ {b c}, R b c → R' b c) :
    ∀ {v u : Value}, v.Alike k R u → v.Alike k R' u
  | .scalar _, _, h => h
  | .nothing, _, h => h
  | .slice _ _ _, _, h => h
  | .tuple _, _, ⟨ys, e, h⟩ => ⟨ys, e, Value.AlikeList.mono hR h⟩
  | .buffer _ _, _, ⟨c, e, h⟩ => ⟨c, e, hR h⟩
  | .array _, _, ⟨u, e, h⟩ => ⟨u, e, h.mono hR⟩
  | .closure _ _, _, ⟨ys, e, hf, h⟩ => ⟨ys, e, hf, Value.AlikeList.mono hR h⟩

theorem Value.AlikeList.mono {k : Likeness} (hR : ∀ {b c}, R b c → R' b c) :
    ∀ {vs us : List Value}, Value.AlikeList k R vs us → Value.AlikeList k R' vs us
  | [], _, h => h
  | _ :: _, _, ⟨y, ys, e, h, hs⟩ => ⟨y, ys, e, h.mono hR, Value.AlikeList.mono hR hs⟩

end

/-- The ways in which two values are alike. -/
inductive Value.Likewise (k : Likeness) (R : BufferId → BufferId → Prop) : Value → Value → Prop
  | scalar (x : Scalar) : Likewise k R (.scalar x) (.scalar x)
  | nothing : Likewise k R .nothing .nothing
  | slice (start stop : Option Int64) (step : Int64) : Likewise k R (.slice start stop step) (.slice start stop step)
  | tuple {xs ys : List Value} (h : List.Forall₂ (Value.Alike k R) xs ys) : Likewise k R (.tuple xs) (.tuple ys)
  | buffer (elt : ScalarTy) {b c : BufferId} (h : R b c) : Likewise k R (.buffer elt b) (.buffer elt c)
  | array {v u : View} (h : v.Alike k R u) : Likewise k R (.array v) (.array u)
  | closure {f : FnName} {xs ys : List Value} (hf : k.fns f) (h : List.Forall₂ (Value.Alike k R) xs ys) :
      Likewise k R (.closure f xs) (.closure f ys)

theorem Value.Alike.likewise {k : Likeness} (h : v.Alike k R u) : v.Likewise k R u := by
  cases v <;> simp only [Value.Alike] at h
  case array => obtain ⟨_, rfl, h⟩ := h; exact .array h
  case tuple => obtain ⟨_, rfl, h⟩ := h; exact .tuple (Value.alikeList_iff.mp h)
  case buffer => obtain ⟨_, rfl, h⟩ := h; exact .buffer _ h
  case closure => obtain ⟨_, rfl, hf, h⟩ := h; exact .closure hf (Value.alikeList_iff.mp h)
  all_goals subst h; constructor

/-- Absent on both sides, or alike. -/
def OptionAlike (k : Likeness) (R : BufferId → BufferId → Prop) : Option Value → Option Value → Prop
  | some v, some u => v.Alike k R u
  | none, none => True
  | _, _ => False

theorem OptionAlike.mono {k : Likeness} (hR : ∀ {b c}, R b c → R' b c) {o p : Option Value}
    (h : OptionAlike k R o p) : OptionAlike k R' o p := by
  cases o <;> cases p
  · trivial
  · exact h
  · exact h
  · exact Value.Alike.mono hR h

theorem Value.Alike.rank {k : Likeness} (h : v.Alike k R u) : v.rank = u.rank := by
  cases h.likewise with
  | array hv => simp [Value.rank, Value.shape, hv.shape]
  | _ => rfl

theorem Value.Alike.shape {k : Likeness} (h : v.Alike k R u) : v.shape = u.shape := by
  cases h.likewise with
  | array hv => exact hv.shape
  | _ => rfl

theorem Value.Alike.isNothing {k : Likeness} (h : v.Alike k R u) : v.isNothing = u.isNothing := by
  cases h.likewise <;> rfl

/-! ## Stores -/

namespace Store

/-- The number of buffers. -/
abbrev size (s : Store) : Nat := s.buffers.size

theorem size_alloc (s : Store) (cs : Array Scalar) : (s.alloc cs).2.size = s.size + 1 := by
  simp [alloc, size]

theorem cells_alloc_new (s : Store) (cs : Array Scalar) : (s.alloc cs).2.cells s.size = cs := by
  simp [alloc, cells, size]

theorem cells_alloc_old (s : Store) (cs : Array Scalar) (h : b < s.size) : (s.alloc cs).2.cells b = s.cells b := by
  simp [alloc, cells, Array.getElem?_push, Nat.ne_of_lt h]

@[simp] theorem size_modify (s : Store) (b : BufferId) (f : Array Scalar → Array Scalar) :
    (s.modify b f).size = s.size := by
  simp [modify, size]

theorem cells_modify_self (s : Store) (f : Array Scalar → Array Scalar) (h : b < s.size) :
    (s.modify b f).cells b = f (s.cells b) := by
  simp [modify, cells, Array.getElem?_modify, Array.getElem?_eq_getElem h]

theorem cells_modify_ne (s : Store) (f : Array Scalar → Array Scalar) (h : c ≠ b) :
    (s.modify b f).cells c = s.cells c := by
  simp [modify, cells, Array.getElem?_modify, Ne.symm h]

end Store

/-- Two stores whose paired buffers hold the same cells. -/
structure Agree (k : Likeness) (w : Pairing) (s s' : Store) : Prop where
  left : s.size = w.left
  right : s'.size = w.right
  cells : k.contents → ∀ {b c : BufferId}, w.rel b c → s.cells b = s'.cells c
  oneToOne : k.stores → w.OneToOne

namespace Agree

variable {k : Likeness} {w : Pairing} {s s' : Store}

/-- Allocating the same cells on both sides. -/
theorem push (h : Agree k w s s') (cs : Array Scalar) : Agree k w.push (s.alloc cs).2 (s'.alloc cs).2 where
  left := by rw [Store.size_alloc, h.left]; rfl
  right := by rw [Store.size_alloc, h.right]; rfl
  cells := by
    rintro hk b c (r | ⟨rfl, rfl⟩)
    · have hb := w.bounded r
      rw [Store.cells_alloc_old s cs (h.left ▸ hb.1), Store.cells_alloc_old s' cs (h.right ▸ hb.2)]
      exact h.cells hk r
    · rw [← h.left, ← h.right, Store.cells_alloc_new, Store.cells_alloc_new]
  oneToOne hs := (Pairing.le_push w).oneToOne (h.oneToOne hs)

/-- The same change of two buffers that are paired with nothing else. -/
theorem modify (h : Agree k w s s') (hr : w.rel b c) (he : w.Exclusive b c)
    (f : Array Scalar → Array Scalar) : Agree k w (s.modify b f) (s'.modify c f) where
  left := by rw [Store.size_modify, h.left]
  right := by rw [Store.size_modify, h.right]
  cells := by
    intro hk b' c' r
    have hb := w.bounded hr
    by_cases e : b' = b
    · have e' := (he _ _ r).mp e
      subst e e'
      rw [Store.cells_modify_self s f (h.left ▸ hb.1), Store.cells_modify_self s' f (h.right ▸ hb.2), h.cells hk r]
    · have e' : c' ≠ c := fun x => e ((he _ _ r).mpr x)
      rw [Store.cells_modify_ne s f e, Store.cells_modify_ne s' f e', h.cells hk r]
  oneToOne := h.oneToOne

/-- In runs that store, paired buffers are paired with nothing else. -/
theorem exclusive (h : Agree k w s s') (hs : k.stores) (hr : w.rel b c) :
    w.Exclusive b c := fun _ _ r => h.oneToOne hs _ _ _ _ hr r

theorem identity (k : Likeness) (s : Store) : Agree k (.identity s.size) s s where
  left := rfl
  right := rfl
  cells := by
    rintro _ b c ⟨rfl, -⟩
    rfl
  oneToOne _ := Pairing.identity_oneToOne _

end Agree

/-! ## Stores that only grow -/

/-- The second store is the first with more buffers. -/
structure Store.Grows (s s' : Store) : Prop where
  size : s.size ≤ s'.size
  cells : ∀ {b : BufferId}, b < s.size → s'.cells b = s.cells b

namespace Store.Grows

theorem refl (s : Store) : Grows s s := ⟨Nat.le_refl _, fun _ => rfl⟩

theorem trans {s s' s'' : Store} (h : Grows s s') (h' : Grows s' s'') : Grows s s'' where
  size := Nat.le_trans h.size h'.size
  cells hb := (h'.cells (Nat.lt_of_lt_of_le hb h.size)).trans (h.cells hb)

theorem alloc (s : Store) (cs : Array Scalar) : Grows s (s.alloc cs).2 where
  size := by rw [Store.size_alloc]; exact Nat.le_succ _
  cells hb := Store.cells_alloc_old s cs hb

end Store.Grows

/-- Growth on either side leaves the agreement of the buffers paired so far. -/
theorem Agree.grow {k : Likeness} {w : Pairing} {s s' t t' : Store} (h : Agree k w s s') (hl : s.Grows t)
    (hr : s'.Grows t') :
    Agree k (w.grow t.size t'.size (h.left ▸ hl.size) (h.right ▸ hr.size)) t t' where
  left := rfl
  right := rfl
  cells := by
    intro hk b c r
    have hb := w.bounded r
    rw [hl.cells (h.left ▸ hb.1), hr.cells (h.right ▸ hb.2)]
    exact h.cells hk r
  oneToOne := h.oneToOne

theorem Agree.later {k : Likeness} {w : Pairing} {s s' t t' : Store} (h : Agree k w s s') (hl : s.Grows t)
    (hr : s'.Grows t') : ∃ w', w ≤ w' ∧ Agree k w' t t' :=
  ⟨_, Pairing.le_grow w _ _, h.grow hl hr⟩

end ArrayIR
