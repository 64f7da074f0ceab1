/-
  ArrayIR.Proofs.Shapes.Indexing — three notions of indexing.

  An index is applied to the type of an array, to a view of one, and to a symbolic
  shape. Each goes through the axes with its own components: an integer takes an axis
  away, a slice leaves an axis, and so does the end of the components.

  `Ty.keptAxes` are the axes that stay as the types of the components say. The view
  that is read has one extent for each of them, in that order, and so has the shape
  that is inferred; and they are as many as the rank of the type (`indexing_agrees`).
-/

import ArrayIR.Proofs.Places
import ArrayIR.Shape.Infer
import Mathlib.Data.List.Forall2

namespace ArrayIR

/-! ## Axes that stay -/

variable {ts : List Ty} {e : ScalarTy} {r : Nat}

namespace Ty

/-- The types of the components of an index. -/
def components : Ty → List Ty
  | tuple items => items
  | single => [single]

/-- The axes that stay of an array under components of the types: all but those with an integer. -/
def keptAxes (rank : Nat) (ts : List Ty) : List Nat := (List.range rank).filter fun k => !(ts.getD k slice).isInt

theorem keptAxes_succ (n : Nat) (ts : List Ty) :
    keptAxes (n + 1) ts =
      if (ts.getD 0 slice).isInt then (keptAxes n ts.tail).map Nat.succ else 0 ::
        (keptAxes n ts.tail).map Nat.succ := by
  have hrest : (List.range n).filter ((fun k => !(ts.getD k slice).isInt) ∘ Nat.succ) = keptAxes n ts.tail := by
    cases ts <;> rfl
  rw [keptAxes, List.range_succ_eq_map, List.filter_cons, List.filter_map, hrest]
  by_cases h : (ts.getD 0 slice).isInt <;> simp only [h] <;> rfl

theorem keptAxes_nil (n : Nat) : keptAxes (n + 1) [] = 0 :: (keptAxes n []).map Nat.succ := keptAxes_succ n []

theorem keptAxes_slice (n : Nat) (ts : List Ty) : keptAxes (n + 1) (slice :: ts) = 0 :: (keptAxes n ts).map Nat.succ :=
  keptAxes_succ n (slice :: ts)

theorem keptAxes_int {t : ScalarTy} (h : t.isInt = true) (n : Nat) (ts : List Ty) :
    keptAxes (n + 1) (scalar t :: ts) = (keptAxes n ts).map Nat.succ :=
  (keptAxes_succ n (scalar t :: ts)).trans (if_pos h)

theorem dropped?_eq_some {t : Ty} {d : Nat} (h : t.dropped? = some d) :
    (∃ e, t = scalar e ∧ e.isInt = true ∧ d = 1) ∨ (t = slice ∧ d = 0) := by
  cases t <;> simp only [dropped?] at h
  case scalar e =>
    split at h
    · rename_i he
      cases h
      exact .inl ⟨e, rfl, he, rfl⟩
    · cases h
  case slice =>
    cases h
    exact .inr ⟨rfl, rfl⟩
  all_goals cases h

theorem length_keptAxes {n d : Nat} (h : droppedAll? ts = some d) (hlen : ts.length ≤ n) :
    (keptAxes n ts).length + d = n := by
  induction n generalizing ts d with
  | zero =>
    obtain rfl := List.eq_nil_of_length_eq_zero (Nat.le_zero.mp hlen)
    cases h
    rfl
  | succ n ih =>
    cases ts with
    | nil =>
      cases h
      rw [keptAxes_nil, List.length_cons, List.length_map]
      have hrest : (keptAxes n []).length + 0 = n := ih rfl (Nat.zero_le n)
      omega
    | cons t ts =>
      obtain ⟨d1, h1, h⟩ := Option.bind_eq_some_iff.mp h
      obtain ⟨d2, h2, h⟩ := Option.bind_eq_some_iff.mp h
      cases h
      have hrest := ih h2 (Nat.le_of_succ_le_succ hlen)
      obtain ⟨e, rfl, he, rfl⟩ | ⟨rfl, rfl⟩ := dropped?_eq_some h1
      · rw [keptAxes_int he, List.length_map]
        omega
      · rw [keptAxes_slice, List.length_cons, List.length_map]
        omega

theorem droppedAll?_singleton (t : Ty) : droppedAll? [t] = t.dropped? := by
  cases h : t.dropped? <;> simp [droppedAll?, h]

theorem indexTy_tuple (e : ScalarTy) (r : Nat) (items : List Ty) : (array e r).indexTy (tuple items) =
    if r < items.length then none else (droppedAll? items).bind fun d =>
      if r < d then none else some (ofRank e (r - d)) := by
  unfold indexTy
  by_cases h : r < items.length <;> simp [h]

theorem indexTy_single (e : ScalarTy) (r : Nat) {t : Ty} (h : ∀ items, t ≠ tuple items) :
    t.components = [t] ∧
      (array e r).indexTy t = (droppedAll? [t]).bind fun d => if r < d then none else some (ofRank e (r - d)) := by
  rw [droppedAll?_singleton]
  cases t
  case tuple items => exact (h items rfl).elim
  all_goals exact ⟨rfl, rfl⟩

/-- How many axes an index takes away, and which rank is left. Only an array without axes may have fewer of
them than the index has components. -/
theorem indexTy_array {t T : Ty} (h : (array e r).indexTy t = some T) :
    ∃ d, droppedAll? t.components = some d ∧ (t.components.length ≤ r ∨ r = 0) ∧ T = ofRank e (r - d) := by
  obtain ⟨hlen, h⟩ : (t.components.length ≤ r ∨ r = 0) ∧
      ((droppedAll? t.components).bind fun d => if r < d then none else some (ofRank e (r - d))) = some T := by
    by_cases htuple : ∃ items, t = tuple items
    · obtain ⟨items, rfl⟩ := htuple
      rw [indexTy_tuple] at h
      split at h
      · cases h
      · rename_i hlen
        exact ⟨.inl (Nat.le_of_not_lt hlen), h⟩
    · obtain ⟨hcs, hindex⟩ := indexTy_single e r fun items ht => htuple ⟨items, ht⟩
      rw [hindex] at h
      rw [hcs]
      exact ⟨by rw [List.length_singleton]; omega, h⟩
  obtain ⟨d, hd, hT⟩ := Option.bind_eq_some_iff.mp h
  split at hT
  · cases hT
  · cases hT
    exact ⟨d, hd, hlen, rfl⟩

/-- The type of an indexed array has an axis for each that stays. -/
theorem indexTy_eq_ofRank {t T : Ty} (h : (array e r).indexTy t = some T) :
    T = ofRank e (keptAxes r t.components).length := by
  obtain ⟨d, hd, hlen, rfl⟩ := indexTy_array h
  rcases hlen with hlen | rfl
  · have := length_keptAxes hd hlen
    congr 1
    omega
  · rw [Nat.zero_sub]
    rfl

theorem rank_ofRank (e : ScalarTy) (r : Nat) : (ofRank e r).rank = r := by
  unfold ofRank
  split
  · rename_i h
    exact h.symm
  · rfl

end Ty

/-! ## Views -/

/-- A component of an index as the type says: an integer of either width, or a slice. -/
inductive Value.Selects : Value → Ty → Prop
  | int (i : Int64) {t : ScalarTy} (h : t.isInt = true) : Selects (.int i) (.scalar t)
  | slice (start stop : Option Int64) (step : Int64) : Selects (.slice start stop step) .slice

/-- An index of the type, component by component. -/
def Value.Indexes (idx : Value) (t : Ty) : Prop := List.Forall₂ Selects (View.components idx) t.components

namespace View

/-- An array value of the element type and rank: it has an extent and a stride for each axis. -/
structure OfRank (e : ScalarTy) (r : Nat) (v : View) : Prop where
  elt : v.elt = e
  shape : v.shape.length = r
  strides : v.strides.length = r

/-- What stays of an axis of extent `d` under its component, if it has one. -/
inductive Stays (d : Int) : Option Value → Int → Prop
  | whole : Stays d none d
  | part {axis : Nat} {stride step stride' n : Int} {c : Value}
    (h : resolveAxis axis d stride c = .ok (step, [(n, stride')])) : Stays d (some c) n

/-- The extent is what stays of the axis. -/
def Keeps (ds : List Int) (cs : List Value) (axis : Nat) (n : Int) : Prop :=
  ∃ d, ds[axis]? = some d ∧ Stays d cs[axis]? n

theorem resolveAxes_nil (axis : Nat) (axes : List (Int × Int)) : resolveAxes axis axes [] = .ok (0, axes) := by
  cases axes <;> rfl

theorem resolveAxes_keeps {axis : Nat} {axes kept : List (Int × Int)} {cs : List Value} {step : Int}
    (h : resolveAxes axis axes cs = .ok (step, kept)) (hcs : List.Forall₂ Value.Selects cs ts) :
    List.Forall₂ (Keeps (axes.map (·.1)) cs) (Ty.keptAxes axes.length ts) (kept.map (·.1)) := by
  induction axes generalizing axis cs ts kept step with
  | nil =>
    cases h
    exact .nil
  | cons a axes ih =>
    cases hcs with
    | nil =>
      rw [resolveAxes_nil] at h
      cases h
      rw [List.length_cons, Ty.keptAxes_nil]
      refine .cons ⟨a.1, rfl, .whole⟩ (List.forall₂_map_left_iff.mpr ?_)
      exact ih (resolveAxes_nil (axis + 1) axes) .nil
    | cons hc hcs =>
      obtain ⟨⟨s1, k1⟩, h1, h⟩ := except_bind_ok h
      obtain ⟨⟨s2, k2⟩, h2, h⟩ := except_bind_ok h
      cases h
      have hrest := ih h2 hcs
      rw [List.map_append, List.length_cons]
      cases hc with
      | int i ht =>
        have hnone : k1 = [] := List.eq_nil_of_length_eq_zero (length_resolveAxis h1)
        rw [Ty.keptAxes_int ht, hnone]
        exact List.forall₂_map_left_iff.mpr hrest
      | slice start stop st =>
        obtain ⟨p, rfl⟩ := List.length_eq_one_iff.mp (length_resolveAxis h1)
        rw [Ty.keptAxes_slice]
        exact .cons ⟨a.1, rfl, .part h1⟩ (List.forall₂_map_left_iff.mpr hrest)

/-- What is read has an extent for each axis that stays, and is an array if there is one. -/
theorem read_keeps {v : View} (hv : OfRank e r v) {s : Store} {idx x : Value} (h : v.read s idx = .ok x)
    (hcs : List.Forall₂ Value.Selects (components idx) ts) :
    List.Forall₂ (Keeps v.shape (components idx)) (Ty.keptAxes r ts) x.shape ∧
      if (Ty.keptAxes r ts).length = 0 then ∃ c, x = .scalar c
      else ∃ w, x = .array w ∧ OfRank e (Ty.keptAxes r ts).length w := by
  obtain ⟨region, hregion, hx⟩ := except_bind_ok h
  obtain ⟨step, kept, haxes, rfl⟩ := resolve_ok hregion
  have hlen : v.strides.length = v.shape.length := hv.strides.trans hv.shape.symm
  have hkeeps := resolveAxes_keeps haxes hcs
  rw [List.map_fst_zip (Nat.le_of_eq hlen.symm), List.length_zip, hlen, Nat.min_self, hv.shape] at hkeeps
  have hcount : (Ty.keptAxes r ts).length = kept.length := hkeeps.length_eq.trans (List.length_map _)
  rw [hcount]
  cases kept with
  | nil =>
    cases hx
    exact ⟨hkeeps, if_pos rfl ▸ ⟨_, rfl⟩⟩
  | cons p kept =>
    cases hx
    refine ⟨hkeeps, ?_⟩
    rw [if_neg (by simp)]
    exact ⟨_, rfl, hv.elt, List.length_map _, List.length_map _⟩

end View

/-! ## Symbolic shapes -/

namespace Shape

/-- The shape of a component of an index of the type. -/
inductive Selects : Shape → Ty → Prop
  | int (known : Option Expr) {t : ScalarTy} (h : t.isInt = true) : Selects (.scalar t known) (.scalar t)
  | slice (start stop step : Bound) : Selects (.slice start stop step) .slice

/-- The shape of an index of the type, component by component. -/
def Indexes (idx : Shape) (t : Ty) : Prop := List.Forall₂ Selects (components idx) t.components

/-- What is inferred of an axis of extent `d` under its component, if it has one. -/
inductive Stays (d : Expr) : Option Shape → Expr → Prop
  | whole : Stays d none d
  | part {start stop step : Bound} {n : Expr} {b b' : Builder} (h : sliceExtent d start stop step b = .ok n b') :
    Stays d (some (.slice start stop step)) n

/-- The extent is what is inferred of the axis. -/
def Keeps (dims : List Expr) (cs : List Shape) (axis : Nat) (n : Expr) : Prop :=
  ∃ d, dims[axis]? = some d ∧ Stays d cs[axis]? n

theorem indexExtents_nil (dims : List Expr) : indexExtents dims [] = pure dims := by
  cases dims <;> rfl

theorem indexExtents_keeps {dims extents : List Expr} {cs : List Shape} {b b' : Builder}
    (h : indexExtents dims cs b = .ok extents b') (hcs : List.Forall₂ Selects cs ts) :
    List.Forall₂ (Keeps dims cs) (Ty.keptAxes dims.length ts) extents := by
  induction dims generalizing cs ts extents b with
  | nil =>
    cases h
    exact .nil
  | cons d dims ih =>
    cases hcs with
    | nil =>
      rw [indexExtents_nil] at h
      cases h
      rw [List.length_cons, Ty.keptAxes_nil]
      refine .cons ⟨d, rfl, .whole⟩ (List.forall₂_map_left_iff.mpr ?_)
      exact ih (by rw [indexExtents_nil]; rfl) .nil
    | cons hc hcs =>
      rw [List.length_cons]
      cases hc with
      | int known ht =>
        rw [Ty.keptAxes_int ht]
        exact List.forall₂_map_left_iff.mpr (ih h hcs)
      | slice start stop step =>
        obtain ⟨n, b1, hn, h⟩ := state_bind_ok h
        obtain ⟨rest, b2, hrest, h⟩ := state_bind_ok h
        cases h
        rw [Ty.keptAxes_slice]
        exact .cons ⟨d, rfl, .part hn⟩ (List.forall₂_map_left_iff.mpr (ih hrest hcs))

/-- What is inferred has the element type and an extent for each axis that stays. -/
theorem index_keeps {dims : List Expr} {idx y : Shape} {b b' : Builder} (h : index (.array e dims) idx b = .ok y b')
    (hcs : List.Forall₂ Selects (components idx) ts) :
    ∃ extents, y.arrayParts = .ok (e, extents) ∧
      List.Forall₂ (Keeps dims (components idx)) (Ty.keptAxes dims.length ts) extents := by
  unfold index at h
  dsimp only at h
  split at h
  · cases h
  · obtain ⟨extents, b1, hextents, h⟩ := state_bind_ok h
    refine ⟨extents, ?_, indexExtents_keeps hextents hcs⟩
    cases extents <;> cases h <;> rfl

end Shape

/-! ## The three together -/

/-- For an index of a type that indexing an array type takes: what is read of any array value of that type is a
scalar if the type is one, and otherwise an array of the element type with the rank of the type; what is inferred
has the element type and as many extents. Both have their extents from the same axes, in the same order. -/
theorem indexing_agrees {e : ScalarTy} {r : Nat} {t T : Ty} (h : (Ty.array e r).indexTy t = some T) :
    (∀ v idx s x, View.OfRank e r v → idx.Indexes t → v.read s idx = .ok x →
      (T.scalar?.isSome → ∃ c, x = .scalar c) ∧
      (T.scalar? = none → ∃ w, x = .array w ∧ w.OfRank e T.rank) ∧
      List.Forall₂ (View.Keeps v.shape (View.components idx)) (Ty.keptAxes r t.components) x.shape) ∧
    (∀ dims idx b y b', dims.length = r → idx.Indexes t → Shape.index (.array e dims) idx b = .ok y b' →
      ∃ extents, y.arrayParts = .ok (e, extents) ∧ extents.length = T.rank ∧
        List.Forall₂ (Shape.Keeps dims (Shape.components idx)) (Ty.keptAxes r t.components) extents) := by
  have hT := Ty.indexTy_eq_ofRank h
  have hrank : T.rank = (Ty.keptAxes r t.components).length := by rw [hT, Ty.rank_ofRank]
  refine ⟨fun v idx s x hv hidx hread => ?_, fun dims idx b y b' hdims hidx hindex => ?_⟩
  · obtain ⟨hkeeps, hx⟩ := View.read_keeps hv hread hidx
    rw [← hrank] at hx
    refine ⟨fun hscalar => ?_, fun harray => ?_, hkeeps⟩
    · rwa [if_pos] at hx
      by_contra hne
      rw [hT, ← hrank, Ty.ofRank, if_neg hne] at hscalar
      cases hscalar
    · rwa [if_neg] at hx
      intro hzero
      rw [hT, ← hrank, Ty.ofRank, if_pos hzero] at harray
      cases harray
  · obtain ⟨extents, hparts, hkeeps⟩ := Shape.index_keeps hindex hidx
    rw [hdims] at hkeeps
    exact ⟨extents, hparts, hrank ▸ hkeeps.length_eq.symm, hkeeps⟩

/-- A row of a matrix from its second column on: of the second axis, an array of rank one. -/
theorem indexing_agrees_row :
    (∃ w, View.read { elt := .i64, buffer := 0, shape := [2, 3], strides := [3, 1], offset := 0 } .empty
        (.tuple [.int 1, .slice (some 1) none 1]) = .ok (.array w) ∧ w.OfRank .i64 1) ∧
      ∃ y b' n, Shape.index (.array .i64 [.int64 2, .int64 3])
        (.tuple [.scalar .i64 none, .slice (.known (.int64 1)) .absent .absent]) ⟨{}, .empty, []⟩ = .ok y b' ∧
        y.arrayParts = .ok (.i64, [n]) ∧
        Shape.Keeps [.int64 2, .int64 3] [.scalar .i64 none, .slice (.known (.int64 1)) .absent .absent] 1 n := by
  obtain ⟨hread, hinfer⟩ := @indexing_agrees .i64 2 (.tuple [.i64, .slice]) (.array .i64 1) (by decide)
  constructor
  · obtain ⟨-, hw, -⟩ := hread { elt := .i64, buffer := 0, shape := [2, 3], strides := [3, 1], offset := 0 }
      (.tuple [.int 1, .slice (some 1) none 1]) .empty _ ⟨rfl, rfl, rfl⟩
      (.cons (.int 1 rfl) (.cons (.slice (some 1) none 1) .nil)) rfl
    obtain ⟨w, hw, hrank⟩ := hw rfl
    exact ⟨w, congrArg Except.ok hw, hrank⟩
  · obtain ⟨extents, hparts, -, hkeeps⟩ := hinfer [.int64 2, .int64 3]
      (.tuple [.scalar .i64 none, .slice (.known (.int64 1)) .absent .absent]) ⟨{}, .empty, []⟩ _ _ rfl
      (.cons (.int none rfl) (.cons (.slice (.known (.int64 1)) .absent .absent) .nil)) rfl
    cases hparts
    obtain ⟨hn, -⟩ := List.forall₂_cons.mp hkeeps
    exact ⟨_, _, _, rfl, rfl, hn⟩

end ArrayIR
