/-
  ArrayIR.Proofs.Building.Adverbs — adverbs do what the operations of their domain do.

  If the operations of a domain do what they may (`Laying.Lawful`), then the domain
  goes like itself, and so the adverbs over it do what they may. For expressions the
  operations are the builder's (`Laying.expressions`); for shapes they are those of
  shape inference.
-/

import ArrayIR.Proofs.Building.Laying
import ArrayIR.Proofs.Parallel

namespace ArrayIR

namespace Laying

variable {L : Laying} {V : Type}

/-- The operations of a domain do what they may, on values as `Val` says and callables as `Fn` says. -/
structure Lawful (L : Laying) (d : Domain Build V) (Val Fn : L.World → V → Prop) : Prop where
  mono : ∀ {w w' v}, L.Below w w' → Val w v → Val w' v
  fn_mono : ∀ {w w' v}, L.Below w w' → Fn w v → Fn w' v
  int : ∀ {w} i, Val w (d.int i)
  wholeAxis : ∀ {w}, Val w d.wholeAxis
  tuple : ∀ {w vs}, (∀ v ∈ vs, Val w v) → Val w (d.tuple vs)
  index : ∀ {w x i}, Val w x → Val w i → L.Lays w Val (d.index x i)
  extent : ∀ {w x} axis, Val w x → L.Lays w Val (d.extent x axis)
  checkExtents : ∀ {w} axis {vs}, (∀ v ∈ vs, Val w v) → L.Lays w (fun _ _ => True) (d.checkExtents axis vs)
  invoke : ∀ {w f vs}, Fn w f → (∀ v ∈ vs, Val w v) → L.Lays w Val (d.invoke f vs)
  loop : ∀ {w start stop body}, Val w start → Val w stop →
    (∀ w' i, L.Below w w' → Val w' i → L.Lays w' (fun _ _ => True) (body i)) →
    L.Lays w (fun _ _ => True) (d.loop start stop body)
  accumulate : ∀ {w start stop init body}, Val w start → Val w stop → Val w init →
    (∀ w' acc i, L.Below w w' → Val w' acc → Val w' i → L.Lays w' Val (body acc i)) →
    L.Lays w Val (d.accumulate start stop init body)
  alloc : ∀ {w first outer}, Val w first → (∀ v ∈ outer, Val w v) → outer ≠ [] → L.Lays w Val (d.alloc first outer)
  store : ∀ {w result i x}, Val w result → Val w i → Val w x → L.Lays w (fun _ _ => True) (d.store result i x)

namespace Lawful

variable {d : Domain Build V} {Val Fn : L.World → V → Prop} {w : L.World} {f c e x y i : V} {o : Option V} {xs : List V}

/-- The domain beside itself. -/
def parallel (h : L.Lawful d Val Fn) : Parallel d d where
  World := L.World
  Below := L.Below
  Alike w P x _ := L.Lays w (fun w' a => ∃ b, P w' a b) x
  Val w x y := Val w x ∧ x = y
  Fn w f g := Fn w f ∧ f = g
  Room w r s := Val w r ∧ r = s
  trans := L.below_trans
  mono hw hx := hx.imp_left (h.mono hw)
  fn_mono hw hf := hf.imp_left (h.fn_mono hw)
  room_mono hw hr := hr.imp_left (h.mono hw)
  filled := id
  pure hP := L.pure_lays fun w' hw => ⟨_, hP w' hw⟩
  fail := .fail
  bind hx hf := L.bind_lays hx fun w' a hw ⟨b, hab⟩ => hf w' a b hw hab
  rank hx := congrArg d.rank hx.2
  isNothing hx := congrArg d.isNothing hx.2
  int i := ⟨h.int i, rfl⟩
  wholeAxis := ⟨h.wholeAxis, rfl⟩
  tuple hxs := by
    obtain ⟨hxs, heq⟩ := (List.forall₂_and_left _ _).mp hxs
    exact ⟨h.tuple hxs, congrArg d.tuple (List.forall₂_eq_eq_eq ▸ heq)⟩
  index hx hi := (h.index hx.1 hi.1).mono fun _ v _ hv => ⟨v, hv, rfl⟩
  extent axis hx := (h.extent axis hx.1).mono fun _ v _ hv => ⟨v, hv, rfl⟩
  checkExtents axis hxs := (h.checkExtents axis ((List.forall₂_and_left _ _).mp hxs).1).mono fun _ u _ _ => ⟨u, trivial⟩
  invoke hf hxs := (h.invoke hf.1 ((List.forall₂_and_left _ _).mp hxs).1).mono fun _ v _ hv => ⟨v, hv, rfl⟩
  loop hlo hhi hbody := (h.loop hlo.1 hhi.1 fun w' i hw hi =>
    Lays.mono (hbody w' i i hw ⟨hi, rfl⟩) fun _ _ _ _ => trivial).mono fun _ u _ _ => ⟨u, trivial⟩
  accumulate hlo hhi ha hbody := (h.accumulate hlo.1 hhi.1 ha.1 fun w' a i hw ha hi =>
    Lays.mono (hbody w' a a i i hw ⟨ha, rfl⟩ ⟨hi, rfl⟩) fun _ _ _ ⟨_, hv⟩ => hv.1).mono fun _ v _ hv => ⟨v, hv, rfl⟩
  alloc hx hns := (h.alloc hx.1 ((List.forall₂_and_left _ _).mp hns).1 (List.cons_ne_nil _ _)).mono
    fun _ v _ hv => ⟨v, hv, rfl⟩
  store hr hi hx := (h.store hr.1 hi.1 hx.1).mono fun _ u _ _ => ⟨u, trivial⟩

variable (h : L.Lawful d Val Fn)

include h

theorem all (hxs : ∀ x ∈ xs, Val w x) : h.parallel.All w xs xs :=
  (List.forall₂_and_left _ _).mpr ⟨hxs, List.forall₂_same.mpr fun _ _ => rfl⟩

theorem maybe (ho : ∀ v, o = some v → Val w v) : h.parallel.Maybe w o o := by
  cases o with
  | none => trivial
  | some v => exact ⟨ho v rfl, rfl⟩

theorem sliceAlong (hx : Val w x) (axis : Nat) (hi : Val w i) : L.Lays w Val (Adverb.sliceAlong d x axis i) :=
  Lays.mono (h.parallel.sliceAlong ⟨hx, rfl⟩ axis ⟨hi, rfl⟩) fun _ _ _ ⟨_, hv⟩ => hv.1

theorem commonExtent (hxs : ∀ x ∈ xs, Val w x) (axis : Nat) : L.Lays w Val (Adverb.commonExtent d xs axis) :=
  Lays.mono (h.parallel.commonExtent axis (h.all hxs)) fun _ _ _ ⟨_, hv⟩ => hv.1

theorem applyAt (hf : Fn w f) (hxs : ∀ x ∈ xs, Val w x) (axis : Nat) (hi : Val w i) :
    L.Lays w Val (Adverb.applyAt d f xs axis i) :=
  Lays.mono (h.parallel.applyAt ⟨hf, rfl⟩ (h.all hxs) axis ⟨hi, rfl⟩) fun _ _ _ ⟨_, hv⟩ => hv.1

theorem seed (hf : Fn w f) (hc : Fn w c) (ho : ∀ v, o = some v → Val w v) (hxs : ∀ x ∈ xs, Val w x) (axis : Nat) :
    L.Lays w Val (Adverb.seed d f c o xs axis) :=
  Lays.mono (h.parallel.seed ⟨hf, rfl⟩ ⟨hc, rfl⟩ (h.maybe ho) (h.all hxs) axis) fun _ _ _ ⟨_, hv⟩ => hv.1

theorem map (hf : Fn w f) (hxs : ∀ x ∈ xs, Val w x) (axis : Nat) : L.Lays w Val (Adverb.map d f xs axis) :=
  Lays.mono (h.parallel.map ⟨hf, rfl⟩ (h.all hxs) axis) fun _ _ _ ⟨_, hv⟩ => hv.1

theorem reduce (hf : Fn w f) (hc : Fn w c) (ho : ∀ v, o = some v → Val w v) (hxs : ∀ x ∈ xs, Val w x) (axis : Nat) :
    L.Lays w Val (Adverb.reduce d f c o xs axis) :=
  Lays.mono (h.parallel.reduce ⟨hf, rfl⟩ ⟨hc, rfl⟩ (h.maybe ho) (h.all hxs) axis) fun _ _ _ ⟨_, hv⟩ => hv.1

theorem scan (hf : Fn w f) (hc : Fn w c) (he : Fn w e) (ho : ∀ v, o = some v → Val w v)
    (hxs : ∀ x ∈ xs, Val w x) (axis : Nat) :
    L.Lays w Val (Adverb.scan d f c e o xs axis) :=
  Lays.mono (h.parallel.scan ⟨hf, rfl⟩ ⟨hc, rfl⟩ ⟨he, rfl⟩ (h.maybe ho) (h.all hxs) axis) fun _ _ _ ⟨_, hv⟩ => hv.1

theorem allPairs (hf : Fn w f) (hx : Val w x) (hy : Val w y) (axis : Nat) :
    L.Lays w Val (Adverb.allPairs d f x y axis) :=
  Lays.mono (h.parallel.allPairs ⟨hf, rfl⟩ ⟨hx, rfl⟩ ⟨hy, rfl⟩ axis) fun _ _ _ ⟨_, hv⟩ => hv.1

end Lawful

/-- The two kinds of loops that adverbs are put together with do what they may, if their bodies do. -/
structure Loops (L : Laying) : Prop where
  loop : ∀ {w start stop} {body : Expr → Build Unit}, L.Sees w start → L.Sees w stop →
    (∀ w' i, L.Below w w' → L.Sees w' i → L.Lays w' (fun _ _ => True) (body i)) →
    L.Lays w (fun _ _ => True) (Build.forLoop start stop (.int64 1) .empty body)
  accumulate : ∀ {w start stop init} {body : Expr → Expr → Build Expr}, L.Sees w start → L.Sees w stop → L.Sees w init →
    (∀ w' acc i, L.Below w w' → L.Sees w' acc → L.Sees w' i → L.Lays w' L.Sees (body acc i)) →
    L.Lays w L.Sees (Build.accumulate start stop init body)

/-- Expressions that may be used, and callables that may be called. -/
theorem expressions (h : L.Loops) : L.Lawful Build.domain L.Sees L.Invocable where
  mono hw hv := hv.mono hw
  fn_mono hw hv := hv.mono hw
  int i := sees_int i .i64
  wholeAxis := sees_wholeAxis
  tuple h := sees_tupleOf h
  index hx hi := index_lays hx hi "elt"
  extent axis hx := shape_lays hx (some axis)
  checkExtents axis _ _ := checkExtents_lays axis _
  invoke hf ha := call_lays hf ha _
  loop := h.loop
  accumulate := h.accumulate
  alloc hf ho hne := allocLike_lays hf ho hne
  store hr hi hx := setIndex_lays hr hi hx

end Laying

end ArrayIR
