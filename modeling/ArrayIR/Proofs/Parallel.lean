/-
  ArrayIR.Proofs.Parallel — adverbs over two domains side by side.

  An adverb does nothing but what the operations of a domain do. So if the operations
  of two domains go alike on values that correspond (`Parallel`), then so do the adverbs
  over them (`Parallel.map`, `Parallel.reduce`, `Parallel.scan`, `Parallel.allPairs`).

  Which values correspond may depend on how far the computations have come: on the
  buffers that have been paired, or on the code that has been emitted. What corresponds
  goes on to do so. A domain may be compared with itself, and then it is only said what
  becomes of its values.
-/

import ArrayIR.Adverb
import Mathlib.Data.List.Forall2

namespace ArrayIR

/-- Two domains whose operations go alike. -/
structure Parallel {m : Type → Type} [Monad m] [MonadExceptOf Fault m] {V : Type} (d d' : Domain m V) where
  World : Type
  Below : World → World → Prop
  /-- From the world on the computations go alike, and give what corresponds in the world that they lead to. -/
  Alike : {α : Type} → World → (World → α → α → Prop) → m α → m α → Prop
  Val : World → V → V → Prop
  Fn : World → V → V → Prop
  /-- Results that are still to be filled. -/
  Room : World → V → V → Prop
  trans : ∀ {w w' w''}, Below w w' → Below w' w'' → Below w w''
  mono : ∀ {w w' x x'}, Below w w' → Val w x x' → Val w' x x'
  fn_mono : ∀ {w w' f f'}, Below w w' → Fn w f f' → Fn w' f f'
  room_mono : ∀ {w w' r r'}, Below w w' → Room w r r' → Room w' r r'
  filled : ∀ {w r r'}, Room w r r' → Val w r r'
  pure : ∀ {α w a b} {P : World → α → α → Prop}, (∀ w', Below w w' → P w' a b) → Alike w P (Pure.pure a) (Pure.pure b)
  fail : ∀ {α w} {P : World → α → α → Prop} (e : Error), Alike w P (ArrayIR.fail e) (ArrayIR.fail e)
  bind : ∀ {α β w} {P : World → α → α → Prop} {Q : World → β → β → Prop} {x y : m α} {f g : α → m β}, Alike w P x y →
    (∀ w' a b, Below w w' → P w' a b → Alike w' Q (f a) (g b)) → Alike w Q (x >>= f) (y >>= g)
  rank : ∀ {w x x'}, Val w x x' → d.rank x = d'.rank x'
  isNothing : ∀ {w x x'}, Val w x x' → d.isNothing x = d'.isNothing x'
  int : ∀ {w} i, Val w (d.int i) (d'.int i)
  wholeAxis : ∀ {w}, Val w d.wholeAxis d'.wholeAxis
  tuple : ∀ {w xs ys}, List.Forall₂ (Val w) xs ys → Val w (d.tuple xs) (d'.tuple ys)
  index : ∀ {w x x' i i'}, Val w x x' → Val w i i' → Alike w Val (d.index x i) (d'.index x' i')
  extent : ∀ {w x x'} axis, Val w x x' → Alike w Val (d.extent x axis) (d'.extent x' axis)
  checkExtents : ∀ {w xs ys} axis, List.Forall₂ (Val w) xs ys →
    Alike w (fun _ _ _ => True) (d.checkExtents axis xs) (d'.checkExtents axis ys)
  invoke : ∀ {w f f' xs ys}, Fn w f f' → List.Forall₂ (Val w) xs ys → Alike w Val (d.invoke f xs) (d'.invoke f' ys)
  loop : ∀ {w lo lo' hi hi' body body'}, Val w lo lo' → Val w hi hi' →
    (∀ w' i i', Below w w' → Val w' i i' → Alike w' (fun _ _ _ => True) (body i) (body' i')) →
    Alike w (fun _ _ _ => True) (d.loop lo hi body) (d'.loop lo' hi' body')
  accumulate : ∀ {w lo lo' hi hi' a a' body body'}, Val w lo lo' → Val w hi hi' → Val w a a' →
    (∀ w' a a' i i', Below w w' → Val w' a a' → Val w' i i' → Alike w' Val (body a i) (body' a' i')) →
    Alike w Val (d.accumulate lo hi a body) (d'.accumulate lo' hi' a' body')
  alloc : ∀ {w x x' n n' ns ns'}, Val w x x' → List.Forall₂ (Val w) (n :: ns) (n' :: ns') →
    Alike w Room (d.alloc x (n :: ns)) (d'.alloc x' (n' :: ns'))
  store : ∀ {w r r' i i' x x'}, Room w r r' → Val w i i' → Val w x x' →
    Alike w (fun _ _ _ => True) (d.store r i x) (d'.store r' i' x')

namespace Parallel

variable {m : Type → Type} [Monad m] [MonadExceptOf Fault m] {V : Type} {d d' : Domain m V} (p : Parallel d d')
  {w w' : p.World} {f f' c c' e e' i i' r r' x x' y y' : V} {o o' : Option V} {xs ys : List V}

/-- Values that correspond one by one. -/
abbrev All (w : p.World) (xs ys : List V) : Prop := List.Forall₂ (p.Val w) xs ys

/-- An optional value, on both sides or on none. -/
def Maybe (w : p.World) : Option V → Option V → Prop
  | some x, some x' => p.Val w x x'
  | none, none => True
  | _, _ => False

include p

theorem all_mono (hw : p.Below w w') (h : p.All w xs ys) : p.All w' xs ys := h.imp fun _ _ => p.mono hw

theorem maybe_mono (hw : p.Below w w') (h : p.Maybe w o o') : p.Maybe w' o o' := by
  cases o <;> cases o' <;> first | exact p.mono hw h | exact h

theorem sliceIndex (rank axis : Nat) (hi : p.Val w i i') :
    p.Val w (Adverb.sliceIndex d rank axis i) (Adverb.sliceIndex d' rank axis i') := by
  unfold Adverb.sliceIndex
  split
  · exact hi
  · refine p.tuple
      (List.forall₂_map_left_iff.mpr (List.forall₂_map_right_iff.mpr (List.forall₂_same.mpr fun k _ => ?_)))
    split
    · exact hi
    · exact p.wholeAxis

theorem sliceAlong (hx : p.Val w x x') (axis : Nat) (hi : p.Val w i i') :
    p.Alike w p.Val (Adverb.sliceAlong d x axis i) (Adverb.sliceAlong d' x' axis i') := by
  unfold Adverb.sliceAlong
  rw [p.rank hx]
  split
  · exact p.pure fun _ hw => p.mono hw hx
  · exact p.index hx (p.sliceIndex _ _ hi)

theorem extents (axis : Nat) (h : p.All w xs ys) :
    p.Alike w p.All (Adverb.extents d axis xs) (Adverb.extents d' axis ys) := by
  induction xs generalizing w ys with
  | nil =>
    cases h
    exact p.pure fun _ _ => .nil
  | cons x xs ih =>
    obtain _ | ⟨hx, hxs⟩ := h
    unfold Adverb.extents
    rw [p.rank hx]
    split
    · refine p.bind (p.extent axis hx) fun w1 n n' h1 hn => p.bind (ih (p.all_mono h1 hxs)) fun w2 ns ns' h2 hns => ?_
      exact p.pure fun w3 h3 => .cons (p.mono (p.trans h2 h3) hn) (p.all_mono h3 hns)
    · exact ih hxs

theorem highestRank (h : p.All w xs ys) (k : Nat) :
    xs.foldl (fun r x => max r (d.rank x)) k = ys.foldl (fun r y => max r (d'.rank y)) k := by
  induction h generalizing k with
  | nil => rfl
  | cons hx _ ih => rw [List.foldl_cons, List.foldl_cons, p.rank hx, ih]

theorem commonExtent (axis : Nat) (h : p.All w xs ys) :
    p.Alike w p.Val (Adverb.commonExtent d xs axis) (Adverb.commonExtent d' ys axis) := by
  refine p.bind (p.extents axis h) fun w1 ns ns' _ hns => ?_
  cases hns with
  | nil =>
    dsimp only
    rw [p.highestRank h]
    exact p.fail _
  | cons hn hns =>
    exact p.bind (p.checkExtents axis (.cons hn hns)) fun w2 _ _ h2 _ => p.pure fun w3 h3 => p.mono (p.trans h2 h3) hn

theorem slices [LawfulMonad m] (h : p.All w xs ys) (axis : Nat) (hi : p.Val w i i') :
    p.Alike w p.All (xs.mapM fun x => Adverb.sliceAlong d x axis i)
      (ys.mapM fun y => Adverb.sliceAlong d' y axis i') := by
  induction xs generalizing w ys with
  | nil =>
    cases h
    rw [List.mapM_nil, List.mapM_nil]
    exact p.pure fun _ _ => .nil
  | cons x xs ih =>
    obtain _ | ⟨hx, hxs⟩ := h
    rw [List.mapM_cons, List.mapM_cons]
    refine p.bind (p.sliceAlong hx axis hi) fun w1 y y' h1 hy => ?_
    refine p.bind (ih (p.all_mono h1 hxs) (p.mono h1 hi)) fun w2 ys ys' h2 hys => ?_
    exact p.pure fun w3 h3 => .cons (p.mono (p.trans h2 h3) hy) (p.all_mono h3 hys)

theorem applyAt [LawfulMonad m] (hf : p.Fn w f f') (h : p.All w xs ys) (axis : Nat) (hi : p.Val w i i') :
    p.Alike w p.Val (Adverb.applyAt d f xs axis i) (Adverb.applyAt d' f' ys axis i') :=
  p.bind (p.slices h axis hi) fun _ _ _ h1 hys => p.invoke (p.fn_mono h1 hf) hys

theorem seed [LawfulMonad m] (hf : p.Fn w f f') (hc : p.Fn w c c') (ho : p.Maybe w o o')
    (h : p.All w xs ys) (axis : Nat) :
    p.Alike w p.Val (Adverb.seed d f c o xs axis) (Adverb.seed d' f' c' o' ys axis) := by
  refine p.bind (p.applyAt hf h axis (p.int 0)) fun w1 a a' h1 ha => ?_
  cases o <;> cases o'
  case none.none => exact p.pure fun _ hw => p.mono hw ha
  case some.some i i' =>
    have hi := p.mono h1 ho
    show p.Alike _ _ (if _ then _ else _) (if _ then _ else _)
    rw [p.isNothing hi]
    split
    · exact p.pure fun _ hw => p.mono hw ha
    · exact p.invoke (p.fn_mono h1 hc) (.cons hi (.cons ha .nil))
  all_goals exact ho.elim

theorem put (hr : p.Room w r r') (hi : p.Val w i i') (hx : p.Val w x x') :
    p.Alike w (fun _ _ _ => True) (Adverb.put d r i x) (Adverb.put d' r' i' x') := by
  unfold Adverb.put
  rw [p.rank (p.filled hr)]
  exact p.store hr (p.sliceIndex _ _ hi) hx

theorem map [LawfulMonad m] (hf : p.Fn w f f') (h : p.All w xs ys) (axis : Nat) :
    p.Alike w p.Val (Adverb.map d f xs axis) (Adverb.map d' f' ys axis) := by
  refine p.bind (p.commonExtent axis h) fun w1 n n' h1 hn => ?_
  refine p.bind (p.applyAt (p.fn_mono h1 hf) (p.all_mono h1 h) axis (p.int 0)) fun w2 a a' h2 ha => ?_
  refine p.bind (p.alloc ha (.cons (p.mono h2 hn) .nil)) fun w3 r r' h3 hr => ?_
  refine p.bind (p.put hr (p.int 0) (p.mono h3 ha)) fun w4 _ _ h4 _ => ?_
  have h24 := p.trans h2 (p.trans h3 h4)
  refine p.bind (p.loop (p.int 1) (p.mono h24 hn) fun w5 i i' h5 hi => ?_) fun w5 _ _ h5 _ =>
    p.pure fun _ h6 => p.mono (p.trans h4 (p.trans h5 h6)) (p.filled hr)
  have h15 := p.trans h1 (p.trans h24 h5)
  refine p.bind (p.applyAt (p.fn_mono h15 hf) (p.all_mono h15 h) axis hi) fun w6 x x' h6 hx => ?_
  exact p.put (p.room_mono (p.trans h4 (p.trans h5 h6)) hr) (p.mono h6 hi) hx

theorem reduce [LawfulMonad m] (hf : p.Fn w f f') (hc : p.Fn w c c') (ho : p.Maybe w o o')
    (h : p.All w xs ys) (axis : Nat) :
    p.Alike w p.Val (Adverb.reduce d f c o xs axis) (Adverb.reduce d' f' c' o' ys axis) := by
  refine p.bind (p.commonExtent axis h) fun w1 n n' h1 hn => ?_
  refine p.bind (p.seed (p.fn_mono h1 hf) (p.fn_mono h1 hc) (p.maybe_mono h1 ho) (p.all_mono h1 h) axis)
    fun w2 a a' h2 ha => ?_
  refine p.accumulate (p.int 1) (p.mono h2 hn) ha fun w3 a a' i i' h3 ha hi => ?_
  have h13 := p.trans h1 (p.trans h2 h3)
  refine p.bind (p.applyAt (p.fn_mono h13 hf) (p.all_mono h13 h) axis hi) fun w4 x x' h4 hx => ?_
  exact p.invoke (p.fn_mono (p.trans h13 h4) hc) (.cons (p.mono h4 ha) (.cons hx .nil))

theorem scan [LawfulMonad m] (hf : p.Fn w f f') (hc : p.Fn w c c') (he : p.Fn w e e')
    (ho : p.Maybe w o o') (h : p.All w xs ys) (axis : Nat) :
    p.Alike w p.Val (Adverb.scan d f c e o xs axis) (Adverb.scan d' f' c' e' o' ys axis) := by
  refine p.bind (p.commonExtent axis h) fun w1 n n' h1 hn => ?_
  refine p.bind (p.seed (p.fn_mono h1 hf) (p.fn_mono h1 hc) (p.maybe_mono h1 ho) (p.all_mono h1 h) axis)
    fun w2 a a' h2 ha => ?_
  have h12 := p.trans h1 h2
  refine p.bind (p.invoke (p.fn_mono h12 he) (.cons ha .nil)) fun w3 x x' h3 hx => ?_
  refine p.bind (p.alloc hx (.cons (p.mono (p.trans h2 h3) hn) .nil)) fun w4 r r' h4 hr => ?_
  refine p.bind (p.put hr (p.int 0) (p.mono h4 hx)) fun w5 _ _ h5 _ => ?_
  have h25 := p.trans h3 (p.trans h4 h5)
  refine p.bind (p.accumulate (p.int 1) (p.mono (p.trans h2 h25) hn) (p.mono h25 ha) fun w6 a a' i i' h6 ha hi => ?_)
    fun w6 _ _ h6 _ => p.pure fun _ h7 => p.mono (p.trans h5 (p.trans h6 h7)) (p.filled hr)
  have h16 := p.trans h12 (p.trans h25 h6)
  refine p.bind (p.applyAt (p.fn_mono h16 hf) (p.all_mono h16 h) axis hi) fun w7 x x' h7 hx => ?_
  refine p.bind (p.invoke (p.fn_mono (p.trans h16 h7) hc) (.cons (p.mono h7 ha) (.cons hx .nil)))
    fun w8 a a' h8 ha => ?_
  have h78 := p.trans h7 h8
  refine p.bind (p.invoke (p.fn_mono (p.trans h16 h78) he) (.cons ha .nil)) fun w9 x x' h9 hx => ?_
  have h79 := p.trans h78 h9
  refine p.bind (p.put (p.room_mono (p.trans h5 (p.trans h6 h79)) hr) (p.mono h79 hi) hx) fun w10 _ _ h10 _ => ?_
  exact p.pure fun _ h11 => p.mono (p.trans h9 (p.trans h10 h11)) ha

theorem allPairs (hf : p.Fn w f f') (hx : p.Val w x x') (hy : p.Val w y y') (axis : Nat) :
    p.Alike w p.Val (Adverb.allPairs d f x y axis) (Adverb.allPairs d' f' x' y' axis) := by
  refine p.bind (p.extent axis hx) fun w1 nx nx' h1 hnx =>
    p.bind (p.extent axis (p.mono h1 hy)) fun w2 ny ny' h2 hny => ?_
  have h12 := p.trans h1 h2
  refine p.bind (p.sliceAlong (p.mono h12 hx) axis (p.int 0)) fun w3 a a' h3 ha => ?_
  have h13 := p.trans h12 h3
  refine p.bind (p.sliceAlong (p.mono h13 hy) axis (p.int 0)) fun w4 b b' h4 hb => ?_
  refine p.bind (p.invoke (p.fn_mono (p.trans h13 h4) hf) (.cons (p.mono h4 ha) (.cons hb .nil)))
    fun w5 c c' h5 hc => ?_
  have h25 := p.trans h3 (p.trans h4 h5)
  refine p.bind (p.alloc hc (.cons (p.mono (p.trans h2 h25) hnx) (.cons (p.mono h25 hny) .nil))) fun w6 r r' h6 hr => ?_
  have h26 := p.trans h25 h6
  refine p.bind (p.loop (p.int 0) (p.mono (p.trans h2 h26) hnx) fun w7 i i' h7 hi => ?_) fun w7 _ _ h7 _ =>
    p.pure fun _ h8 => p.mono (p.trans h7 h8) (p.filled hr)
  have h27 := p.trans h26 h7
  have h17 := p.trans h12 h27
  refine p.bind (p.sliceAlong (p.mono h17 hx) axis hi) fun w8 xi xi' h8 hxi => ?_
  refine p.loop (p.int 0) (p.mono (p.trans h27 h8) hny) fun w9 j j' h9 hj => ?_
  have h89 := p.trans h8 h9
  refine p.bind (p.sliceAlong (p.mono (p.trans h17 h89) hy) axis hj) fun w10 yj yj' h10 hyj => ?_
  refine p.bind (p.invoke (p.fn_mono (p.trans h17 (p.trans h89 h10)) hf)
    (.cons (p.mono (p.trans h9 h10) hxi) (.cons hyj .nil))) fun w11 c c' h11 hc => ?_
  have h10 := p.trans h10 h11
  have h8 := p.trans h89 h10
  exact p.store (p.room_mono (p.trans h7 h8) hr) (p.tuple (.cons (p.mono h8 hi) (.cons (p.mono h10 hj) .nil))) hc

end Parallel

end ArrayIR
