/-
  ArrayIR.Proofs.Lockstep — evaluation on alike values in agreeing stores.

  Two computations are in step when, from any two agreeing stores, both fail or both
  succeed with results that are alike and stores that still agree, under a pairing
  that has grown (`InStep`). What an expression does with its operands is in step on
  alike operands: this is shown operation by operation, from the views up to the
  adverbs.

  The only stores an expression makes are those of an adverb into the array it has
  just allocated; the two arrays are paired with nothing else (`Fresh`).
-/

import ArrayIR.Proofs.Pairing
import ArrayIR.Proofs.Parallel

namespace ArrayIR

/-! ## Outcomes -/

/-- What two computations come to: both fail, or both end as `P` says, under a later pairing. -/
def Outcome {α β : Type} (w : Pairing) (P : Pairing → α → Store → β → Store → Prop) :
    EStateM.Result Fault Store α → EStateM.Result Fault Store β → Prop
  | .ok a s, .ok b s' => ∃ w', w ≤ w' ∧ P w' a s b s'
  | .error _ _, .error _ _ => True
  | _, _ => False

theorem Outcome.bind_eq {α β γ δ : Type} {w : Pairing} {P : Pairing → α → Store → β → Store → Prop}
    {Q : Pairing → γ → Store → δ → Store → Prop} {x : Exec α} {y : Exec β} {f : α → Exec γ} {g : β → Exec δ}
    {st st' : Store} (h : Outcome w P (x st) (y st'))
    (next : ∀ w' a s b s', w ≤ w' → x st = .ok a s → y st' = .ok b s' → P w' a s b s' →
      Outcome w' Q (f a s) (g b s')) :
    Outcome w Q ((x >>= f) st) ((y >>= g) st') := by
  change Outcome w Q (EStateM.bind x f st) (EStateM.bind y g st')
  unfold EStateM.bind
  cases hx : x st <;> cases hy : y st' <;> rw [hx, hy] at h
  case ok.ok a s b s' =>
    obtain ⟨w', hle, hp⟩ := h
    have := next w' a s b s' hle hx hy hp
    dsimp only
    cases hf : f a s <;> cases hg : g b s' <;> rw [hf, hg] at this
    · obtain ⟨w'', hle', hq⟩ := this
      exact ⟨w'', hle.trans hle', hq⟩
    · exact this
    · exact this
    · exact this
  case error.error => trivial
  all_goals exact h.elim

theorem Outcome.bind {α β γ δ : Type} {w : Pairing} {P : Pairing → α → Store → β → Store → Prop}
    {Q : Pairing → γ → Store → δ → Store → Prop} {x : Exec α} {y : Exec β} {f : α → Exec γ} {g : β → Exec δ}
    {st st' : Store} (h : Outcome w P (x st) (y st'))
    (next : ∀ w' a s b s', w ≤ w' → P w' a s b s' → Outcome w' Q (f a s) (g b s')) :
    Outcome w Q ((x >>= f) st) ((y >>= g) st') :=
  h.bind_eq fun w' a s b s' hle _ _ hp => next w' a s b s' hle hp

theorem Outcome.mono_eq {α β : Type} {w : Pairing} {P Q : Pairing → α → Store → β → Store → Prop}
    {r : EStateM.Result Fault Store α} {r' : EStateM.Result Fault Store β} (h : Outcome w P r r')
    (hpq : ∀ w' a s b s', w ≤ w' → r = .ok a s → r' = .ok b s' → P w' a s b s' → Q w' a s b s') :
    Outcome w Q r r' := by
  cases r <;> cases r'
  · obtain ⟨w', hw, hp⟩ := h
    exact ⟨w', hw, hpq _ _ _ _ _ hw rfl rfl hp⟩
  · exact h
  · exact h
  · exact h

theorem Outcome.mono {α β : Type} {w w0 : Pairing} {P Q : Pairing → α → Store → β → Store → Prop}
    {r : EStateM.Result Fault Store α} {r' : EStateM.Result Fault Store β} (h : Outcome w P r r') (hle : w0 ≤ w)
    (hpq : ∀ w' a s b s', w ≤ w' → P w' a s b s' → Q w' a s b s') : Outcome w0 Q r r' := by
  cases r <;> cases r'
  · obtain ⟨w', hw, hp⟩ := h
    exact ⟨w', hle.trans hw, hpq _ _ _ _ _ hw hp⟩
  · exact h
  · exact h
  · exact h

/-- Where the first succeeds, the second does. -/
theorem Outcome.ok_left {α β : Type} {w : Pairing} {P : Pairing → α → Store → β → Store → Prop} {a : α} {s : Store}
    {r' : EStateM.Result Fault Store β} (h : Outcome w P (.ok a s) r') :
    ∃ b s', r' = .ok b s' ∧ ∃ w', w ≤ w' ∧ P w' a s b s' := by
  cases r' with
  | ok b s' => exact ⟨b, s', rfl, h⟩
  | error e s' => exact h.elim

theorem Outcome.ok_right {α β : Type} {w : Pairing} {P : Pairing → α → Store → β → Store → Prop} {b : β} {s' : Store}
    {r : EStateM.Result Fault Store α} (h : Outcome w P r (.ok b s')) :
    ∃ a s, r = .ok a s ∧ ∃ w', w ≤ w' ∧ P w' a s b s' := by
  cases r with
  | ok a s => exact ⟨a, s, rfl, h⟩
  | error e s => exact h.elim

/-- The results are alike as `P` says and the stores agree. -/
def Ends {α β : Type} (k : Likeness) (P : Pairing → α → β → Prop) :
    Pairing → α → Store → β → Store → Prop :=
  fun w a s b s' => Agree k w s s' ∧ P w a b

/-- From agreeing stores both computations fail, or both succeed with results as `P` says. -/
def InStep {α β : Type} (k : Likeness) (w : Pairing) (P : Pairing → α → β → Prop) (x : Exec α) (y : Exec β) :
    Prop :=
  ∀ st st', Agree k w st st' → Outcome w (Ends k P) (x st) (y st')

/-- Both fail, or both give results as `P` says. -/
def ExceptAlike {α β : Type} (P : α → β → Prop) : Except Error α → Except Error β → Prop
  | .ok a, .ok b => P a b
  | .error _, .error _ => True
  | _, _ => False

theorem ExceptAlike.bind {α β γ δ : Type} {P : α → β → Prop} {Q : γ → δ → Prop} {x : Except Error α}
    {y : Except Error β} {f : α → Except Error γ} {g : β → Except Error δ} (h : ExceptAlike P x y)
    (next : ∀ a b, P a b → ExceptAlike Q (f a) (g b)) : ExceptAlike Q (x >>= f) (y >>= g) := by
  cases x <;> cases y
  · trivial
  · exact h.elim
  · exact h.elim
  · exact next _ _ h

theorem ExceptAlike.refl {α : Type} (x : Except Error α) : ExceptAlike Eq x x := by
  cases x <;> trivial

theorem ExceptAlike.mono {α β : Type} {P Q : α → β → Prop} {x : Except Error α} {y : Except Error β}
    (h : ExceptAlike P x y) (hpq : ∀ a b, P a b → Q a b) : ExceptAlike Q x y := by
  cases x <;> cases y
  · trivial
  · exact h
  · exact h
  · exact hpq _ _ h

theorem ExceptAlike.mapM {α β γ δ : Type} {P : α → β → Prop} {Q : γ → δ → Prop} {f : α → Except Error γ}
    {g : β → Except Error δ} (hfg : ∀ a b, P a b → ExceptAlike Q (f a) (g b)) :
    ∀ {xs : List α} {ys : List β}, List.Forall₂ P xs ys → ExceptAlike (List.Forall₂ Q) (xs.mapM f) (ys.mapM g)
  | [], [], _ => by simp [List.mapM_nil, pure, Except.pure, ExceptAlike]
  | x :: xs, y :: ys, .cons h hs => by
    rw [List.mapM_cons, List.mapM_cons]
    exact (hfg x y h).bind fun _ _ hq => (ExceptAlike.mapM hfg hs).bind fun _ _ hqs => .cons hq hqs

namespace InStep

variable {α β γ δ : Type} {k : Likeness} {w : Pairing} {P : Pairing → α → β → Prop} {Q : Pairing → γ → δ → Prop}

theorem pure {a : α} {b : β} (h : P w a b) : InStep k w P (pure a) (pure b) :=
  fun _ _ hst => ⟨w, le_rfl, hst, h⟩

theorem fail {e e' : Error} : InStep k w P (fail e) (fail e') := fun _ _ _ => trivial

theorem throw {e e' : Fault} : InStep k w P (throw e) (throw e') := fun _ _ _ => trivial

variable {y : Exec β} {f : α → Exec γ}

theorem bind {x : Exec α} {g : β → Exec δ} (h : InStep k w P x y)
    (next : ∀ w' a b, w ≤ w' → P w' a b → InStep k w' Q (f a) (g b)) : InStep k w Q (x >>= f) (y >>= g) :=
  fun st st' hst => (h st st' hst).bind fun w' a s b s' hle hp => next w' a b hle hp.2 s s' hp.1

theorem mono {P' : Pairing → α → β → Prop} {x : Exec α} (h : InStep k w P x y)
    (hpq : ∀ w' a b, w ≤ w' → P w' a b → P' w' a b) : InStep k w P' x y :=
  fun st st' hst => (h st st' hst).mono le_rfl fun w' a _ b _ hle hp => ⟨hp.1, hpq w' a b hle hp.2⟩

theorem lift {S : α → β → Prop} {x : Except Error α} {y : Except Error β} (h : ExceptAlike S x y)
    (hp : ∀ a b, S a b → P w a b) : InStep k w P (liftM x : Exec α) (liftM y : Exec β) := by
  cases x <;> cases y
  · exact fail
  · exact absurd h id
  · exact absurd h id
  · exact pure (hp _ _ h)

/-- Both fail, or both go on with the same. -/
theorem lift_bind {x y : Except Error α} {g : α → Exec δ} (h : ExceptAlike Eq x y)
    (next : ∀ a, InStep k w Q (f a) (g a)) : InStep k w Q (liftM x >>= f) (liftM y >>= g) := by
  cases x <;> cases y
  · exact fail
  · exact h.elim
  · exact h.elim
  · cases h
    exact next _

theorem get : InStep k w (fun w s s' => Agree k w s s') (get : Exec Store) (MonadState.get : Exec Store) :=
  fun _ _ hst => ⟨w, le_rfl, hst, hst⟩

theorem ite {c c' : Prop} [Decidable c] [Decidable c'] {x x' : Exec α} {y' : Exec β} (hc : c ↔ c')
    (yes : c → InStep k w P x y) (no : ¬ c → InStep k w P x' y') :
    InStep k w P (if c then x else x') (if c' then y else y') := by
  by_cases h : c
  · rw [if_pos h, if_pos (hc.mp h)]
    exact yes h
  · rw [if_neg h, if_neg (fun h' => h (hc.mpr h'))]
    exact no h

theorem mapM {S : Pairing → γ → δ → Prop} {f : γ → Exec α} {g : δ → Exec β}
    (hS : ∀ {w w' : Pairing} {c d}, w ≤ w' → S w c d → S w' c d)
    (hP : ∀ {w w' : Pairing} {a b}, w ≤ w' → P w a b → P w' a b) {xs : List γ} {ys : List δ}
    (h : List.Forall₂ (S w) xs ys) (hfg : ∀ w' c d, w ≤ w' → S w' c d → InStep k w' P (f c) (g d)) :
    InStep k w (fun w => List.Forall₂ (P w)) (xs.mapM f) (ys.mapM g) := by
  induction xs generalizing w ys with
  | nil =>
    cases h
    simp only [List.mapM_nil]
    exact pure .nil
  | cons x xs ih =>
    obtain _ | ⟨h, hs⟩ := h
    simp only [List.mapM_cons]
    refine (hfg w _ _ le_rfl h).bind fun w1 a b hle hab => ?_
    refine (ih (hs.imp fun _ _ => hS hle) fun w' c d hle' => hfg w' c d (hle.trans hle')).bind
      fun w2 as bs hle' habs => ?_
    exact pure (.cons (hP hle' hab) habs)

end InStep

/-! ## Scalars and bounds -/

variable {vs us : List Value} {idx' idx x' x : Value}

section Values

variable {k : Likeness} {R : BufferId → BufferId → Prop} {v u : Value}

theorem Value.Alike.asScalar (h : v.Alike k R u) : ExceptAlike Eq v.asScalar u.asScalar := by
  cases h.likewise <;> trivial

theorem Value.Alike.asInt (h : v.Alike k R u) : ExceptAlike Eq v.asInt u.asInt :=
  h.asScalar.bind fun _ _ e => e ▸ .refl _

theorem Value.Alike.asBound (h : v.Alike k R u) : ExceptAlike Eq v.asBound u.asBound := by
  cases h.likewise with
  | scalar x => exact .refl _
  | _ => trivial

theorem Value.alike_asScalars (h : List.Forall₂ (Value.Alike k R) vs us) :
    ExceptAlike Eq (Value.asScalars vs) (Value.asScalars us) :=
  (ExceptAlike.mapM (fun _ _ h => h.asScalar) h).mono fun _ _ h => List.forall₂_eq_eq_eq ▸ h

theorem Value.alike_asIntList (h : List.Forall₂ (Value.Alike k R) vs us) :
    ExceptAlike Eq (Value.asIntList vs) (Value.asIntList us) :=
  (ExceptAlike.mapM (fun _ _ h => h.asInt) h).mono fun _ _ h => List.forall₂_eq_eq_eq ▸ h

theorem Value.Alike.asInts (h : v.Alike k R u) : ExceptAlike Eq v.asInts u.asInts := by
  cases h.likewise with
  | tuple hs => exact Value.alike_asIntList hs
  | _ => trivial

theorem Value.alike_ofInts (is : List Int) (f : Int → Int) :
    Value.AlikeList k R (is.map fun i => .ofInt (f i)) (is.map fun i => .ofInt (f i)) := by
  induction is with
  | nil => rfl
  | cons i is ih => exact ⟨_, _, rfl, rfl, ih⟩

end Values

/-! ## Views -/

namespace View

variable {k : Likeness} {R : BufferId → BufferId → Prop} {v u : View}

theorem components_alike (h : idx.Alike k R idx') :
    List.Forall₂ (Value.Alike k R) (components idx) (components idx') := by
  cases h.likewise with
  | tuple hs => exact hs
  | _ => exact .cons h .nil

theorem resolveAxis_alike (axis : Nat) (dim stride : Int) {c c' : Value} (h : c.Alike k R c') :
    ExceptAlike Eq (resolveAxis axis dim stride c) (resolveAxis axis dim stride c') := by
  cases h.likewise with
  | scalar x => exact .refl _
  | slice start stop step => exact .refl _
  | _ => trivial

theorem resolveAxes_alike : ∀ (axis : Nat) (axes : List (Int × Int)) {cs cs' : List Value},
    List.Forall₂ (Value.Alike k R) cs cs' → ExceptAlike Eq (resolveAxes axis axes cs) (resolveAxes axis axes cs')
  | _, [], _, _, _ => rfl
  | _, _ :: _, [], [], _ => rfl
  | axis, (dim, stride) :: axes, _ :: _, _ :: _, .cons h hs => by
    refine (resolveAxis_alike axis dim stride h).bind fun r r' e => ?_
    subst e
    refine (resolveAxes_alike (axis + 1) axes hs).bind fun r r' e => ?_
    subst e
    rfl

/-! A view of nothing stays one under an index, and its extents do not depend on its strides. -/

theorem resolveAxis_extents (axis : Nat) (dim stride stride' : Int) {c c' : Value} (h : c.Alike k R c') :
    ExceptAlike (fun r r' => r.2.map (·.1) = r'.2.map (·.1) ∧ (dim = 0 → r.2.map (·.1) = [0]))
      (resolveAxis axis dim stride c) (resolveAxis axis dim stride' c') := by
  cases h.likewise with
  | scalar x =>
    simp only [resolveAxis]
    refine (ExceptAlike.refl x.asInt).bind fun i _ e => ?_
    subst e
    split
    · trivial
    · rename_i hi
      exact ⟨rfl, fun h0 => absurd h0 (by omega)⟩
  | slice start stop step =>
    simp only [resolveAxis]
    split
    · trivial
    · rename_i hstep
      refine ⟨rfl, fun h0 => ?_⟩
      subst h0
      have hpos : 0 < step.toInt := by
        have := Int64.not_le.mp hstep
        simpa using Int64.lt_iff_toInt_lt.mp this
      have hlo : ∀ i, clamp 0 0 i = 0 := fun i => by unfold clamp; split <;> [rfl; (split <;> omega)]
      simp only [hlo, List.map_cons, List.map_nil, List.cons.injEq, and_true]
      rw [Int.tdiv_eq_ediv_of_nonneg (by omega)]
      exact Int.ediv_eq_zero_of_lt (by omega) (by omega)
  | _ => trivial

theorem resolveAxes_extents : ∀ (axis : Nat) (shape strides strides' : List Int) {cs cs' : List Value},
    strides.length = shape.length → strides'.length = shape.length → List.Forall₂ (Value.Alike k R) cs cs' →
      ExceptAlike (fun r r' => r.2.map (·.1) = r'.2.map (·.1) ∧ (0 ∈ shape → 0 ∈ r.2.map (·.1)))
        (resolveAxes axis (shape.zip strides) cs) (resolveAxes axis (shape.zip strides') cs')
  | _, [], _, _, _, _, _, _, _ => by simp [resolveAxes, ExceptAlike]
  | _, d :: ds, s :: ss, t :: ts, [], [], hs, ht, _ => by
    have hss : ss.length = ds.length := by simpa using hs
    have hts : ts.length = ds.length := by simpa using ht
    have hz : ∀ {xs : List Int}, xs.length = ds.length → (ds.zip xs).map (·.1) = ds := fun h =>
      List.map_fst_zip (Nat.le_of_eq h.symm)
    simp [resolveAxes, ExceptAlike, hz hss, hz hts]
  | axis, d :: ds, s :: ss, t :: ts, _ :: _, _ :: _, hs, ht, .cons h hcs => by
    simp only [List.zip_cons_cons, resolveAxes]
    refine (resolveAxis_extents axis d s t h).bind fun r r' hr => ?_
    refine (resolveAxes_extents (axis + 1) ds ss ts (by simpa using hs) (by simpa using ht) hcs).bind
      fun q q' hq => ?_
    refine ⟨?_, fun h0 => ?_⟩
    · simp only [List.map_append, hr.1, hq.1]
    · simp only [List.map_append, List.mem_append]
      rcases List.mem_cons.mp h0 with h0 | h0
      · left
        rw [hr.2 h0.symm]
        exact List.mem_cons_self
      · exact .inr (hq.2 h0)

theorem resolve_alike (h : v.Alike k R u) (hidx : idx.Alike k R idx') :
    ExceptAlike (fun r r' => r.Alike k R r' ∧ (k.loose ∧ v.Vacant ∧ u.Vacant → r.Vacant ∧ r'.Vacant))
      (v.resolve idx) (u.resolve idx') := by
  have hcs := components_alike hidx
  have hlen := hcs.length_eq
  unfold resolve
  simp only [← hlen, ← h.shape]
  split
  · trivial
  · by_cases hl : k.loose ∧ v.Vacant ∧ u.Vacant
    · obtain ⟨hl, hv, hu⟩ := hl
      refine (resolveAxes_extents 0 v.shape v.strides u.strides hv.2 (h.shape ▸ hu.2) hcs).bind fun r r' hr => ?_
      have hr1 : View.Vacant { v with shape := r.2.map (·.1), strides := r.2.map (·.2), offset := v.offset + r.1 } :=
        ⟨hr.2 hv.1, by simp⟩
      have hr2 : View.Vacant { u with shape := r'.2.map (·.1), strides := r'.2.map (·.2), offset := u.offset + r'.1 } :=
        ⟨hr.1 ▸ hr.2 hv.1, by simp⟩
      exact ⟨⟨h.elt, hr.1, .inr ⟨hl, hr1, hr2⟩⟩, fun _ => ⟨hr1, hr2⟩⟩
    · obtain ⟨hs, ho, hb⟩ := h.layout.resolve_right hl
      rw [← hs]
      refine (resolveAxes_alike 0 _ hcs).bind fun r r' e => ?_
      subst e
      exact ⟨⟨h.elt, rfl, .inl ⟨rfl, by rw [ho], hb⟩⟩, fun h => absurd h hl⟩

theorem offsets_of_vacant (h : v.Vacant) : v.offsets = [] := by
  have : v.shape.any (· ≤ 0) = true := List.any_eq_true.mpr ⟨0, h.1, rfl⟩
  simp [offsets, this]

theorem offsets_alike (h : v.Alike k R u) : v.offsets = u.offsets := by
  rcases h.layout with ⟨hs, ho, -⟩ | ⟨-, hv, hu⟩
  · have haddress : v.address = u.address := funext fun p => by rw [address, address, hs, ho]
    simp only [offsets, haddress, h.shape]
  · rw [offsets_of_vacant hv, offsets_of_vacant hu]

variable {w : Pairing} {s s' : Store} (hk : k.contents)
include hk

theorem elements_alike (h : v.Alike k w.rel u) (hst : Agree k w s s') : v.elements s = u.elements s' := by
  unfold elements
  rcases h.layout with ⟨-, -, hb⟩ | ⟨-, hv, hu⟩
  · rw [offsets_alike h, hst.cells hk hb, h.elt]
  · rw [offsets_of_vacant hv, offsets_of_vacant hu]
    rfl

theorem read_alike (h : v.Alike k w.rel u) (hst : Agree k w s s') (hidx : idx.Alike k w.rel idx') :
    ExceptAlike (Value.Alike k w.rel) (v.read s idx) (u.read s' idx') := by
  refine (resolve_alike h hidx).bind fun r r' ⟨hr, _⟩ => ?_
  rw [← hr.shape]
  by_cases he : r.shape.isEmpty = true
  · rw [if_pos he, if_pos he]
    rcases hr.layout with ⟨-, ho, hb⟩ | ⟨-, hv, -⟩
    · rw [ho, hst.cells hk hb, hr.elt]
      rfl
    · exact absurd hv.1 (by simp [List.isEmpty_iff.mp he])
  · rw [if_neg he, if_neg he]
    exact ⟨r', rfl, hr⟩

theorem supply_alike (h : v.Alike k w.rel u) (hst : Agree k w s s') (hx : x.Alike k w.rel x') :
    ExceptAlike Eq (v.supply s x) (u.supply s' x') := by
  cases hx.likewise with
  | array hr =>
    simp only [supply, ← h.shape, ← hr.shape, elements_alike hk hr hst]
    split <;> trivial
  | _ => trivial

end View

/-! ## Stores through views -/

theorem Store.modify_id (s : Store) (b : BufferId) {f : Array Scalar → Array Scalar} (h : ∀ cs, f cs = cs) :
    s.modify b f = s := by
  have hid : f = id := funext h
  subst hid
  have : s.buffers.modify b id = s.buffers := Array.ext (by simp) (by simp [Array.getElem_modify])
  rw [Store.modify, this]

/-- A store through alike views, into buffers that are paired with nothing else. -/
theorem View.write_inStep {k : Likeness} {w : Pairing} {v u : View} (hk : k.contents) (h : v.Alike k w.rel u)
    (he : k.stores ∨ w.Exclusive v.buffer u.buffer) (hidx : idx.Alike k w.rel idx')
    (hx : x.Alike k w.rel x') : InStep k w (fun _ _ _ => True) (v.write idx x) (u.write idx' x') := by
  refine (InStep.lift (P := fun w r r' => r.Alike k w.rel r' ∧ (k.loose ∧ v.Vacant ∧ u.Vacant → r.Vacant ∧ r'.Vacant))
    (View.resolve_alike h hidx) (fun _ _ => id)).bind fun w1 r r' hle ⟨hr, hvac⟩ => ?_
  refine InStep.get.bind fun w2 t t' hle2 ht => ?_
  have hr2 : r.Alike k w2.rel r' := hr.mono hle2.rel
  have hx2 := hx.mono (hle.trans hle2).rel
  refine .lift_bind (View.supply_alike hk hr2 ht hx2) fun vs => ?_
  refine InStep.ite Iff.rfl (fun _ => .pure trivial) fun _ => ?_
  intro s s' hst
  have hle' := hle.trans hle2
  refine ⟨w2, le_rfl, ?_, trivial⟩
  rcases h.layout with ⟨-, -, hb⟩ | hl
  · rw [← h.elt, ← View.offsets_alike hr2]
    have hex : w2.Exclusive v.buffer u.buffer := he.elim
      (fun hk => hst.exclusive hk (hle'.rel hb)) (fun he => he.mono hle' (w.bounded hb).1 (w.bounded hb).2)
    exact hst.modify (hle'.rel hb) hex _
  · -- there is nothing to store into
    obtain ⟨hv, hu⟩ := hvac hl
    have hnone : ∀ (elt : ScalarTy) (cs : Array Scalar), fill elt vs [] cs = cs := fun _ _ => rfl
    rw [View.offsets_of_vacant hv, View.offsets_of_vacant hu]
    dsimp only
    rw [Store.modify_id s v.buffer (hnone v.elt), Store.modify_id s' u.buffer (hnone u.elt)]
    exact hst

/-! ## The domain of values -/

theorem getElem?_alike {α β : Type} {P : α → β → Prop} {xs : List α} {ys : List β} (h : List.Forall₂ P xs ys)
    (i : Nat) : (xs[i]? = none ∧ ys[i]? = none) ∨ ∃ a b, xs[i]? = some a ∧ ys[i]? = some b ∧ P a b := by
  induction h generalizing i with
  | nil => exact .inl ⟨rfl, rfl⟩
  | cons h _ ih =>
    cases i with
    | zero => exact .inr ⟨_, _, rfl, rfl, h⟩
    | succ i => exact ih i

/-- Alike under the pairing reached. -/
def Likes (k : Likeness) (w : Pairing) (v u : Value) : Prop := v.Alike k w.rel u

theorem Likes.mono {k : Likeness} {w w' : Pairing} {v u : Value} (hle : w ≤ w') (h : Likes k w v u) :
    Likes k w' v u := Value.Alike.mono hle.rel h

theorem Likes.int {k : Likeness} {w : Pairing} {i : Int64} : Likes k w (.int i) (.int i) := rfl

theorem Likes.list_mono {k : Likeness} {w w' : Pairing} (hle : w ≤ w')
    (h : List.Forall₂ (Likes k w) vs us) : List.Forall₂ (Likes k w') vs us := h.imp fun _ _ => Likes.mono hle

/-- Two arrays over buffers that are paired with nothing else. -/
structure Fresh (w : Pairing) (v u : View) : Prop where
  elt : v.elt = u.elt
  shape : v.shape = u.shape
  strides : v.strides = u.strides
  offset : v.offset = u.offset
  rel : w.rel v.buffer u.buffer
  exclusive : w.Exclusive v.buffer u.buffer

namespace Fresh

variable {k : Likeness} {w w' : Pairing} {v u : View}

theorem mono (hle : w ≤ w') (h : Fresh w v u) : Fresh w' v u :=
  { h with rel := hle.rel h.rel, exclusive := h.exclusive.mono hle (w.bounded h.rel).1 (w.bounded h.rel).2 }

theorem alike (h : Fresh w v u) : v.Alike k w.rel u := ⟨h.elt, h.shape, .inl ⟨h.strides, h.offset, h.rel⟩⟩

theorem likes (h : Fresh w v u) : Likes k w (.array v) (.array u) := ⟨u, rfl, h.alike⟩

theorem write (h : Fresh w v u) (hk : k.contents) (hidx : Likes k w idx idx')
    (hx : Likes k w x x') : InStep k w (fun _ _ _ => True) (v.write idx x) (u.write idx' x') :=
  View.write_inStep hk h.alike (.inr h.exclusive) hidx hx

end Fresh

/-- Calls of the functions that may run are in step on alike arguments, and buffers may be read. -/
structure CallersAlike (k : Likeness) (call call' : Caller) : Prop where
  contents : k.contents
  call : ∀ {w : Pairing} {fn : FnName} {args args' : List Value}, k.fns fn → List.Forall₂ (Likes k w) args args' →
    InStep k w (Likes k) (call fn args) (call' fn args')

namespace Eval

variable {k : Likeness} {w : Pairing}

theorem alloc_inStep (cells : Array Scalar) :
    InStep k w (fun w b c => w.rel b c ∧ w.Exclusive b c)
      (modifyGet (·.alloc cells) : Exec BufferId) (modifyGet (·.alloc cells) : Exec BufferId) := by
  intro st st' hst
  refine ⟨w.push, Pairing.le_push w, hst.push cells, ?_⟩
  show w.push.rel st.size st'.size ∧ w.push.Exclusive st.size st'.size
  rw [hst.left, hst.right]
  exact ⟨.inr ⟨rfl, rfl⟩, Pairing.push_exclusive w⟩

theorem zeroed_inStep (elt : ScalarTy) (shape : List Int) :
    InStep k w Fresh (View.zeroed elt shape) (View.zeroed elt shape) :=
  (alloc_inStep _).bind fun _ _ _ _ h => .pure ⟨rfl, rfl, rfl, rfl, h.1, h.2⟩

theorem index_inStep (hk : k.contents) (hx : Likes k w x x') (hidx : Likes k w idx idx') :
    InStep k w (Likes k) (index x idx) (index x' idx') := by
  cases hx.likewise with
  | scalar x => exact .pure rfl
  | tuple hxs =>
    refine .lift_bind hidx.asInt fun i => ?_
    by_cases hi : i < 0
    · simp only [hi, if_true]
      exact .fail
    · simp only [hi, if_false]
      rcases getElem?_alike hxs i.toInt.toNat with ⟨hx, hy⟩ | ⟨a, b, hx, hy, hab⟩
      · rw [hx, hy]
        exact .fail
      · rw [hx, hy]
        exact .pure hab
  | array h =>
    exact InStep.get.bind fun w1 s s' hle hst =>
      .lift (View.read_alike hk (h.mono hle.rel) hst (hidx.mono hle)) fun _ _ => id
  | _ => exact .fail

theorem extentAlong_inStep (hx : Likes k w x x') (axis : Nat) :
    InStep k w (Likes k) (extentAlong x axis) (extentAlong x' axis) := by
  unfold extentAlong
  rw [hx.shape]
  split
  · exact .pure rfl
  · exact .fail

variable {xs ys : List Value} {α β : Type} {Q : Pairing → α → β → Prop} {body : α → Int → Exec α}
  {body' : β → Int → Exec β} {a b : Value}

theorem checkExtents_inStep (axis : Nat) (h : List.Forall₂ (Likes k w) xs ys) :
    InStep k w (fun _ _ _ => True) (checkExtents axis xs) (checkExtents axis ys) := by
  exact .lift_bind (Value.alike_asIntList h) fun is => .ite Iff.rfl (fun _ => .fail) fun _ => .pure trivial

theorem invoke_inStep {call call' : Caller} (hcall : CallersAlike k call call') {f f' : Value} (hf : Likes k w f f')
    (h : List.Forall₂ (Likes k w) xs ys) : InStep k w (Likes k) (invoke call f xs) (invoke call' f' ys) := by
  cases hf.likewise with
  | closure hfn hcs => exact hcall.call hfn (List.rel_append hcs h)
  | _ => exact .fail

theorem countUp_inStep (n : Nat) (i : Int) {a : α} {b : β} (h : Q w a b)
    (hbody : ∀ w' a b i, w ≤ w' → Q w' a b → InStep k w' Q (body a i) (body' b i)) :
    InStep k w Q (countUp body n i a) (countUp body' n i b) := by
  induction n generalizing w i a b with
  | zero => exact .pure h
  | succ n ih =>
    exact (hbody w a b i le_rfl h).bind fun w1 a b hle hab =>
      ih (i + 1) hab fun w' a b i hle' => hbody w' a b i (hle.trans hle')

theorem forRange_inStep {lo lo' hi hi' : Value} (hlo : Likes k w lo lo') (hhi : Likes k w hi hi') {a : α} {b : β}
    (h : Q w a b) (hbody : ∀ w' a b i, w ≤ w' → Q w' a b → InStep k w' Q (body a i) (body' b i)) :
    InStep k w Q (forRange lo hi a body) (forRange lo' hi' b body') := by
  exact .lift_bind hlo.asInt fun lo => .lift_bind hhi.asInt fun hi => countUp_inStep _ _ h hbody

/-- Two arrays just allocated. -/
def FreshArrays (w : Pairing) (a b : Value) : Prop := ∃ v u, a = .array v ∧ b = .array u ∧ Fresh w v u

theorem FreshArrays.mono {w w' : Pairing} (hle : w ≤ w') : FreshArrays w a b → FreshArrays w' a b
  | ⟨v, u, ha, hb, h⟩ => ⟨v, u, ha, hb, h.mono hle⟩

theorem FreshArrays.likes : FreshArrays w a b → Likes k w a b
  | ⟨_, _, ha, hb, h⟩ => ha ▸ hb ▸ h.likes

theorem allocRoom_inStep {first first' : Value} {outer outer' : List Value} (hf : Likes k w first first')
    (ho : List.Forall₂ (Likes k w) outer outer') :
    InStep k w FreshArrays (alloc first outer) (alloc first' outer') := by
  refine .lift_bind (Value.alike_asIntList ho) fun is => ?_
  have fresh : ∀ elt shape, InStep k w FreshArrays (Value.array <$> View.zeroed elt shape)
      (Value.array <$> View.zeroed elt shape) :=
    fun elt shape => (zeroed_inStep elt shape).bind fun _ v u _ h => .pure ⟨v, u, rfl, rfl, h⟩
  cases hf.likewise with
  | scalar x => exact fresh _ _
  | array h =>
    simp only [h.elt, h.shape]
    exact fresh _ _
  | _ => exact .fail

theorem FreshArrays.store (hk : k.contents) (h : FreshArrays w a b) (hidx : Likes k w idx idx')
    (hx : Likes k w x x') : InStep k w (fun _ _ _ => True) (store a idx x) (store b idx' x') := by
  obtain ⟨v, u, rfl, rfl, h⟩ := h
  exact h.write hk hidx hx

end Eval

/-! ## Adverbs -/

namespace Adverb

open Eval (domain)

variable {k : Likeness} {w : Pairing} {call call' : Caller} {f f' c c' : Value}
  {o o' : Option Value} {xs ys : List Value}

/-- The operations on values are in step on alike values. -/
def lockstep (hcall : CallersAlike k call call') : Parallel (domain call) (domain call') where
  World := Pairing
  Below := (· ≤ ·)
  Alike := InStep k
  Val := Likes k
  Fn := Likes k
  Room := Eval.FreshArrays
  trans := le_trans
  mono := Likes.mono
  fn_mono := Likes.mono
  room_mono := Eval.FreshArrays.mono
  filled := Eval.FreshArrays.likes
  pure h := .pure (h _ le_rfl)
  fail _ := .fail
  bind := .bind
  rank h := h.rank
  isNothing h := h.isNothing
  int _ := rfl
  wholeAxis := rfl
  tuple h := ⟨_, rfl, Value.alikeList_iff.mpr h⟩
  index := Eval.index_inStep hcall.contents
  extent axis h := Eval.extentAlong_inStep h axis
  checkExtents axis h := Eval.checkExtents_inStep axis h
  invoke := Eval.invoke_inStep hcall
  loop hlo hhi hbody := Eval.forRange_inStep hlo hhi trivial fun w' _ _ _ hle _ => hbody w' _ _ hle rfl
  accumulate hlo hhi ha hbody := Eval.forRange_inStep hlo hhi ha fun w' a b _ hle hab => hbody w' a b _ _ hle hab rfl
  alloc := Eval.allocRoom_inStep
  store h hi hx := h.store hcall.contents hi hx

theorem lockstep_maybe (hcall : CallersAlike k call call') (h : OptionAlike k w.rel o o') :
    (lockstep hcall).Maybe w o o' := by
  cases o <;> cases o' <;> exact h

theorem applyAt_inStep (hcall : CallersAlike k call call') (hf : Likes k w f f') (hxs : List.Forall₂ (Likes k w) xs ys)
    (axis : Nat) (hidx : Likes k w idx idx') :
    InStep k w (Likes k) (applyAt (domain call) f xs axis idx) (applyAt (domain call') f' ys axis idx') :=
  (lockstep hcall).applyAt hf hxs axis hidx

theorem seed_inStep (hcall : CallersAlike k call call') (hf : Likes k w f f') (hc : Likes k w c c')
    (ho : OptionAlike k w.rel o o') (hxs : List.Forall₂ (Likes k w) xs ys) (axis : Nat) :
    InStep k w (Likes k) (seed (domain call) f c o xs axis) (seed (domain call') f' c' o' ys axis) :=
  (lockstep hcall).seed hf hc (lockstep_maybe hcall ho) hxs axis

end Adverb

namespace Eval

variable {k : Likeness} {w : Pairing} {call call' : Caller}

theorem broadcastLike_inStep (hk : k.contents) {i i' : Value} (hi : Likes k w i i') (hx : Likes k w x x') :
    InStep k w (Likes k) (broadcastLike i x) (broadcastLike i' x') := by
  cases hx.likewise with
  | array h =>
    simp only [broadcastLike, h.elt, h.shape]
    refine (zeroed_inStep _ _).bind fun w1 r r' hle hr => ?_
    have hidx : Likes k w1 (.tuple []) (.tuple []) := ⟨_, rfl, rfl⟩
    refine (hr.write hk hidx (hi.mono hle)).bind fun w2 _ _ hle' _ => ?_
    exact .pure (hr.mono hle').likes
  | _ => exact .pure hi

theorem OptionAlike.getD {o o' : Option Value} {d d' : Value} (h : OptionAlike k w.rel o o') (hd : Likes k w d d') :
    Likes k w (o.getD d) (o'.getD d') := by
  cases o <;> cases o'
  · exact hd
  · exact h.elim
  · exact h.elim
  · exact h

theorem tiledReduce_inStep (hcall : CallersAlike k call call') {f f' c c' i i' : Value} (hf : Likes k w f f')
    (hc : Likes k w c c') (hi : Likes k w i i') {xs ys : List Value} (hxs : List.Forall₂ (Likes k w) xs ys)
    (axes : List Nat) : InStep k w (Likes k) (tiledReduce call f c i xs axes) (tiledReduce call' f' c' i' ys axes) := by
  cases hxs with
  | nil => exact .fail
  | @cons x y xs ys hx hxs =>
    cases axes with
    | nil => exact .fail
    | cons axis axes =>
      refine (extentAlong_inStep hx axis).bind fun w1 n n' h1 hn => ?_
      refine .lift_bind hn.asInt fun m => ?_
      refine (countUp_inStep (Q := fun w => OptionAlike k w.rel) _ _ (show OptionAlike k w1.rel none none from trivial)
        fun w' a b j h' hab => ?_).bind fun w3 a b h3 hab => .pure (OptionAlike.getD hab (hi.mono (h1.trans h3)))
      have hle' := h1.trans h'
      -- the arguments are sliced along their axes, pair by pair
      have hzip : List.Forall₂ (fun p q => Likes k w' p.1 q.1 ∧ p.2 = q.2) ((x :: xs).zip (axis :: axes))
          ((y :: ys).zip (axis :: axes)) := by
        have := Likes.list_mono hle' (.cons hx hxs)
        generalize x :: xs = xs at this
        generalize y :: ys = ys at this
        generalize axis :: axes = axes
        induction this generalizing axes with
        | nil => exact .nil
        | cons h _ ih =>
          cases axes with
          | nil => exact .nil
          | cons axis axes => exact .cons ⟨h, rfl⟩ (ih axes)
      refine (InStep.mapM (S := fun w (p q : Value × Nat) => Likes k w p.1 q.1 ∧ p.2 = q.2) (P := Likes k)
        (fun hle h => ⟨h.1.mono hle, h.2⟩) Likes.mono hzip fun w'' p q _ h => ?_).bind fun w4 ts ts' h4 hts => ?_
      · obtain ⟨h, e⟩ := h
        simp only [e]
        exact (Adverb.lockstep hcall).sliceAlong h _ rfl
      have h4' := hle'.trans h4
      refine (invoke_inStep hcall (hf.mono h4') hts).bind fun w5 r r' h5 hr => ?_
      have h5' := h4'.trans h5
      have next : ∀ w6 acc acc', w5 ≤ w6 → Likes k w6 acc acc' →
          InStep k w6 (fun w => OptionAlike k w.rel) (do return some (← invoke call c [acc, r]))
            (do return some (← invoke call' c' [acc', r'])) := fun w6 acc acc' h6 hacc =>
        (invoke_inStep hcall (hc.mono (h5'.trans h6)) (.cons hacc (.cons (hr.mono h6) .nil))).bind
          fun w7 v v' h7 hv => .pure hv
      cases a <;> cases b
      · exact (broadcastLike_inStep hcall.contents (hi.mono h5') hr).bind next
      · exact hab.elim
      · exact hab.elim
      · exact next w5 _ _ le_rfl (Likes.mono (h4.trans h5) hab)

end Eval

end ArrayIR
