/-
  ArrayIR.Proofs.Shapes.Slice — inferred extents of slices.

  Resolving a slice brings both its bounds into the axis; inferring its extent only
  brings the stop down to the end of the axis. The two extents are the same just when
  the slice does not end before it starts, and starts on the axis or is empty as it is
  written (`Shapes.sliceExtent_agrees_iff`). Any other slice resolves to some extent,
  and what is inferred for it is a different number, also after wrapping around.
-/

import ArrayIR.Proofs.Shapes.Known
import ArrayIR.Shape.Infer

namespace ArrayIR

/-! ## What is inferred -/

namespace Shape

/-- The bound of a slice: an absent one is not there, and a known one is known to be it. -/
def Bound.Describes (K : Expr → Scalar → Prop) : Bound → Option Int64 → Prop
  | .absent, o => o = none
  | .known e, none => e.ty = .nothing
  | .known e, some i => K e (.int i)
  | .unknown, _ => True

/-- The step of a slice; without one it is 1. -/
def stepDescribes (K : Expr → Scalar → Prop) : Bound → Int64 → Prop
  | .absent, k => k = 1
  | .known e, k => K e (.int k) ∨ e.int? = none
  | .unknown, _ => True

end Shape

namespace Shapes

open Shape

variable {c : Site} {s : Session} {L : Locals}

theorem min_supplies {e f : Expr} {i j : Int64} (he : Knows c L e (.int i))
    (hf : Knows c L f (.int j)) (name : String) :
    Supplies c s L (fun L' y => Knows c L' y (.int (if i ≤ j then i else j))) (Build.min e f name) :=
  prim_supplies (.cons he (.cons hf .nil)) rfl name

theorem sub_supplies {e f : Expr} {i j : Int64} (he : Knows c L e (.int i))
    (hf : Knows c L f (.int j)) (name : String) :
    Supplies c s L (fun L' y => Knows c L' y (.int (i - j))) (Build.sub e f name) :=
  prim_supplies (.cons he (.cons hf .nil)) rfl name

theorem toInt_min (i j : Int64) : (if i ≤ j then i else j).toInt = min i.toInt j.toInt := by
  by_cases h : i ≤ j
  · rw [if_pos h]
    have := Int64.le_iff_toInt_le.mp h
    omega
  · rw [if_neg h]
    have : ¬ i.toInt ≤ j.toInt := fun hle => h (Int64.le_iff_toInt_le.mpr hle)
    omega

/-- The step is checked, the stop comes next, and the start last. -/
theorem sliceExtent_eq (dim : Expr) (start stop step : Bound) : sliceExtent dim start stop step = ((match step with
    | .absent => pure ()
    | .known e => if e.int? = some 1 then pure () else fail (.shapeInference .sliceStep)
    | .unknown => fail (.shapeInference .sliceStep) : Build Unit) >>= fun _ =>
      (match stop with
        | .absent => pure dim
        | .known e => Build.min e dim "slice_stop"
        | .unknown => fail (.shapeInference .unknownBound) : Build Expr) >>= fun top =>
          match start with
          | .absent => return top
          | .known e => Build.sub top e "extent"
          | .unknown => fail (.shapeInference .unknownBound)) := by
  unfold sliceExtent
  cases step with
  | absent => cases stop <;> rfl
  | unknown => rfl
  | known e =>
    dsimp only
    by_cases he : e.int? = some 1
    · rw [if_pos he, if_pos he]
      cases stop <;> rfl
    · rw [if_neg he, if_neg he]
      rfl

/-- What is inferred for a slice: the distance from its start to its stop or to the end of the axis, as 64 bits. -/
theorem sliceExtent_computes {dim : Expr} {d : Int64} {start stop step : Bound} {i j : Option Int64} {k : Int64}
    (hdim : Knows c L dim (.int d)) (hstart : Bound.Describes (Knows c L) start i)
    (hstop : Bound.Describes (Knows c L) stop j) (hstep : stepDescribes (Knows c L) step k) :
    Supplies c s L (fun L' e => k = 1 ∧ Knows c L' e
      (.int (Int64.ofInt (min ((j.map (·.toInt)).getD d.toInt) d.toInt - (i.map (·.toInt)).getD 0))))
      (sliceExtent dim start stop step) := by
  rw [sliceExtent_eq]
  refine Supplies.bind (P := fun _ _ => k = 1) ?_ fun L1 _ hL1 hk => ?_
  · cases step with
    | absent => exact .pure hstep
    | unknown => exact .fail
    | known e =>
      dsimp only
      split
      · rename_i he
        refine .pure ?_
        rcases hstep with hk | hnone
        · cases hk.of_int? he
          rfl
        · rw [hnone] at he
          cases he
      · exact .fail
  · refine Supplies.bind (P := fun L2 e => ∃ m : Int64, Knows c L2 e (.int m) ∧
      m.toInt = min ((j.map (·.toInt)).getD d.toInt) d.toInt) ?_ fun L2 top hL2 htop => ?_
    · cases stop with
      | absent =>
        obtain rfl : j = none := hstop
        refine .pure ⟨d, hdim.mono hL1, ?_⟩
        show d.toInt = min d.toInt d.toInt
        omega
      | unknown => exact .fail
      | known e =>
        cases j with
        | none =>
          -- a bound that turns out to be nothing is not a scalar, and nothing is emitted for it
          intro b a b' _ hx
          obtain ⟨_, _, htys, -⟩ := state_bind_ok hx
          obtain ⟨htys, -⟩ := state_lift_ok htys
          have hty : e.ty = .nothing := hstop
          rw [Build.operandTys, hty] at htys
          cases htys
        | some m =>
          have hm : Knows c L e (.int m) := hstop
          refine (min_supplies (hm.mono hL1) (hdim.mono hL1) "slice_stop").mono fun L2 y _ hy => ?_
          exact ⟨_, hy, toInt_min m d⟩
    · obtain ⟨m, hm, hmin⟩ := htop
      rw [← hmin]
      cases start with
      | absent =>
        obtain rfl : i = none := hstart
        refine .pure ⟨hk, ?_⟩
        have hsame : Int64.ofInt (m.toInt - 0) = m := by rw [Int.sub_zero, Int64.ofInt_toInt]
        exact hsame.symm ▸ hm
      | unknown => exact .fail
      | known e =>
        cases i with
        | none =>
          intro b a b' _ hx
          obtain ⟨_, _, htys, -⟩ := state_bind_ok hx
          obtain ⟨htys, -⟩ := state_lift_ok htys
          have hty : e.ty = .nothing := hstart
          rw [Build.operandTys, hm.ty] at htys
          dsimp only [Ty.scalar?] at htys
          rw [Build.operandTys, hty] at htys
          cases htys
        | some n =>
          have hn : Knows c L e (.int n) := hstart
          refine (sub_supplies hm (hn.mono (hL1.trans hL2)) "extent").mono fun L3 y _ hy => ⟨hk, ?_⟩
          have hsub : Int64.ofInt (m.toInt - n.toInt) = m - n := by
            rw [Int64.ofInt_sub, Int64.ofInt_toInt, Int64.ofInt_toInt]
          exact hsub.symm ▸ hy

end Shapes

/-! ## What is resolved -/

/-- The bounds of a slice of an axis of extent `d` need not be brought into it: those that are given are in
order, and a start ahead of the axis is also the stop. -/
def Bounded (d : Int) (start stop : Option Int64) : Prop :=
  let lo := (start.map (·.toInt)).getD 0
  let hi := (stop.map (·.toInt)).getD d
  lo ≤ min hi d ∧ (0 ≤ lo ∨ lo = hi)

instance (d : Int) (start stop : Option Int64) : Decidable (Bounded d start stop) := inferInstanceAs (Decidable (_ ∧ _))

/-- The positions between two bounds that are brought into an axis. -/
def clampedExtent (d lo hi : Int) : Int := clamp (clamp 0 d lo) d hi - clamp 0 d lo

/-- Without bringing the start into the axis the extent is the same just for such bounds, also after wrapping
around: the two are less than the range of 64 bits apart. -/
theorem toInt_ofInt_eq_clampedExtent_iff {d lo hi : Int64} (hd : 0 ≤ d.toInt) :
    (Int64.ofInt (min hi.toInt d.toInt - lo.toInt)).toInt = clampedExtent d.toInt lo.toInt hi.toInt ↔
      lo.toInt ≤ min hi.toInt d.toInt ∧ (0 ≤ lo.toInt ∨ lo.toInt = hi.toInt) := by
  have hd1 := Int64.toInt_lt d
  have hlo := Int64.le_toInt lo
  have hlo1 := Int64.toInt_lt lo
  have hhi := Int64.le_toInt hi
  have hhi1 := Int64.toInt_lt hi
  have hwrap := Int64.toInt_ofInt (n := min hi.toInt d.toInt - lo.toInt)
  rw [Int.bmod_def] at hwrap
  simp only [Int64.size] at hwrap
  rw [hwrap]
  unfold clampedExtent clamp
  split <;> split <;> split <;> (try split) <;> omega

/-- An absent bound has a default. -/
theorem getD_toInt (o : Option Int64) (d : Int64) : (o.map (·.toInt)).getD d.toInt = (o.getD d).toInt := by
  cases o <;> rfl

theorem resolveAxis_unit (axis : Nat) (d stride : Int) (start stop : Option Int64) :
    ∃ off, View.resolveAxis axis d stride (.slice start stop 1) =
      .ok (off, [(clampedExtent d ((start.map (·.toInt)).getD 0) ((stop.map (·.toInt)).getD d), stride)]) := by
  have hone : (1 : Int64).toInt = 1 := by decide
  rw [View.resolveAxis, if_neg (by decide), hone]
  dsimp only
  rw [Int.tdiv_one, Int.mul_one, Int.add_sub_cancel]
  exact ⟨_, rfl⟩

namespace Shapes

open Shape Eval

variable {c : Site} {s : Session} {L : Locals} {b b' : Builder}

/-- If an extent is inferred for a slice, the step of the slice is one, and the emitted code runs and gives an
extent. It is the one that resolving the slice leaves just when the bounds need not be brought into the axis. -/
theorem sliceExtent_agrees_iff {dim e : Expr} {d k : Int64} {start stop step : Bound} {i j : Option Int64}
    (hready : Ready s L b) (hdim : Knows c L dim (.int d)) (hd : 0 ≤ d.toInt)
    (hstart : Bound.Describes (Knows c L) start i) (hstop : Bound.Describes (Knows c L) stop j)
    (hstep : stepDescribes (Knows c L) step k) (h : sliceExtent dim start stop step b = .ok e b') :
    ∃ out n, b'.block = b.block ++ out ∧
      (∀ fuel st, c.store.Grows st → ∃ st', runThen c.call fuel out L e st = .ok (.int n) st' ∧ st.Grows st') ∧
      ∀ axis stride, ∃ off m, View.resolveAxis axis d.toInt stride (.slice i j k) = .ok (off, [(m, stride)]) ∧
        (n.toInt = m ↔ Bounded d.toInt i j) := by
  obtain ⟨out, L', hadds, rfl, hknows⟩ := sliceExtent_computes hdim hstart hstop hstep hready h
  refine ⟨out, Int64.ofInt (min ((j.map (·.toInt)).getD d.toInt) d.toInt - (i.map (·.toInt)).getD 0), hadds.emits.block,
    fun fuel st hst => ?_, fun axis stride => ?_⟩
  · obtain ⟨M, st₁, hrun, hst₁, hM⟩ := hadds.run fuel (.refl L) hst
    obtain ⟨st₂, hval, hst₂⟩ := (hknows.mono hM).stands.value st₁ (hst.trans hst₁)
    refine ⟨st₂, ?_, hst₁.trans hst₂⟩
    rw [runThen, state_bind_of_ok hrun]
    exact hval
  · obtain ⟨off, hoff⟩ := resolveAxis_unit axis d.toInt stride i j
    refine ⟨off, _, hoff, ?_⟩
    have hlo : (i.map (·.toInt)).getD 0 = (i.getD 0).toInt := getD_toInt i 0
    unfold Bounded
    rw [hlo, getD_toInt j d]
    exact toInt_ofInt_eq_clampedExtent_iff hd

/-- From the second position of five up to `k`, which is nine. -/
theorem sliceExtent_agrees_past_end :
    ∃ e b', sliceExtent (.int64 5) (.known (.int64 1)) (.known (.var "k" .i64)) .absent ⟨{}, .empty, []⟩ = .ok e b' ∧
      ∃ out n, b'.block = [] ++ out ∧ n.toInt = 4 ∧ ∀ fuel st, Store.empty.Grows st → ∃ st', st.Grows st' ∧
        runThen (fun _ _ => throw .exhausted) fuel out (NameMap.empty.insert "k" (.int 9)) e st = .ok (.int n) st' := by
  refine ⟨_, _, rfl, ?_⟩
  have hready : Ready {} (NameMap.empty.insert "k" (.int 9)) ⟨{}, .empty, []⟩ := by
    refine ⟨rfl, fun a i _ => NameMap.get?_insert_of_ne _ _ fun h => ?_⟩
    have hdot := congrArg (fun s : String => '.' ∈ s.toList) h
    simp [numbered] at hdot
  have hk : Knows ⟨fun _ _ => throw .exhausted, .empty⟩ (NameMap.empty.insert "k" (.int 9)) (.var "k" .i64) (.int 9) :=
    Knows.var (x := .int 9) (.var rfl _)
  have hstart : Bound.Describes (Knows ⟨fun _ _ => throw .exhausted, .empty⟩ (NameMap.empty.insert "k" (.int 9)))
      (.known (.int64 1)) (some 1) := .int64 1
  have hstop : Bound.Describes (Knows ⟨fun _ _ => throw .exhausted, .empty⟩ (NameMap.empty.insert "k" (.int 9)))
      (.known (.var "k" .i64)) (some 9) := hk
  have hstep :
      stepDescribes (Knows ⟨fun _ _ => throw .exhausted, .empty⟩ (NameMap.empty.insert "k" (.int 9))) .absent 1 := rfl
  obtain ⟨out, n, hout, hrun, hagree⟩ := sliceExtent_agrees_iff hready (.int64 5) (by decide) hstart hstop hstep rfl
  obtain ⟨off, m, hm, hiff⟩ := hagree 0 1
  cases hm
  refine ⟨out, n, hout, hiff.mpr (by decide), fun fuel st hst => ?_⟩
  obtain ⟨st', hval, hgrows⟩ := hrun fuel st hst
  exact ⟨st', hgrows, hval⟩

/-- A slice that starts past the end is empty, and the extent inferred for it is negative. -/
theorem start_past_end_inferred_negative :
    sliceExtent (.int64 3) (.known (.int64 5)) .absent .absent ⟨{}, .empty, []⟩ = .ok (.int64 (-2)) ⟨{}, .empty, []⟩ ∧
      View.resolveAxis 0 3 1 (.slice (some 5) none 1) = .ok (3, [(0, 1)]) ∧ ¬ Bounded 3 (some 5) none :=
  ⟨rfl, rfl, by decide⟩

end Shapes

end ArrayIR
