/-
  ArrayIR.Proofs.Trips — how often the two halves of an unrolled loop run.

  A loop from `start` to `stop` by `step` is split at `start + q * (n * step)`, where
  `q` is the range divided by the long step, toward zero. The first half takes `q`
  long steps, each for `n` short ones, and the second half the short steps left over
  (`tripCount_split`). That holds for either sign of the step, and when the loop does
  not run at all: then the split is between `stop` and `start`, and neither half runs.

  None of the intermediate results leaves 64 bits, if the range and the long step do
  not (`split_int64`).

  `visits` are the counters that a loop upwards should visit, and `steps` those that a
  number of trips does visit. They are the same (`visits_eq_steps`).
-/

import ArrayIR.Eval
import Mathlib.Tactic.Linarith
import Mathlib.Tactic.Ring

namespace ArrayIR

open Int64 (maxValue minValue ofInt ofInt_mul ofInt_toInt ofNat)

namespace Eval

theorem tripCount_neg (start stop step : Int) : tripCount (-start) (-stop) (-step) = tripCount start stop step := by
  unfold tripCount
  rcases Int.lt_trichotomy step 0 with h | h | h
  · rw [if_pos (by omega), if_neg (by omega), if_pos h]
    congr 2
    omega
  · subst h
    rfl
  · rw [if_neg (by omega), if_pos (by omega), if_pos h]
    congr 2
    · omega
    · omega

variable {start step stop mid q : Int} {n : Nat}

theorem tripCount_of_le (hs : 0 < step) (h : stop ≤ start) : tripCount start stop step = 0 := by
  unfold tripCount
  rw [if_pos hs]
  have : (stop - start + step - 1) / step < 1 := Int.ediv_lt_of_lt_mul hs (by omega)
  omega

/-- Starting some steps later leaves so many trips fewer. -/
theorem tripCount_add (hs : 0 < step) {k : Nat} (h : start + k * step ≤ stop) :
    tripCount start stop step = k + tripCount (start + k * step) stop step := by
  unfold tripCount
  rw [if_pos hs, if_pos hs]
  have e : stop - start + step - 1 = (stop - (start + k * step) + step - 1) + k * step := by ring
  rw [e, Int.add_mul_ediv_right _ _ (Int.ne_of_gt hs)]
  have hn : 0 ≤ (stop - (start + k * step) + step - 1) / step := Int.ediv_nonneg (by omega) (by omega)
  omega

theorem tripCount_of_lt (hs : 0 < step) (h : start < stop) :
    tripCount start stop step = tripCount (start + step) stop step + 1 := by
  unfold tripCount
  rw [if_pos hs, if_pos hs]
  have e : stop - start + step - 1 = (stop - (start + step) + step - 1) + step := by ring
  rw [e, Int.add_ediv_of_dvd_right (Int.dvd_refl step), Int.ediv_self (Int.ne_of_gt hs)]
  have hn : 0 ≤ (stop - (start + step) + step - 1) / step := Int.ediv_nonneg (by omega) (by omega)
  omega

/-- A whole number of steps takes that many trips. -/
theorem tripCount_exact (hs : 0 < step) (k : Nat) : tripCount start (start + k * step) step = k := by
  rw [tripCount_add hs (Int.le_refl _), tripCount_of_le hs (Int.le_refl _)]
  rfl

/-- Where a loop is split that takes long steps first. -/
structure Split (start stop step : Int) (n : Nat) (q mid : Int) : Prop where
  quotient : q = (stop - start).tdiv (n * step)
  mid : mid = start + q * (n * step)

theorem tripCount_split_of_pos (h : Split start stop step n q mid) (hn : 0 < n) (hs : 0 < step) :
    tripCount start mid (n * step) = q.toNat ∧ tripCount start stop step = q.toNat * n + tripCount mid stop step ∧
      (0 ≤ q ∨ tripCount mid stop step = 0) := by
  have hbig : 0 < (n : Int) * step := Int.mul_pos (by omega) hs
  obtain ⟨hq, hm⟩ := h
  by_cases hr : 0 ≤ stop - start
  · -- upward: `q` is a natural number, and the split is not beyond the end
    rw [Int.tdiv_eq_ediv_of_nonneg hr] at hq
    have hq0 : 0 ≤ q := hq ▸ Int.ediv_nonneg hr (Int.le_of_lt hbig)
    have hle : q * (n * step) ≤ stop - start := hq ▸ Int.ediv_mul_le _ (Int.ne_of_gt hbig)
    obtain ⟨k, rfl⟩ := Int.eq_ofNat_of_zero_le hq0
    rw [hm, Int.toNat_natCast]
    refine ⟨tripCount_exact hbig k, ?_, .inl hq0⟩
    have e : (k : Int) * (n * step) = ((k * n : Nat) : Int) * step := by push_cast; ring
    rw [e] at hle ⊢
    exact tripCount_add hs (by omega)
  · -- nothing to do: the split is between the end and the start
    have hneg : q = -((start - stop) / (n * step)) := by
      rw [hq, ← Int.tdiv_eq_ediv_of_nonneg (by omega), ← Int.neg_tdiv, Int.neg_sub]
    have hq0 : q ≤ 0 := by
      have := Int.ediv_nonneg (a := start - stop) (by omega) (Int.le_of_lt hbig)
      omega
    have hge : stop - start ≤ q * (n * step) := by
      have := Int.ediv_mul_le (start - stop) (Int.ne_of_gt hbig)
      rw [hneg, Int.neg_mul]
      omega
    have hmid : mid ≤ start := by
      have := Int.mul_nonpos_of_nonpos_of_nonneg hq0 (Int.le_of_lt hbig)
      omega
    have h0 : q.toNat = 0 := by omega
    have hrest : tripCount mid stop step = 0 := tripCount_of_le hs (by omega)
    rw [h0, tripCount_of_le hbig hmid, hrest, tripCount_of_le hs (by omega)]
    exact ⟨rfl, by omega, .inr rfl⟩

/-- The first half takes `q` long steps, and the second the steps left over; if `q` is negative neither
half runs. -/
theorem tripCount_split (h : Split start stop step n q mid) (hn : 0 < n) (hs : step ≠ 0) :
    tripCount start mid (n * step) = q.toNat ∧ tripCount start stop step = q.toNat * n + tripCount mid stop step ∧
      (0 ≤ q ∨ tripCount mid stop step = 0) := by
  rcases Int.lt_or_gt_of_ne hs with hs | hs
  · -- downward loops are upward ones seen from the other side of zero
    have h' : Split (-start) (-stop) (-step) n q (-mid) := by
      refine ⟨?_, ?_⟩
      · rw [h.quotient, Int.mul_neg, Int.tdiv_neg, ← Int.neg_tdiv]
        congr 1
        omega
      · rw [h.mid]
        ring
    have := tripCount_split_of_pos h' hn (by omega)
    rw [Int.mul_neg, tripCount_neg, tripCount_neg, tripCount_neg] at this
    exact this
  · exact tripCount_split_of_pos h hn hs

/-! ## Counters -/

/-- The counters from `start` on, step by step, that are below `stop`. -/
def visits (start stop step : Int) : List Int :=
  if 0 < step ∧ start < stop then start :: visits (start + step) stop step else []
termination_by (stop - start).toNat
decreasing_by omega

/-- The counters of so many trips from `i` on. -/
def steps (step : Int) : Nat → Int → List Int
  | 0, _ => []
  | k + 1, i => i :: steps step k (i + step)

theorem visits_eq_steps (hs : 0 < step) : visits start stop step = steps step (tripCount start stop step) start := by
  fun_induction visits start stop step with
  | case1 start h ih => rw [tripCount_of_lt hs h.2, steps, ih]
  | case2 start h =>
    rw [tripCount_of_le hs (by omega)]
    rfl

theorem mem_visits {i : Int} (h : i ∈ visits start stop step) : start ≤ i ∧ i < stop := by
  fun_induction visits start stop step with
  | case1 start hs ih =>
    rcases List.mem_cons.mp h with rfl | h
    · omega
    · have := ih h
      omega
  | case2 => exact absurd h List.not_mem_nil

theorem steps_add (step : Int) (m k : Nat) (i : Int) :
    steps step (m + k) i = steps step m i ++ steps step k (i + m * step) := by
  induction m generalizing i with
  | zero => simp [steps]
  | succ m ih =>
    rw [Nat.succ_add, steps, steps, ih, List.cons_append]
    congr 3
    push_cast
    ring

/-- Long steps with the short ones from each of them on. -/
theorem steps_mul (step : Int) (n q : Nat) (i : Int) :
    (steps (n * step) q i).flatMap (steps step n) = steps step (q * n) i := by
  induction q generalizing i with
  | zero => rw [Nat.zero_mul]; rfl
  | succ q ih => rw [steps, List.flatMap_cons, ih, Nat.succ_mul, Nat.add_comm, steps_add]

/-- The counters of a loop are those of the long steps, with the short ones from each on, and those left over. -/
theorem visits_split (h : Split start stop step n q mid) (hn : 0 < n) (hs : 0 < step) :
    visits start stop step = (steps (n * step) q.toNat start).flatMap (steps step n) ++ visits mid stop step := by
  obtain ⟨-, htotal, hsign⟩ := tripCount_split_of_pos h hn hs
  rw [visits_eq_steps hs, visits_eq_steps hs, steps_mul, htotal, steps_add]
  rcases hsign with hq | h0
  · have hmid : start + (q.toNat * n : Nat) * step = mid := by
      rw [h.mid, Nat.cast_mul, Int.toNat_of_nonneg hq]
      ring
    rw [hmid]
  · rw [h0]
    rfl

/-! ## The split in 64 bits -/

/-- The integer fits 64 bits. -/
def Fits (i : Int) : Prop := minValue.toInt ≤ i ∧ i ≤ maxValue.toInt

instance (i : Int) : Decidable (Fits i) := inferInstanceAs (Decidable (_ ∧ _))

theorem Fits.toInt_ofInt {i : Int} (h : Fits i) : (ofInt i).toInt = i := by
  obtain ⟨h1, h2⟩ := h
  have e1 : minValue.toInt = -9223372036854775808 := by decide
  have e2 : maxValue.toInt = 9223372036854775807 := by decide
  rw [e1] at h1
  rw [e2] at h2
  exact Int64.toInt_ofInt_of_le (by norm_num; omega) (by norm_num; omega)

theorem fits_toInt (i : Int64) : Fits i.toInt := ⟨Int64.minValue_le_toInt i, Int64.toInt_le i⟩

theorem Fits.of_between {a b c : Int} (ha : Fits a) (hb : Fits b) (h : a ≤ c ∧ c ≤ b ∨ b ≤ c ∧ c ≤ a) : Fits c := by
  unfold Fits at *
  omega

theorem fits_zero : Fits 0 := by decide

/-- A multiple of the divisor nearest to a number from zero is between zero and it. -/
theorem tdiv_mul_between (a b : Int) : 0 ≤ a.tdiv b * b ∧ a.tdiv b * b ≤ a ∨ a ≤ a.tdiv b * b ∧ a.tdiv b * b ≤ 0 := by
  have he : a.tdiv b * b = a - a.tmod b := by
    have := Int.tmod_add_mul_tdiv a b
    rw [Int.mul_comm]
    omega
  have hm : (a.tmod b).natAbs ≤ a.natAbs := by
    rw [Int.natAbs_tmod]
    exact Nat.mod_le _ _
  rcases Int.le_total 0 a with ha | ha
  · have := Int.tmod_nonneg b ha
    omega
  · have := Int.tmod_nonneg b (Int.neg_nonneg_of_nonpos ha)
    rw [Int.neg_tmod] at this
    omega

/-- Division by more than one leaves room. -/
theorem Fits.tdiv {a b : Int} (h : Fits a) (hb : 1 < b.natAbs) : Fits (a.tdiv b) := by
  have e1 : minValue.toInt = -9223372036854775808 := by decide
  have e2 : maxValue.toInt = 9223372036854775807 := by decide
  have hq : (a.tdiv b).natAbs ≤ a.natAbs / 2 := by
    rw [Int.natAbs_tdiv]
    exact Nat.div_le_div_left hb (by decide)
  simp only [Fits, e1, e2] at h ⊢
  omega

/-- The split, computed in 64 bits. -/
theorem split_int64 {start stop step : Int64} (hn : 1 < n) (hs : step ≠ 0) (hrange : Fits (stop.toInt - start.toInt))
    (hbig : Fits (n * step.toInt)) :
    (ofNat n * step).toInt = n * step.toInt ∧ ofNat n * step ≠ 0 ∧
      Split start.toInt stop.toInt step.toInt n ((stop - start) / (ofNat n * step)).toInt
        (start + (stop - start) / (ofNat n * step) * (ofNat n * step)).toInt := by
  have hs' : step.toInt ≠ 0 := fun e => hs (Int64.toInt_inj.mp (e.trans rfl))
  have hr : stop - start = ofInt (stop.toInt - start.toInt) := by
    rw [Int64.ofInt_sub, ofInt_toInt, ofInt_toInt]
  have hb : ofNat n * step = ofInt (n * step.toInt) := by
    rw [ofInt_mul, ofInt_toInt]
    rfl
  have habs : 1 < ((n : Int) * step.toInt).natAbs := by
    rw [Int.natAbs_mul, Int.natAbs_natCast]
    have : 1 ≤ step.toInt.natAbs := by omega
    exact Nat.lt_of_lt_of_le hn (Nat.le_mul_of_pos_right n this)
  have hq := hrange.tdiv habs
  have hbetween := tdiv_mul_between (stop.toInt - start.toInt) (n * step.toInt)
  have hq' : ofInt (stop.toInt - start.toInt) / ofInt (n * step.toInt) =
      ofInt ((stop.toInt - start.toInt).tdiv (n * step.toInt)) :=
    (Int64.ofInt_tdiv hrange.1 hrange.2 hbig.1 hbig.2).symm
  rw [hr, hb, hq', ← ofInt_mul]
  refine ⟨hbig.toInt_ofInt, fun e => ?_, hq.toInt_ofInt, ?_⟩
  · have := hbig.toInt_ofInt
    rw [e] at this
    rw [← this] at habs
    exact absurd habs (by decide)
  · have hmid : start + ofInt ((stop.toInt - start.toInt).tdiv (n * step.toInt) * (n * step.toInt)) =
        ofInt (start.toInt + (stop.toInt - start.toInt).tdiv (n * step.toInt) * (n * step.toInt)) := by
      rw [Int64.ofInt_add, ofInt_toInt]
    rw [hmid, hq.toInt_ofInt]
    exact Fits.toInt_ofInt ((fits_toInt start).of_between (fits_toInt stop) (by omega))

end Eval

end ArrayIR
