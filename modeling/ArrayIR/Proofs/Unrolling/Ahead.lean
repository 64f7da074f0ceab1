/-
  ArrayIR.Proofs.Unrolling.Ahead — running what stands ahead of an unrolled loop.

  The bounds of the unrolled loop and the offsets of its copies are computed ahead of
  it. Doing so binds new names to the right integers (`Bounds.run`, `Copies.run`),
  and changes nothing else: no other name and no buffer.
-/

import ArrayIR.Proofs.Trips
import ArrayIR.Proofs.Unrolling.Emitted

namespace ArrayIR

open Int64 (ofInt ofInt_mul ofNat)
open Eval

namespace Eval

theorem block_append_of_next {call : Caller} {fuel : Nat} {ss ts : List Stmt} {L L₁ : Locals} {st st₁ : Store}
    (h : block call fuel ss L st = .ok (.next L₁) st₁) :
    block call fuel (ss ++ ts) L st = block call fuel ts L₁ st₁ := by
  rw [block_append]
  show EStateM.bind (block call fuel ss L) _ st = _
  rw [EStateM.bind, h]
  rfl

end Eval

/-- Running `out` goes on with locals that differ in what `out` binds only, and changes no buffer. -/
structure Ahead (call : Caller) (fuel : Nat) (out : Block) (L : Locals) (st : Store) (L₁ : Locals) (st₁ : Store) :
    Prop where
  run : block call fuel out L st = .ok (.next L₁) st₁
  grows : st.Grows st₁
  keeps : ∀ x, x ∉ Stmt.blockBinds out → L₁.get? x = L.get? x

namespace Ahead

variable {call : Caller} {fuel : Nat} {P : Store → Prop} {out out' : Block} {L L₁ L₂ : Locals} {st st₁ st₂ : Store}

theorem of_run (run : block call fuel out L st = .ok (.next L₁) st₁) (grows : st.Grows st₁) :
    Ahead call fuel out L st L₁ st₁ := ⟨run, grows, block_within run⟩

theorem nil (call : Caller) (fuel : Nat) (L : Locals) (st : Store) : Ahead call fuel [] L st L st :=
  of_run (by rw [block_nil]; rfl) (.refl st)

theorem append (h : Ahead call fuel out L st L₁ st₁) (h' : Ahead call fuel out' L₁ st₁ L₂ st₂) :
    Ahead call fuel (out ++ out') L st L₂ st₂ :=
  of_run (by rw [block_append_of_next h.run, h'.run]) (h.grows.trans h'.grows)

theorem holds (h : Ahead call fuel out L st L₁ st₁) {e : Expr} {i : Int64} (hg : e.Holds i L)
    (hd : ∀ x ∈ e.reads, x ∉ Stmt.blockBinds out) : e.Holds i L₁ :=
  hg.congr fun x hx => h.keeps x (hd x hx)

end Ahead

namespace ScalarTy

/-- The integer is in the range of the type. -/
def Fits (t : ScalarTy) (i : Int) : Prop :=
  match t with
  | .i32 => Int32.minValue.toInt ≤ i ∧ i ≤ Int32.maxValue.toInt
  | _ => Eval.Fits i

instance (t : ScalarTy) (i : Int) : Decidable (t.Fits i) :=
  match t with
  | .i32 => inferInstanceAs (Decidable (_ ∧ _))
  | .bool | .i64 | .f32 | .f64 => inferInstanceAs (Decidable (Eval.Fits i))

theorem fits_zero (t : ScalarTy) : t.Fits 0 := by cases t <;> decide

variable {t : ScalarTy} {a b c i : Int}

theorem Fits.of_between (ha : t.Fits a) (hb : t.Fits b) (h : a ≤ c ∧ c ≤ b ∨ b ≤ c ∧ c ≤ a) : t.Fits c := by
  cases t with
  | i32 =>
    unfold Fits at *
    omega
  | _ => exact Eval.Fits.of_between ha hb h

theorem Fits.wide (h : t.Fits i) : Eval.Fits i := by
  cases t with
  | i32 =>
    have low : Int64.minValue.toInt ≤ Int32.minValue.toInt := by decide
    have high : Int32.maxValue.toInt ≤ Int64.maxValue.toInt := by decide
    exact ⟨Int.le_trans low h.1, Int.le_trans h.2 high⟩
  | _ => exact h

theorem Fits.holds (ht : t.isInt = true) (h : t.Fits i) : t.holds (.ofInt i) = true := by
  cases t with
  | i32 =>
    have : (ofInt i).toInt32.toInt64 = .ofInt i := by rw [Int64.toInt32_ofInt, Int32.toInt64_ofInt h.1 h.2]
    exact decide_eq_true this
  | i64 => rfl
  | _ => cases ht

end ScalarTy

namespace Unrolling

variable {call : Caller} {P : Store → Prop} {t : ScalarTy} {l : Loop} {L : Locals} {st : Store}

/-- The loop's counter and bounds are integers of the type. -/
structure Loop.Counts (l : Loop) (t : ScalarTy) : Prop where
  int : t.isInt = true
  counter : l.counterTy = .scalar t
  start : l.counter.start.Proper t
  stop : l.counter.stop.Proper t
  step : l.counter.step.Proper t

theorem Loop.Counts.const_eq (h : l.Counts t) (k : Nat) : l.const k = .int (ofNat k) t := by
  rw [Loop.const, h.counter]
  have hint := h.int
  cases t <;> first | rfl | cases hint

variable {k n : Nat} {s u d : Int64} {V : List VarName}

theorem Loop.Counts.const_proper (h : l.Counts t) (hk : t.holds (ofNat k) = true) : (l.const k).Proper t := by
  rw [h.const_eq]
  refine ⟨rfl, fun i hi => ?_⟩
  cases hi
  exact hk

theorem Loop.Counts.const_gives (h : l.Counts t) (hk : t.holds (ofNat k) = true) :
    Gives call P L (l.const k) (ofNat k) := by
  rw [h.const_eq]
  exact (Expr.Holds.int h.int hk L).gives call P

/-- The integers of a loop's header, in every store as `P` says. -/
structure Loop.Header (l : Loop) (call : Caller) (P : Store → Prop) (L : Locals) (s u d : Int64) : Prop where
  start : Gives call P L l.counter.start s
  stop : Gives call P L l.counter.stop u
  step : Gives call P L l.counter.step d

/-- The names that a loop's bounds depend on. -/
structure Loop.ReadsIn (l : Loop) (V : List VarName) : Prop where
  start : ∀ x ∈ l.counter.start.reads, x ∈ V
  stop : ∀ x ∈ l.counter.stop.reads, x ∈ V
  step : ∀ x ∈ l.counter.step.reads, x ∈ V

theorem Loop.Header.congr {L₁ : Locals} (h : l.Header call P L s u d) (hV : l.ReadsIn V)
    (hL : ∀ x ∈ V, L₁.get? x = L.get? x) : l.Header call P L₁ s u d :=
  ⟨h.start.congr fun x hx => hL x (hV.start x hx), h.stop.congr fun x hx => hL x (hV.stop x hx),
    h.step.congr fun x hx => hL x (hV.step x hx)⟩

/-- Where the unrolled loop stops, in 64 bits. -/
def middle (n : Nat) (s u d : Int64) : Int64 :=
  s + (u - s) / (ofNat n * d) * (ofNat n * d)

/-- All that is computed ahead of the unrolled loop is within the range of the type. -/
structure Stays (t : ScalarTy) (n : Nat) (s u d : Int64) : Prop where
  range : t.holds (u - s) = true
  long : t.holds (ofNat n * d) = true
  quotient : t.holds ((u - s) / (ofNat n * d)) = true
  length : t.holds ((u - s) / (ofNat n * d) * (ofNat n * d)) = true
  middle : t.holds (middle n s u d) = true
  number : ∀ k ≤ n, t.holds (ofNat k) = true
  offset : ∀ k < n, t.holds (d * ofNat k) = true

theorem stays_i64 (n : Nat) (s u d : Int64) : Stays .i64 n s u d :=
  ⟨rfl, rfl, rfl, rfl, rfl, fun _ _ => rfl, fun _ _ => rfl⟩

/-- If the range and the long step are within the range of the type, so is all the rest, and it is computed as if
there was no range. -/
theorem stays_of_fits (ht : t.isInt = true) (hn : 0 < n) {a b d : Int} (hd : 0 < d) (ha : t.Fits a) (hb : t.Fits b)
    (hrange : t.Fits (b - a)) (hlong : t.Fits (n * d)) :
    Stays t n (.ofInt a) (.ofInt b) (.ofInt d) ∧ ofNat n * .ofInt d = .ofInt (n * d) ∧
      ∃ mid, Split a b d n ((b - a).tdiv (n * d)) mid ∧ t.Fits mid ∧
        middle n (.ofInt a) (.ofInt b) (.ofInt d) = .ofInt mid := by
  have hlong0 : 0 < (n : Int) * d := Int.mul_pos (by omega) hd
  have hzero := ScalarTy.fits_zero t
  have er : ofInt b - .ofInt a = .ofInt (b - a) := (Int64.ofInt_sub b a).symm
  have el : ofNat n * .ofInt d = .ofInt (n * d) := (ofInt_mul n d).symm
  have eq : ofInt (b - a) / .ofInt (n * d) = .ofInt ((b - a).tdiv (n * d)) :=
    (Int64.ofInt_tdiv hrange.wide.1 hrange.wide.2 hlong.wide.1 hlong.wide.2).symm
  have et : ofInt ((b - a).tdiv (n * d)) * .ofInt (n * d) = .ofInt ((b - a).tdiv (n * d) * (n * d)) :=
    (ofInt_mul _ _).symm
  have em : ofInt a + .ofInt ((b - a).tdiv (n * d) * (n * d)) = .ofInt (a + (b - a).tdiv (n * d) * (n * d)) :=
    (Int64.ofInt_add _ _).symm
  have hbetween := tdiv_mul_between (b - a) (n * d)
  have hmid : t.Fits (a + (b - a).tdiv (n * d) * (n * d)) := ha.of_between hb (by omega)
  have hless : ∀ k ≤ n, (k : Int) * d ≤ n * d := fun k hk => Int.mul_le_mul_of_nonneg_right (by omega) (by omega)
  have hnat : ∀ k ≤ n, t.Fits (k : Int) := fun k hk => by
    have : (k : Int) * 1 ≤ k * d := Int.mul_le_mul_of_nonneg_left (by omega) (by omega)
    have := hless k hk
    exact hzero.of_between hlong (by omega)
  refine ⟨⟨?_, ?_, ?_, ?_, ?_, fun k hk => (hnat k hk).holds ht, fun k hk => ?_⟩, el, _, ⟨rfl, rfl⟩, hmid, ?_⟩
  · rw [er]
    exact hrange.holds ht
  · rw [el]
    exact hlong.holds ht
  · rw [er, el, eq]
    refine (hzero.of_between hrange ?_).holds ht
    rcases Int.le_total 0 (b - a) with h | h
    · have := Int.tdiv_nonneg h (Int.le_of_lt hlong0)
      have := Int.tdiv_le_self (b := n * d) h
      omega
    · have hneg := Int.tdiv_nonneg (Int.neg_nonneg_of_nonpos h) (Int.le_of_lt hlong0)
      have hle := Int.tdiv_le_self (b := n * d) (Int.neg_nonneg_of_nonpos h)
      rw [Int.neg_tdiv] at hneg hle
      omega
  · rw [er, el, eq, et]
    exact (hzero.of_between hrange hbetween).holds ht
  · rw [middle, er, el, eq, et, em]
    exact hmid.holds ht
  · have hk' := hless k (Nat.le_of_lt hk)
    have h0 : 0 ≤ (k : Int) * d := Int.mul_nonneg (by omega) (by omega)
    have : t.Fits (d * k) := hzero.of_between hlong (by rw [Int.mul_comm d]; omega)
    rw [show ofInt d * ofNat k = .ofInt (d * k) from (ofInt_mul d k).symm]
    exact this.holds ht
  · rw [middle, er, el, eq, et, em]

/-- What computes the bounds of the unrolled loop does so. -/
theorem Bounds.run {out : Block} {bigStep stop : Expr} (h : Bounds l n out bigStep stop) (fuel : Nat) (hty : l.Counts t)
    (hd : l.Header call P L s u d) (hV : l.ReadsIn V) (hnd : (Stmt.blockBinds out).Nodup)
    (hfresh : ∀ y ∈ Stmt.blockBinds out, y ∉ V) (hin : Stays t n s u d) (hbig : ofNat n * d ≠ 0) (hP : P st) :
    ∃ L₁ st₁, Ahead call fuel out L st L₁ st₁ ∧ P st₁ ∧ bigStep.Holds (ofNat n * d) L₁ ∧
      stop.Holds (middle n s u d) L₁ ∧ (∀ x ∈ bigStep.reads, x ∈ Stmt.blockBinds out) ∧
      ∀ x ∈ stop.reads, x ∈ Stmt.blockBinds out := by
  obtain ⟨h1, h2, h3, h4, h5⟩ := h
  rename_i range bigSteps trunc o1 o2 o3 o4 o5
  have hn := hin.number n (Nat.le_refl n)
  have p1 := h1.primed hty.int hty.stop.ty hty.start.ty
  have p2 := h2.primed hty.int (hty.const_proper hn).ty hty.step.ty
  have p3 := h3.primed hty.int p1.ty p2.ty
  have p4 := h4.primed hty.int p3.ty p2.ty
  have p5 := h5.primed hty.int hty.start.ty p4.ty
  simp only [Stmt.blockBinds_append, List.nodup_append, List.mem_append] at hnd hfresh ⊢
  obtain ⟨-, ⟨-, ⟨-, ⟨-, -, d4⟩, d3⟩, d2⟩, d1⟩ := hnd
  -- the range
  obtain ⟨L₁, st₁, r1, g1, hP1, k1, e1⟩ := p1.run fuel hty.int hty.stop hty.start hd.stop hd.start rfl hin.range hP
  have a1 := Ahead.of_run r1 g1
  have hd1 := hd.congr hV fun x hx => a1.keeps x fun hm => hfresh x (.inl hm) hx
  -- the long step
  obtain ⟨L₂, st₂, r2, g2, hP2, k2, e2⟩ :=
    p2.run fuel hty.int (hty.const_proper hn) hty.step (hty.const_gives hn) hd1.step rfl hin.long hP1
  have a2 := Ahead.of_run r2 g2
  have hd2 := hd1.congr hV fun x hx => a2.keeps x fun hm => hfresh x (.inr (.inl hm)) hx
  have k12 := a2.holds k1 fun x hx hm => d1 x (p1.reads x hx) x (.inl hm) rfl
  -- how many of them there are
  obtain ⟨L3, st3, r3, g3, hP3, k3, e3⟩ :=
    p3.run fuel hty.int e1 e2 (k12.gives call P) (k2.gives call P) (if_neg hbig) hin.quotient hP2
  have a3 := Ahead.of_run r3 g3
  have hd3 := hd2.congr hV fun x hx => a3.keeps x fun hm => hfresh x (.inr (.inr (.inl hm))) hx
  have k23 := a3.holds k2 fun x hx hm => d2 x (p2.reads x hx) x (.inl hm) rfl
  -- their length together
  obtain ⟨L4, st4, r4, g4, hP4, k4, e4⟩ :=
    p4.run fuel hty.int e3 e2 (k3.gives call P) (k23.gives call P) rfl hin.length hP3
  have a4 := Ahead.of_run r4 g4
  have hd4 := hd3.congr hV fun x hx => a4.keeps x fun hm => hfresh x (.inr (.inr (.inr (.inl hm)))) hx
  have k24 := a4.holds k23 fun x hx hm => d2 x (p2.reads x hx) x (.inr (.inl hm)) rfl
  -- and where they end
  obtain ⟨L5, st5, r5, g5, hP5, k5, -⟩ :=
    p5.run fuel hty.int hty.start e4 hd4.start (k4.gives call P) rfl hin.middle hP4
  have a5 := Ahead.of_run r5 g5
  have k25 := a5.holds k24 fun x hx hm => d2 x (p2.reads x hx) x (.inr (.inr hm)) rfl
  exact ⟨L5, st5, a1.append (a2.append (a3.append (a4.append a5))), hP5, k25, k5,
    fun x hx => .inr (.inl (p2.reads x hx)), fun x hx => .inr (.inr (.inr (.inr (p5.reads x hx))))⟩

/-- What computes the offsets of the copies does so. -/
theorem Copies.run {first : VarName} {r r' : Renaming} {offs : Block} {offsets : List (Expr × Nat)} {blk : Block}
    (h : Copies l first n k r offs offsets blk r') (fuel : Nat) (hty : l.Counts t) (hd : l.Header call P L s u d)
    (hV : l.ReadsIn V) (hnd : (Stmt.blockBinds offs).Nodup) (hfresh : ∀ y ∈ Stmt.blockBinds offs, y ∉ V) {N : Nat}
    (hin : Stays t N s u d) (hN : n + k ≤ N) (hP : P st) :
    ∃ L₁ st₁, Ahead call fuel offs L st L₁ st₁ ∧ P st₁ ∧ ∀ p ∈ offsets, p.1.Holds (d * ofNat p.2) L₁ ∧
      ∀ x ∈ p.1.reads, x ∈ Stmt.blockBinds offs := by
  induction h generalizing L st with
  | nil k r => exact ⟨L, st, .nil call fuel L st, hP, fun p hp => absurd hp List.not_mem_nil⟩
  | @cons n k _ _ _ _ _ _ _ off offs offset offsets _ _ _ ho _ _ ih =>
    have hk := hin.number k (by omega)
    have p := ho.primed hty.int hty.step.ty (hty.const_proper hk).ty
    rw [Stmt.blockBinds_append] at hnd hfresh
    obtain ⟨-, hnd, hdis⟩ := List.nodup_append.mp hnd
    obtain ⟨L₁, st₁, r1, g1, hP1, k1, -⟩ := p.run fuel hty.int hty.step (hty.const_proper hk) hd.step
      (hty.const_gives hk) rfl
      (hin.offset k (by omega)) hP
    have a1 := Ahead.of_run r1 g1
    have hd1 := hd.congr hV fun x hx => a1.keeps x fun hm => hfresh x (List.mem_append_left _ hm) hx
    obtain ⟨L₂, st₂, a2, hP2, hoffs⟩ := ih hd1 hnd (fun y hy => hfresh y (List.mem_append_right _ hy)) (by omega) hP1
    refine ⟨L₂, st₂, a1.append a2, hP2, fun q hq => ?_⟩
    rw [Stmt.blockBinds_append]
    rcases List.mem_cons.mp hq with rfl | hq
    · exact ⟨a2.holds k1 fun x hx hm => hdis x (p.reads x hx) x hm rfl,
        fun x hx => List.mem_append_left _ (p.reads x hx)⟩
    · exact ⟨(hoffs q hq).1, fun x hx => List.mem_append_right _ ((hoffs q hq).2 x hx)⟩

end Unrolling

end ArrayIR
