/-
  ArrayIR.Proofs.Loops — running loops over integers.

  The bounds of a counted loop are mostly names and literals, which are evaluated
  without the store; so are the test and the step of a `while` loop that counts. Such a
  loop ends after as many iterations as there are integers up to its bound, and keeps
  up what each of them keeps up (`iterate_up`).
-/

import ArrayIR.Proofs.Frame
import ArrayIR.Proofs.Simulation
import ArrayIR.Proofs.Success
import ArrayIR.Proofs.Trips

namespace ArrayIR

theorem state_bind_congr {ε σ α β : Type} {x : EStateM ε σ α} {f g : α → EStateM ε σ β} {s : σ}
    (h : ∀ a s1, x s = .ok a s1 → f a s1 = g a s1) : (x >>= f) s = (x >>= g) s := by
  show EStateM.bind x f s = EStateM.bind x g s
  rw [EStateM.bind, EStateM.bind]
  cases hx : x s with
  | ok a s1 => exact h a s1 hx
  | error e s1 => rfl

namespace Eval

/-! ## Integers -/

section Integers

variable {call : Caller} {L : Locals} {x y : Expr} {i j : Int64}

/-- A primitive on integers that need no store. -/
theorem prim_pure {p : Prim} {t : ScalarTy} {z : Scalar} (hx : expr call L x = pure (.int i))
    (hy : expr call L y = pure (.int j)) (h : p.eval [.int i, .int j] t = .ok z) :
    expr call L (.prim p [x, y] (.scalar t)) = pure (.scalar z) := by
  have hargs : exprs call L [x, y] = pure [.int i, .int j] := by
    rw [exprs, hx, exprs, hy, exprs]
    rfl
  rw [expr, hargs]
  show (liftM (p.eval [.int i, .int j] t) >>= fun z => pure (Value.scalar z) : Exec Value) = _
  rw [h]
  rfl

theorem lt_eval (i j : Int64) : Prim.lt.eval [.int i, .int j] .bool = .ok (.bool (decide (i < j))) := by
  show Except.ok
    (Scalar.bool (decide (some (if i < j then Ordering.lt else if i = j then .eq else .gt) = some .lt))) = _
  by_cases h : i < j
  · rw [if_pos h, decide_eq_true h]
    rfl
  · rw [if_neg h, decide_eq_false h]
    split <;> rfl

theorem add_eval (i j : Int64) : Prim.add.eval [.int i, .int j] .i64 = .ok (.int (i + j)) := rfl

theorem min_eval (i j : Int64) : Prim.min.eval [.int i, .int j] .i64 = .ok (.int (if i ≤ j then i else j)) := rfl

theorem lte_eval (i j : Int64) : Prim.lte.eval [.int i, .int j] .bool = .ok (.bool (decide (i ≤ j))) := by
  show Except.ok (Scalar.bool (Prim.lte.holds (some (if i < j then Ordering.lt else if i = j then .eq else .gt)))) = _
  have hlt : i < j ↔ i.toInt < j.toInt := Int64.lt_iff_toInt_lt
  have heq : i = j ↔ i.toInt = j.toInt := Int64.toInt_inj.symm
  have hle : i ≤ j ↔ i.toInt ≤ j.toInt := Int64.le_iff_toInt_le
  rcases Int.lt_trichotomy i.toInt j.toInt with h | h | h
  · rw [if_pos (hlt.mpr h), decide_eq_true (hle.mpr (Int.le_of_lt h))]
    rfl
  · rw [if_neg fun hc => by have := hlt.mp hc; omega, if_pos (heq.mpr h), decide_eq_true (hle.mpr (Int.le_of_eq h))]
    rfl
  · rw [if_neg fun hc => by have := hlt.mp hc; omega, if_neg fun hc => by have := heq.mp hc; omega,
      decide_eq_false fun hc => by have := hle.mp hc; omega]
    rfl

theorem condition_pure {c : Expr} {b : Bool} (h : expr call L c = pure (.scalar (.bool b))) :
    condition call L c = pure b := by
  rw [condition, h]
  rfl

theorem var_pure {z : VarName} {v : Value} (h : L.get? z = some v) (t : Ty) : expr call L (.var z t) = pure v := by
  rw [expr, h]

theorem int64_pure (i : Int64) : expr call L (.int64 i) = pure (.int i) := by
  rw [show Expr.int64 i = .const (.int i) .i64 from rfl, expr]
  rfl

theorem exprs_map_pure {α : Type} {f : α → Expr} {g : α → Value}
    (h : ∀ a, expr call L (f a) = pure (g a)) (as : List α) :
    exprs call L (as.map f) = pure (as.map g) := by
  induction as with
  | nil => rw [List.map_nil, List.map_nil, exprs]
  | cons a as ih => rw [List.map_cons, List.map_cons, exprs, h a, ih, pure_bind, pure_bind]

end Integers

/-! ## Counted loops -/

section Counted

variable {call : Caller} {L : Locals} {c : Counter} {a b d : Int}

theorem header_pure (ha : Fits a) (hb : Fits b) (hd : Fits d) (hstart : expr call L c.start = pure (.ofInt a))
    (hstop : expr call L c.stop = pure (.ofInt b)) (hstep : expr call L c.step = pure (.ofInt d)) :
    header call L c = pure ⟨a, b, d⟩ := by
  have hheader : header call L c = pure ⟨(Int64.ofInt a).toInt, (Int64.ofInt b).toInt, (Int64.ofInt d).toInt⟩ := by
    rw [header, hstart, pure_bind, hstop, hstep]
    rfl
  rw [hheader, ha.toInt_ofInt, hb.toInt_ofInt, hd.toInt_ofInt]

theorem forLoop_run {fuel : Nat} {body : Block} {m : Merge} {L1 : Locals} (hd : d ≠ 0)
    (hh : header call L c = pure ⟨a, b, d⟩) (he : bindMerge call m Prod.fst L = pure L1) :
    stmt call fuel (.forLoop c body m) L =
      repeatCounted c.var d (block call fuel body) (bindMerge call m Prod.snd) (tripCount a b d) a L1 := by
  rw [stmt_forLoop, hh, pure_bind, if_neg hd, he, pure_bind]
  rfl

theorem bindMerge_empty (call : Caller) (side : Expr × Expr → Expr) (L : Locals) :
    bindMerge call .empty side L = pure L := rfl

/-- A name of a merge has the value of its side, if that needs no store. -/
theorem bindMerge_get? {m : Merge} {side : Expr × Expr → Expr} {L1 : Locals} {st st1 : Store}
    (h : bindMerge call m side L st = .ok L1 st1) {x : VarName} {sides : Expr × Expr} (hx : m.get? x = some sides)
    {v : Value} (hv : expr call L (side sides) = pure v) :
    L1.get? x = some v := by
  obtain ⟨vs, s, hvs, h⟩ := state_bind_ok h
  obtain ⟨rfl, rfl⟩ := state_pure_ok h
  have hmem : ∀ {es vs st st1}, mergeValues call L side es st = .ok vs st1 → (x, sides) ∈ es → (x, v) ∈ vs := by
    intro es
    induction es with
    | nil => exact fun _ hx => absurd hx List.not_mem_nil
    | cons e es ih =>
      intro vs st st1 h hx
      obtain ⟨w, s1, hw, h⟩ := state_bind_ok h
      obtain ⟨us, s2, hus, h⟩ := state_bind_ok h
      obtain ⟨rfl, rfl⟩ := state_pure_ok h
      rcases List.mem_cons.mp hx with rfl | hx
      · rw [hv] at hw
        cases hw
        exact List.mem_cons_self
      · exact List.mem_cons_of_mem _ (ih hus hx)
  exact NameMap.get?_insertAll_of_mem (mergeValues_names hvs ▸ m.keys_nodup) (hmem hvs (NameMap.mem_toList.mpr hx)) L

theorem bindMerge_single (call : Caller) (x : VarName) (sides : Expr × Expr) (side : Expr × Expr → Expr) (L : Locals) :
    bindMerge call (.ofList [(x, sides)]) side L = (do return L.insert x (← expr call L (side sides))) := by
  rw [bindMerge]
  show (expr call L (side sides) >>= fun v => mergeValues call L side [] >>= fun vs => pure ((x, v) :: vs)) >>= _ = _
  rw [bind_assoc]
  rfl

end Counted

/-! ## Loops that count up -/

section Up

variable {test : Locals → Exec Bool} {body : Locals → Exec Flow} {again : Locals → Exec Locals} {n : Nat}
  {I : Nat → Locals → Store → Prop}

theorem iterate_false {L : Locals} {t : Store} (h : test L t = .ok false t) (fuel : Nat) :
    iterate test body again fuel L t = .ok (.next L) t := by
  rw [iterate.eq_def]
  cases fuel <;> exact state_bind_of_ok h

/-- A loop that is left after `n` iterations keeps up what each of them keeps up. -/
theorem iterate_up (htest : ∀ k L t, k ≤ n → I k L t → test L t = .ok (decide (k < n)) t)
    (hstep : ∀ k L t, k < n → I k L t → ∃ L1 t1 L2 t2, body L t = .ok (.next L1) t1 ∧
      again L1 t1 = .ok L2 t2 ∧ I (k + 1) L2 t2) {k fuel : Nat} (hk : k ≤ n) (hfuel : n ≤ k + fuel) {L : Locals}
      {t : Store} (h : I k L t) :
    ∃ L' t', iterate test body again fuel L t = .ok (.next L') t' ∧ I n L' t' := by
  induction fuel generalizing k L t with
  | zero =>
    obtain rfl : k = n := by omega
    have ht := htest k L t hk h
    rw [decide_eq_false (Nat.lt_irrefl k)] at ht
    exact ⟨L, t, iterate_false ht 0, h⟩
  | succ fuel ih =>
    have ht := htest k L t hk h
    by_cases hlt : k < n
    · obtain ⟨L1, t1, L2, t2, hbody, hagain, hI⟩ := hstep k L t hlt h
      obtain ⟨L', t', hrest, hI'⟩ := ih hlt (by omega) hI
      refine ⟨L', t', ?_, hI'⟩
      rw [decide_eq_true hlt] at ht
      rw [iterate_succ, state_bind_of_ok ht]
      show (body L >>= _) t = _
      rw [state_bind_of_ok hbody]
      show (again L1 >>= _) t1 = _
      rw [state_bind_of_ok hagain, hrest]
    · obtain rfl : k = n := by omega
      rw [decide_eq_false hlt] at ht
      exact ⟨L, t, iterate_false ht _, h⟩

/-- The loop that counts a name up to the integer under another one, taking its next value from a third. -/
def upTo (j n after : VarName) (body : Block) : Stmt :=
  .whileLoop (.prim .lt [.var j .i64, .var n .i64] .bool) body (NameMap.empty.insert j (.int64 0, .var after .i64))

theorem upTo_run {call : Caller} {fuel : Nat} {j n after : VarName} {code : Block} {d : Int} (hd : Fits d)
    (hfuel : d.toNat ≤ fuel) (hnames : ∀ k L t, I k L t → L.get? n = some (.ofInt d) ∧ L.get? j = some (.ofInt k))
    (hstep : ∀ k L t, k < d.toNat → I k L t → ∃ L1 t1, block call fuel code L t = .ok (.next L1) t1 ∧
      L1.get? after = some (.ofInt (k + 1 : Nat)) ∧ I (k + 1) (L1.insert j (.ofInt (k + 1 : Nat))) t1)
    {L : Locals} {t : Store} (h : I 0 (L.insert j (.int 0)) t) :
    ∃ L' t', stmt call fuel (upTo j n after code) L t = .ok (.next L') t' ∧ I d.toNat L' t' := by
  have hentry : bindMerge call (NameMap.empty.insert j (.int64 0, .var after .i64)) Prod.fst L t =
      .ok (L.insert j (.int 0)) t := by
    rw [show NameMap.empty.insert j (Expr.int64 0, Expr.var after .i64) =
      .ofList [(j, .int64 0, .var after .i64)] from rfl, bindMerge_single, int64_pure]
    rfl
  rw [upTo, stmt, state_bind_of_ok hentry]
  refine iterate_up (I := I) (fun k L t hk hI => ?_) (fun k L t hk hI => ?_) (Nat.zero_le _) (by omega) h
  · obtain ⟨hn, hj⟩ := hnames k L t hI
    have hlt : decide (Int64.ofInt k < Int64.ofInt d) = decide (k < d.toNat) := by
      refine decide_eq_decide.mpr ?_
      rw [Int64.lt_iff_toInt_lt, hd.toInt_ofInt, Fits.toInt_ofInt (fits_zero.of_between hd (by omega))]
      omega
    have htest : expr call L (.prim .lt [.var j .i64, .var n .i64] .bool) =
        pure (.scalar (.bool (decide (Int64.ofInt k < Int64.ofInt d)))) :=
      prim_pure (var_pure hj _) (var_pure hn _) (lt_eval _ _)
    rw [condition_pure htest, hlt]
    rfl
  · obtain ⟨L1, t1, hrun, hafter, hI'⟩ := hstep k L t hk hI
    refine ⟨L1, t1, _, t1, hrun, ?_, hI'⟩
    rw [show NameMap.empty.insert j (Expr.int64 0, Expr.var after .i64) =
      .ofList [(j, .int64 0, .var after .i64)] from rfl, bindMerge_single, var_pure hafter]
    rfl

end Up

end Eval

end ArrayIR
