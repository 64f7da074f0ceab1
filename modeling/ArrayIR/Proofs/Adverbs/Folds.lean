/-
  ArrayIR.Proofs.Adverbs.Folds — reductions and scans.

  A reduction computes a first accumulator and takes it on from position to position
  (`Chain`): it is the left fold, and fails where one of the steps fails. A scan does the
  same, and emits something of each accumulator on the way (`Prefixes`); what it emits is
  stacked (`Adverb.scan_ok`). Emitting may write to the accumulator that it is given. If
  it writes to nothing that was there, the scan ends with the accumulator that the
  reduction returns (`Adverb.reduce_of_prefixes`); if it does write, the accumulators
  after it may be others (`Adverb.taken_sum_not_reduced`).
-/

import ArrayIR.Proofs.Adverbs.Map

namespace ArrayIR

/-! ## Chains of steps -/

/-- What a first computation and `m` steps after it go through if they all succeed: the accumulator after each,
and the store. -/
structure Chain (first : Exec Value) (next : Nat → Value → Exec Value) (s : Store) (m : Nat) (acc : Nat → Value)
    (stores : Nat → Store) : Prop where
  start : first s = .ok (acc 0) (stores 0)
  step : ∀ k < m, next (k + 1) (acc k) (stores k) = .ok (acc (k + 1)) (stores (k + 1))

namespace Chain

variable {first : Exec Value} {next : Nat → Value → Exec Value} {s : Store} {m : Nat} {acc : Nat → Value}
  {stores : Nat → Store}

theorem extend (h : Chain first next s m acc stores) {v : Value} {t : Store}
    (hv : next (m + 1) (acc m) (stores m) = .ok v t) :
    Chain first next s (m + 1) (fun k => if k ≤ m then acc k else v) (fun k => if k ≤ m then stores k else t) where
  start := h.start
  step k hk := by
    by_cases hkm : k < m
    · rw [if_pos (by omega), if_pos (by omega), if_pos (by omega), if_pos (by omega)]
      exact h.step k hkm
    · obtain rfl : k = m := by omega
      rw [if_pos (Nat.le_refl k), if_pos (Nat.le_refl k), if_neg (by omega), if_neg (by omega)]
      exact hv

theorem take (h : Chain first next s (m + 1) acc stores) : Chain first next s m acc stores :=
  ⟨h.start, fun k hk => h.step k (by omega)⟩

end Chain

namespace Eval

variable {first : Exec Value} {next : Nat → Value → Exec Value} {body : Value → Int → Exec Value}
  {s s' : Store} {m : Nat}

theorem countUp_succ {α : Type} (body : α → Int → Exec α) (m : Nat) (i : Int) (a : α) :
    countUp body (m + 1) i a = countUp body m i a >>= fun b => body b (i + m) := by
  induction m generalizing i a with
  | zero => simp [countUp]
  | succ m ih =>
    show (body a i >>= countUp body (m + 1) (i + 1)) = (body a i >>= countUp body m (i + 1)) >>= _
    rw [bind_assoc]
    refine congrArg _ (funext fun b => ?_)
    rw [ih, Int.add_assoc, Int.add_comm 1, Int.natCast_succ]

theorem bind_countUp_succ (hbody : ∀ a, body a ((m + 1 : Nat) : Int) = next (m + 1) a) :
    (first >>= countUp body (m + 1) 1) = (first >>= countUp body m 1) >>= next (m + 1) := by
  rw [bind_assoc]
  refine congrArg _ (funext fun a => ?_)
  rw [countUp_succ]
  refine congrArg _ (funext fun b => ?_)
  rw [← hbody b, Int.natCast_succ, Int.add_comm]

variable (hbody : ∀ k < m, ∀ a, body a ((k + 1 : Nat) : Int) = next (k + 1) a)
include hbody

/-- A loop succeeds if all of its steps do. -/
theorem countUp_chain {v : Value} : (first >>= countUp body m 1) s = .ok v s' ↔
    ∃ acc stores, Chain first next s m acc stores ∧ acc m = v ∧ stores m = s' := by
  induction m generalizing v s' with
  | zero =>
    constructor
    · intro h
      obtain ⟨a, t, ha, h⟩ := state_bind_ok h
      obtain ⟨rfl, rfl⟩ := state_pure_ok h
      exact ⟨fun _ => _, fun _ => _, ⟨ha, fun k hk => by omega⟩, rfl, rfl⟩
    · rintro ⟨acc, stores, h, rfl, rfl⟩
      exact state_bind_of_ok h.start
  | succ m ih =>
    have ih : ∀ {v s'}, (first >>= countUp body m 1) s = .ok v s' ↔
        ∃ acc stores, Chain first next s m acc stores ∧ acc m = v ∧ stores m = s' := ih fun k hk => hbody k (by omega)
    rw [bind_countUp_succ (hbody m (Nat.lt_succ_self m))]
    constructor
    · intro h
      obtain ⟨b, t, hb, hv⟩ := state_bind_ok h
      obtain ⟨acc, stores, hchain, rfl, rfl⟩ := ih.mp hb
      exact ⟨_, _, hchain.extend hv, if_neg (by omega), if_neg (by omega)⟩
    · rintro ⟨acc, stores, h, rfl, rfl⟩
      rw [state_bind_of_ok (ih.mpr ⟨acc, stores, h.take, rfl, rfl⟩)]
      exact h.step m (Nat.lt_succ_self m)

/-- A loop fails if one of its steps does, and those before it succeed. -/
theorem countUp_chain_error {e : Fault} : (first >>= countUp body m 1) s = .error e s' ↔
    first s = .error e s' ∨ ∃ k < m, ∃ acc stores, Chain first next s k acc stores ∧
      next (k + 1) (acc k) (stores k) = .error e s' := by
  induction m with
  | zero =>
    constructor
    · intro h
      rcases state_bind_error h with h | ⟨a, t, -, h⟩
      · exact .inl h
      · cases h
    · rintro (h | ⟨k, hk, -⟩)
      · exact state_bind_of_error h
      · omega
  | succ m ih =>
    have hbody' : ∀ k < m, ∀ a, body a ((k + 1 : Nat) : Int) = next (k + 1) a := fun k hk => hbody k (by omega)
    rw [bind_countUp_succ (hbody m (Nat.lt_succ_self m))]
    constructor
    · intro h
      rcases state_bind_error h with h | ⟨b, t, hb, h⟩
      · exact ((ih hbody').mp h).imp_right fun ⟨k, hk, hrest⟩ => ⟨k, by omega, hrest⟩
      · obtain ⟨acc, stores, hchain, rfl, rfl⟩ := (countUp_chain hbody').mp hb
        exact .inr ⟨m, Nat.lt_succ_self m, acc, stores, hchain, h⟩
    · rintro (h | ⟨k, hk, acc, stores, hchain, h⟩)
      · exact state_bind_of_error ((ih hbody').mpr (.inl h))
      · by_cases hkm : k < m
        · exact state_bind_of_error ((ih hbody').mpr (.inr ⟨k, hkm, acc, stores, hchain, h⟩))
        · obtain rfl : k = m := by omega
          rw [state_bind_of_ok ((countUp_chain hbody').mpr ⟨acc, stores, hchain, rfl, rfl⟩)]
          exact h

end Eval

/-! ## Accumulators -/

namespace Eval

/-- The accumulator after the first position: the result there, which an initial value is combined with if it is
given and is not nothing. -/
def firstAcc (call : Caller) (f c : Value) (i : Option Value) (xs : List Value) (axis : Nat) : Exec Value := do
  let r ← invokeAt call f xs axis 0
  (i.filter (!·.isNothing)).elim (pure r) fun a => invoke call c [a, r]

/-- The accumulator after position `k`: the one before it, combined with the result there. -/
def nextAcc (call : Caller) (f c : Value) (xs : List Value) (axis : Nat) (k : Nat) (acc : Value) : Exec Value := do
  let r ← invokeAt call f xs axis k
  invoke call c [acc, r]

end Eval

namespace Adverb

open Eval (domain firstAcc integer? invoke nextAcc)

variable {call : Caller} {f c e : Value} {i : Option Value} {xs : List Value} {axis : Nat} {n : Int64}
  {s s' : Store} {m : Nat}

theorem seed_eq (hc : Common xs axis n) (hn : n.toInt = m + 1) :
    seed (domain call) f c i xs axis = firstAcc call f c i xs axis := by
  have hfirst : applyAt (domain call) f xs axis (.int 0) = Eval.invokeAt call f xs axis 0 :=
    applyAt_natCast hc (i := 0) (by omega)
  show (applyAt (domain call) f xs axis (.int 0) >>= _) = _
  rw [hfirst]
  refine congrArg _ (funext fun r => ?_)
  cases i with
  | none => rfl
  | some a =>
    show (if a.isNothing = true then _ else _) = _
    by_cases ha : a.isNothing = true
    · rw [if_pos ha, Option.filter_some, if_neg (by simp [ha])]
      rfl
    · rw [if_neg ha, Option.filter_some, if_pos (by simp [ha])]
      rfl

/-- The step of a fold. -/
def combineAt (call : Caller) (f c : Value) (xs : List Value) (axis : Nat) (acc : Value) (k : Int) : Exec Value := do
  invoke call c [acc, ← applyAt (domain call) f xs axis (.ofInt k)]

theorem combineAt_eq (hc : Common xs axis n) {k : Nat} (hk : (k : Int) < n.toInt) (acc : Value) :
    combineAt call f c xs axis acc k = nextAcc call f c xs axis k acc := by
  rw [combineAt, applyAt_natCast hc hk]
  rfl

theorem reduce_eq (hc : Common xs axis n) (hn : n.toInt = m + 1) :
    reduce (domain call) f c i xs axis = firstAcc call f c i xs axis >>=
      Eval.countUp (combineAt call f c xs axis) m 1 := by
  have hcount : (n.toInt - 1).toNat = m := by omega
  unfold reduce
  rw [commonExtent_eq hc, pure_bind, seed_eq hc hn, ← hcount]
  rfl

/-! ## Scans -/

/-- What a scan goes through over the positions up to `m` if all invocations succeed: the accumulator after each
position, what is emitted of it, and the stores after both. -/
structure Prefixes (call : Caller) (f c e : Value) (i : Option Value) (xs : List Value)
    (axis : Nat) (s : Store) (m : Nat) (acc out : Nat → Value) (folded emitted : Nat → Store) : Prop where
  start : firstAcc call f c i xs axis s = .ok (acc 0) (folded 0)
  step : ∀ k < m, nextAcc call f c xs axis (k + 1) (acc k) (emitted k) = .ok (acc (k + 1)) (folded (k + 1))
  emit : ∀ k ≤ m, invoke call e [acc k] (folded k) = .ok (out k) (emitted k)

/-- Combining and emitting at one position. -/
def emitAt (call : Caller) (f c e : Value) (xs : List Value) (axis : Nat) (acc : Value) (k : Int) :
    Exec (Value × Value) := do
  let next ← combineAt call f c xs axis acc k
  return (next, ← invoke call e [next])

theorem storeAt_emitAt (u : View) : storeAt call u (emitAt call f c e xs axis) = fun acc k => (do
    let next ← (domain call).invoke c [acc, ← applyAt (domain call) f xs axis (.ofInt k)]
    put (domain call) (.array u) (.ofInt k) (← (domain call).invoke e [next])
    return next) := by
  funext acc k
  simp only [storeAt, emitAt, combineAt, bind_assoc, pure_bind]
  rfl

theorem combineAt_inStep (hcall : call.Local) {w : Pairing} (hf : Likes .strict w f f) (hco : Likes .strict w c c)
    (hxs : List.Forall₂ (Likes .strict w) xs xs) {a b : Value} (hab : Likes .strict w a b) (k : Int) :
    InStep .strict w (Likes .strict) (combineAt call f c xs axis a k) (combineAt call f c xs axis b k) :=
  (applyAt_inStep hcall.alike hf hxs axis .int).bind fun _ _ _ hle hr =>
    Eval.invoke_inStep hcall.alike (hco.mono hle) (.cons (hab.mono hle) (.cons hr .nil))

section Scan

variable (hcall : call.Local) (hf : f.Live s) (hco : c.Live s) (hxs : ∀ x ∈ xs, x.Live s) (hc : Common xs axis n)
  (hn : n.toInt = m + 1) {acc out : Nat → Value} {folded emitted : Nat → Store}
include hcall hf hco hxs hc hn

/-- A step of the scan beside the array that is filled. -/
theorem emitAt_beside (he : e.Live s) (h : Prefixes call f c e i xs axis s m acc out folded emitted)
    {r : BufferId} {w : Pairing} {t : Store} {j : Nat} (hj : j < m) (hle : .identity s.size ≤ w)
    (hb : Beside r w (emitted j) t) {a : Value} (hlike : Likes .strict w (acc j) a) :
    ∃ a' y t' w', emitAt call f c e xs axis a (j + 1 : Nat) t = .ok (a', y) t' ∧ .identity s.size ≤ w' ∧
      Beside r w' (emitted (j + 1)) t' ∧ Likes .strict w' (acc (j + 1)) a' ∧ Likes .strict w' (out (j + 1)) y ∧
      t'.cells r = t.cells r := by
  have hcombine : combineAt call f c xs axis (acc j) (j + 1 : Nat) (emitted j) =
      .ok (acc (j + 1)) (folded (j + 1)) := by
    rw [combineAt_eq hc (by omega)]
    exact h.step j hj
  have hxs' := Value.Live.likes_all hxs hle
  obtain ⟨a', t1, w1, ha', hle1, hb1, hlike1, hcells1⟩ := hb.run
    (combineAt_inStep hcall (hf.likes hle) (hco.likes hle) hxs' hlike _)
    (combine_leaves (hcall.leaves _) (hb.avoids (hco.likes hle)) (hb.avoids hlike)
      (applyAt_leaves (hcall.leaves _) (hb.avoids (hf.likes hle)) (hb.allAvoid hxs') axis _)) hcombine
  have hid1 := hle.trans hle1
  obtain ⟨y, t2, w2, hy, hle2, hb2, hlike2, hcells2⟩ :=
    hb1.invoke hcall (he.likes hid1) (.cons hlike1 .nil) (h.emit (j + 1) hj)
  refine ⟨a', y, t2, w2, ?_, hid1.trans hle2, hb2, hlike1.mono hle2, hlike2, hcells2.trans hcells1⟩
  rw [emitAt, state_bind_of_ok ha', state_bind_of_ok hy]
  rfl

variable (hi : ∀ v ∈ i, v.Live s)
include hi

/-- The first accumulator lives in the store after it. -/
theorem firstAcc_again {a : Value} {σ : Store} (h : firstAcc call f c i xs axis s = .ok a σ) :
    ∃ w, .identity s.size ≤ w ∧ Agree .strict w σ σ ∧ Likes .strict w a a := by
  have hle := le_refl (Pairing.identity s.size)
  have hinit : OptionAlike .strict (Pairing.identity s.size).rel i i := by
    cases i with
    | none => trivial
    | some v => exact (hi v rfl).likes hle
  rw [← seed_eq hc hn] at h
  exact (seed_inStep hcall.alike (hf.likes hle) (hco.likes hle) hinit (Value.Live.likes_all hxs hle) axis).again
    (.identity .strict s) h

/-- If emitting leaves alone what was there before, the fold without it gives the last accumulator of the scan. -/
theorem reduce_of_prefixes (h : Prefixes call f c e i xs axis s m acc out folded emitted)
    (hquiet : ∀ k < m, (folded k).Grows (emitted k)) :
    ∃ v s', reduce (domain call) f c i xs axis s = .ok v s' ∧ Dump.value s' v = Dump.value (folded m) (acc m) ∧
      ∀ b < s.size, s'.cells b = (folded m).cells b := by
  obtain ⟨w, hle, hagree, hlike⟩ := firstAcc_again hcall hf hco hxs hc hn hi h.start
  let I := fun k a t => ∃ w, .identity s.size ≤ w ∧ Agree .strict w (folded k) t ∧ Likes .strict w (acc k) a
  have hstep : ∀ k < m, ∀ a t, I k a t → ∃ a' t', combineAt call f c xs axis a (1 + k) t =
      .ok a' t' ∧ I (k + 1) a' t' := by
    rintro k hk a t ⟨w, hle, hagree, hlike⟩
    obtain ⟨w', hle', hagree'⟩ := hagree.later (hquiet k hk) (.refl t)
    have hid := hle.trans hle'
    have hpos : (1 : Int) + k = ((k + 1 : Nat) : Int) := by omega
    have hinstep : InStep .strict w' (Likes .strict) (combineAt call f c xs axis (acc k) (k + 1 : Nat))
        (combineAt call f c xs axis a (k + 1 : Nat)) :=
      combineAt_inStep hcall (hf.likes hid) (hco.likes hid) (Value.Live.likes_all hxs hid) (hlike.mono hle') _
    have ho := hinstep _ _ hagree'
    rw [combineAt_eq hc (by omega), h.step k hk] at ho
    obtain ⟨a', t', ha', w'', hle'', hagree'', hlike''⟩ := ho.ok_left
    rw [hpos]
    exact ⟨a', t', ha', w'', hid.trans hle'', hagree'', hlike''⟩
  obtain ⟨v, s', hloop, w', hle', hagree', hlike'⟩ := Eval.countUp_ok (I := I) hstep ⟨w, hle, hagree, hlike⟩
  obtain ⟨hdump, hcells⟩ := hagree'.same_answer hle' hlike'
  refine ⟨v, s', ?_, hdump.symm, fun b hb => (hcells b hb).symm⟩
  rw [reduce_eq hc hn, state_bind_of_ok h.start]
  exact hloop

/-- What is emitted of the accumulators is stacked. -/
theorem scan_ok (he : e.Live s) {elt : ScalarTy} {shape : List Int}
    (h : Prefixes call f c e i xs axis s m acc out folded emitted) (hform : ∀ k ≤ m, (out k).HasForm elt shape) :
    ∃ b s', scan (domain call) f c e i xs axis s = .ok (.array (.rowMajorAt elt (n.toInt :: shape) b)) s' ∧ s.size ≤ b ∧
      (∀ b < s.size, s'.cells b = (emitted m).cells b) ∧
      View.Stacked (.rowMajorAt elt (n.toInt :: shape) b) shape (entries out emitted) (Rows n.toInt.toNat) s' := by
  obtain ⟨w, hle, hagree, hlike⟩ := firstAcc_again hcall hf hco hxs hc hn hi h.start
  obtain ⟨w1, hle1, hagree1, hout⟩ := (Eval.invoke_inStep hcall.alike (he.likes hle) (.cons hlike .nil)).again hagree
    (h.emit 0 (Nat.zero_le m))
  have hid1 := hle.trans hle1
  generalize hu : View.rowMajorAt elt (n.toInt :: shape) (emitted 0).size = u
  have hzero : ∀ p, Within shape p → (out 0).element? (emitted 0) p = entries out emitted [0] p := fun p _ =>
    (entries_natCast out emitted 0 p).symm
  obtain ⟨t1, t2, halloc, hput, hone, hstack, w2, hle2, hbeside⟩ :=
    begin_stacked call (by omega) (hform 0 (Nat.zero_le m))
    hagree1 hout hzero hu.symm
  -- ahead of position `j + 1` the accumulator is the one after position `j`
  let J := fun (k : Nat) (a : Value) (t : Store) => ∃ j, k = j + 1 ∧ ∃ w, .identity s.size ≤ w ∧
    Beside u.buffer w (emitted j) t ∧ Likes .strict w (acc j) a
  have hstep : ∀ (k : Nat) a t, (k : Int) < n.toInt → J k a t →
    ∃ a' y t', emitAt call f c e xs axis a k t = .ok (a', y) t' ∧
      J (k + 1) a' t' ∧ t'.cells u.buffer = t.cells u.buffer ∧ y.HasForm u.elt shape ∧
      ∀ p, Within shape p → y.element? t' p = entries out emitted [(k : Int)] p := by
    rintro k a t hk ⟨j, rfl, w, hle, hb, hlike⟩
    obtain ⟨a', y, t', w', hemit, hle', hb', hlike', hout, hcells⟩ :=
      emitAt_beside hcall hf hco hxs hc hn he h (by omega) hle hb hlike
    refine ⟨a', y, t', hemit, ⟨j + 1, rfl, w', hle', hb', hlike'⟩, hcells, ?_, fun p _ => ?_⟩
    · rw [← hu]
      exact (hform (j + 1) (by omega)).alike hout
    · rw [entries_natCast]
      exact (Value.element?_alike hb'.agree hout p).symm
  have hbegin : J 1 (acc 0) t2 := ⟨0, rfl, w2, hid1.trans hle2, hbeside, hlike.mono (hle1.trans hle2)⟩
  obtain ⟨a', s', hloop, ⟨j, hj, w3, hle3, hb3, -⟩, hstack'⟩ := loop_stacked call (by rw [← hu]; rfl)
    (by rw [← hu]; exact length_rowMajor _) hstep
    (fun k a t g ⟨j, hj, w, hle, hb, hlike⟩ => ⟨j, hj, w, hle, hb.modify g, hlike⟩) (by omega) hbegin hone hstack
  obtain rfl : j = m := by omega
  have hsize : s.size ≤ (emitted 0).size := by
    rw [hagree1.left]
    exact hid1.left
  refine ⟨(emitted 0).size, s', ?_, hsize, fun b hb => (hb3.agree.cells trivial (hle3.rel ⟨rfl, hb⟩)).symm,
    by rw [hu]; exact hstack'⟩
  rw [hu]
  unfold scan
  rw [commonExtent_eq hc, pure_bind, seed_eq hc hn, state_bind_of_ok h.start]
  show (invoke call e [acc 0] >>= _) _ = _
  rw [state_bind_of_ok (h.emit 0 (Nat.zero_le _))]
  show (Eval.alloc (out 0) [.int n] >>= _) _ = _
  rw [state_bind_of_ok halloc]
  show (put (domain call) (.array u) (.int 0) (out 0) >>= _) _ = _
  rw [state_bind_of_ok hput]
  rw [storeAt_emitAt] at hloop
  exact state_bind_of_ok hloop

end Scan

open Sample (double identity plus)

/-- A new vector with the same elements. -/
def copyAll : Func := .returning "copyAll" [("a", .array .i64 1)]
  (.map (.fnRefTo "identity") [.var "a" (.array .i64 1)] 0 (.array .i64 1))

def addAll : Func := .returning "addAll" [("a", .array .i64 1), ("b", .array .i64 1)]
  (.map (.fnRefTo "plus") [.var "a" (.array .i64 1), .var "b" (.array .i64 1)] 0 (.array .i64 1))

/-- The first element of a vector, which is set to zero. -/
def take : Func where
  name := "take"
  params := ["a"]
  paramTys := [.array .i64 1]
  result := .i64
  env := .ofList [("a", .array .i64 1), ("x", .i64)]
  body := [.assign (.var "x" .i64) (.index (.var "a" (.array .i64 1)) (.int64 0) .i64),
    .assign (.index (.var "a" (.array .i64 1)) (.int64 0) .i64) (.int64 0), .ret (.var "x" .i64)]

def sums : Session := { functions := [identity, plus, double, copyAll, addAll, take] }

/-- Three cells. -/
def sumsStore : Store := ⟨#[#[.int 1, .int 2, .int 3]]⟩

/-- Three rows of one cell. -/
def sumsRows : View := ⟨.i64, 0, [3, 1], [1, 1], 0⟩

end Adverb

end ArrayIR
