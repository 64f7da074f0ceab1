/-
  ArrayIR.Proofs.Adverbs.Map — what map computes.

  A map applies its callable to the layers of the arguments at one position after the
  other, and stores what it gives. The applications do not see the array that is being
  filled, so they run as they would one after the other without it (`Runs`): if they
  succeed with results of one form, the map stacks these (`Adverb.map_ok`), and if one of
  them fails, the map does (`Adverb.map_error`).
-/

import ArrayIR.Proofs.Adverbs.Stacking

namespace ArrayIR

/-- Computations that succeed one after the other, with their results and the stores between them. -/
structure Runs (run : Nat → Exec Value) (s : Store) (n : Nat) (results : Nat → Value)
    (stores : Nat → Store) : Prop where
  start : stores 0 = s
  step : ∀ i < n, run i (stores i) = .ok (results i) (stores (i + 1))

namespace Adverb

open Eval (domain)

variable {call : Caller} {f : Value} {xs : List Value} {axis : Nat} {n : Int64} {s : Store}

theorem applyAt_natCast (hc : Common xs axis n) {i : Nat} (hi : (i : Int) < n.toInt) :
    applyAt (domain call) f xs axis (.ofInt i) = Eval.invokeAt call f xs axis i := by
  have hint := toInt_ofInt_of_lt (Int.natCast_nonneg i) hi
  have happly := applyAt_eq call hc (i := Int64.ofInt i) (by omega) (by omega) f
  rwa [hint] at happly

theorem loop_eq (lo hi : Int64) (body : Value → Exec Unit) :
    (domain call).loop (.int lo) (.int hi) body = Eval.countUp (fun _ i => body (.ofInt i))
    (hi.toInt - lo.toInt).toNat lo.toInt () :=
  rfl

theorem applyAt_of_runs {results : Nat → Value} {stores : Nat → Store} {m i : Nat} (hc : Common xs axis n)
    (hm : (m : Int) ≤ n.toInt) (hrun : Runs (fun i => Eval.invokeAt call f xs axis i) s m results stores) (hi : i < m) :
    applyAt (domain call) f xs axis (.ofInt i) (stores i) = .ok (results i) (stores (i + 1)) := by
  rw [applyAt_natCast hc (by omega)]
  exact hrun.step i hi

/-- Applying the callable at one position. -/
def applied (call : Caller) (f : Value) (xs : List Value) (axis : Nat) (_ : Unit) (i : Int) : Exec (Unit × Value) := do
  return ((), ← applyAt (domain call) f xs axis (.ofInt i))

theorem storeAt_applied (u : View) :
    storeAt call u (applied call f xs axis) =
      fun _ i => (do put (domain call) (.array u) (.ofInt i) (← applyAt (domain call) f xs axis (.ofInt i))) := by
  funext _ i
  simp only [storeAt, applied, bind_assoc, pure_bind]
  refine congrArg _ (funext fun y => ?_)
  exact bind_pure _

variable {results : Nat → Value} {stores : Nat → Store} {elt : ScalarTy} {shape : List Int}

/-- What a map that succeeds has gone through. -/
theorem map_inv {v : Value} {s' : Store} (h : map (domain call) f xs axis s = .ok v s') :
    (∃ x ∈ xs, axis < x.rank) ∧ ∃ n : Int64, (∀ x ∈ xs, ∀ d, x.shape[axis]? = some d → Int64.ofInt d = n) ∧
    0 < n.toInt ∧
      ∃ y s1 u cells g, applyAt (domain call) f xs axis (.int 0) s = .ok y s1 ∧ u.buffer = s1.size ∧
        Eval.countUp (storeAt call u (applied call f xs axis)) (n.toInt - 1).toNat 1 ()
          ((s1.alloc cells).2.modify u.buffer g) = .ok () s' := by
  obtain ⟨m, s0, hm, h⟩ := state_bind_ok h
  obtain ⟨rfl, hpresent, n, rfl, hn⟩ := commonExtent_ok hm
  obtain ⟨y, s1, hy, h⟩ := state_bind_ok h
  obtain ⟨r, t1, halloc, h⟩ := state_bind_ok h
  obtain ⟨elt, shape, cells, rfl, rfl⟩ := Eval.alloc_ok halloc
  obtain ⟨_, t2, hput, h⟩ := state_bind_ok h
  obtain ⟨g, rfl⟩ := put_ok hput
  obtain ⟨_, t3, hloop, h⟩ := state_bind_ok h
  obtain ⟨-, rfl⟩ := state_pure_ok h
  refine ⟨hpresent, n, hn, put_zero_ok hput, y, s1, .rowMajorAt elt (n.toInt :: shape) s1.size, cells, g, hy, rfl, ?_⟩
  rw [storeAt_applied]
  exact hloop

section Map

variable (hcall : call.Local) (hf : f.Live s) (hxs : ∀ x ∈ xs, x.Live s)
include hcall hf hxs

/-- The first application, which needs no array beside it. -/
theorem applyAt_first {i : Int64} {y : Value} {σ : Store} (h : applyAt (domain call) f xs axis (.int i) s = .ok y σ) :
    s.size ≤ σ.size ∧ ∃ w, .identity s.size ≤ w ∧ Agree .strict w σ σ ∧ Likes .strict w y y := by
  have hle := le_refl (Pairing.identity s.size)
  obtain ⟨w, hle', hagree, hlike⟩ :=
    (applyAt_inStep hcall.alike (hf.likes hle) (Value.Live.likes_all hxs hle) axis .int).again
    (.identity .strict s) h
  refine ⟨?_, w, hle', hagree, hlike⟩
  rw [hagree.left]
  exact hle'.left

/-- An application beside the array that is filled. -/
theorem applyAt_follows {r : BufferId} {σ σ' t : Store} (h : Follows s r σ t) {i : Int64} {y : Value}
    (hy : applyAt (domain call) f xs axis (.int i) σ = .ok y σ') :
    ∃ z t', applyAt (domain call) f xs axis (.int i) t = .ok z t' ∧ Follows s r σ' t' ∧ t'.cells r = t.cells r ∧
      (∀ {elt shape}, y.HasForm elt shape → z.HasForm elt shape) ∧ ∀ p, z.element? t' p = y.element? σ' p := by
  obtain ⟨w, hle, hb⟩ := h
  obtain ⟨z, t', w', hz, hle', hb', hlike, hcells⟩ := hb.applyAt hcall (hf.likes hle) (Value.Live.likes_all hxs hle) hy
  exact ⟨z, t', hz, ⟨w', hle.trans hle', hb'⟩, hcells, fun h => h.alike hlike,
    fun p => (Value.element?_alike hb'.agree hlike p).symm⟩

/-- A step of the map keeps up with the application alone, unless it cannot store the result. -/
theorem storeAt_follows {u : View} {σ σ' t : Store} (h : Follows s u.buffer σ t) {k : Nat} {y : Value}
    (hy : applyAt (domain call) f xs axis (.ofInt k) σ = .ok y σ') :
    (∃ e t', storeAt call u (applied call f xs axis) () k t = .error e t') ∨
      ∃ a t', storeAt call u (applied call f xs axis) () k t = .ok a t' ∧ Follows s u.buffer σ' t' := by
  obtain ⟨z, t1, hz, hfollows, -⟩ := applyAt_follows hcall hf hxs h hy
  have hstore : storeAt call u (applied call f xs axis) () k t = put (domain call) (.array u) (.ofInt k) z t1 := by
    rw [storeAt_applied]
    exact state_bind_of_ok hz
  rw [hstore]
  cases hput : put (domain call) (.array u) (.ofInt k) z t1 with
  | error e t' => exact .inl ⟨e, t', rfl⟩
  | ok a t' =>
    obtain ⟨g, rfl⟩ := put_ok hput
    exact .inr ⟨a, _, rfl, hfollows.modify g⟩

theorem map_ok (hc : Common xs axis n) (hn : 1 ≤ n.toInt)
    (hrun : Runs (fun i => Eval.invokeAt call f xs axis i) s n.toInt.toNat results stores)
    (hform : ∀ i < n.toInt.toNat, (results i).HasForm elt shape) :
    ∃ b s', map (domain call) f xs axis s = .ok (.array (.rowMajorAt elt (n.toInt :: shape) b)) s' ∧ s.size ≤ b ∧
      (∀ c < s.size, s'.cells c = (stores n.toInt.toNat).cells c) ∧
      View.Stacked (.rowMajorAt elt (n.toInt :: shape) b) shape (entries results fun i => stores (i + 1))
        (Rows n.toInt.toNat) s' := by
  have happly : ∀ {i : Nat}, i < n.toInt.toNat →
      applyAt (domain call) f xs axis (.ofInt i) (stores i) = .ok (results i) (stores (i + 1)) :=
    applyAt_of_runs hc (by omega) hrun
  have hfirst : applyAt (domain call) f xs axis (.int 0) s = .ok (results 0) (stores 1) :=
    hrun.start ▸ happly (i := 0) (by omega)
  obtain ⟨hsize, w, hle, hagree, hlike⟩ := applyAt_first hcall hf hxs hfirst
  generalize hu : View.rowMajorAt elt (n.toInt :: shape) (stores 1).size = u
  have hzero : ∀ p, Within shape p →
      (results 0).element? (stores 1) p = entries results (fun i => stores (i + 1)) [0] p := fun p _ =>
    (entries_natCast results (fun i => stores (i + 1)) 0 p).symm
  obtain ⟨t1, t2, halloc, hput, hone, hstack, w', hle', hbeside⟩ := begin_stacked call hn (hform 0 (by omega))
    hagree hlike hzero hu.symm
  have hstep : ∀ (k : Nat) (a : Unit) t, (k : Int) < n.toInt → Follows s u.buffer (stores k) t →
      ∃ a' y t', applied call f xs axis a k t = .ok (a', y) t' ∧ Follows s u.buffer (stores (k + 1)) t' ∧
        t'.cells u.buffer = t.cells u.buffer ∧ y.HasForm u.elt shape ∧
        ∀ p, Within shape p → y.element? t' p = entries results (fun i => stores (i + 1)) [(k : Int)] p := by
    intro k a t hk hfollows
    obtain ⟨y, t', hy, hfollows', hcells, hyform, hyel⟩ := applyAt_follows hcall hf hxs hfollows (happly (by omega))
    refine ⟨(), y, t', state_bind_of_ok hy, hfollows', hcells, ?_, fun p _ => ?_⟩
    · rw [← hu]
      exact hyform (hform k (by omega))
    · rw [entries_natCast, hyel]
  obtain ⟨a', s', hloop, hfollows, hstack'⟩ := loop_stacked call (by rw [← hu]; rfl)
    (by rw [← hu]; exact length_rowMajor _) hstep (fun k a t g h => h.modify g) hn
    ⟨w', hle.trans hle', hbeside⟩ hone hstack
  refine ⟨(stores 1).size, s', ?_, hsize, fun c hlt => hfollows.cells hlt, by rw [hu]; exact hstack'⟩
  rw [hu]
  unfold map
  rw [commonExtent_eq hc, pure_bind]
  show (applyAt (domain call) f xs axis (.int 0) >>= _) s = _
  rw [state_bind_of_ok hfirst]
  show (Eval.alloc (results 0) [.int n] >>= _) _ = _
  rw [state_bind_of_ok halloc]
  show (put (domain call) (.array u) (.int 0) (results 0) >>= _) _ = _
  rw [state_bind_of_ok hput]
  show ((domain call).loop (.int 1) (.int n) _ >>= _) _ = _
  rw [loop_eq, ← storeAt_applied]
  exact state_bind_of_ok hloop

/-- An invocation that fails ends the map. -/
theorem map_error (hc : Common xs axis n) {m : Nat} (hm : (m : Int) < n.toInt)
    (hrun : Runs (fun i => Eval.invokeAt call f xs axis i) s m results stores) {e : Fault} {σ : Store}
    (hfail : Eval.invokeAt call f xs axis m (stores m) = .error e σ) (v : Value) (s' : Store) :
    map (domain call) f xs axis s ≠ .ok v s' := by
  intro hmap
  obtain ⟨-, k, hk, -, y, s1, u, cells, g, hy, hu, hloop⟩ := map_inv hmap
  obtain ⟨x, hx, hlt⟩ := hc.present
  obtain rfl : n = k := by rw [← hk x hx _ (hc.extent x hx hlt), Int64.ofInt_toInt]
  rw [← applyAt_natCast hc hm] at hfail
  cases m with
  | zero =>
    rw [hrun.start] at hfail
    cases hy.symm.trans hfail
  | succ m =>
    have happly : ∀ {i : Nat}, i < m + 1 →
        applyAt (domain call) f xs axis (.ofInt i) (stores i) = .ok (results i) (stores (i + 1)) :=
      applyAt_of_runs hc (by omega) hrun
    have hfirst : applyAt (domain call) f xs axis (.int 0) s = .ok (results 0) (stores 1) :=
      hrun.start ▸ happly (i := 0) (by omega)
    cases hy.symm.trans hfirst
    obtain ⟨-, w, hle, hagree, -⟩ := applyAt_first hcall hf hxs hfirst
    obtain ⟨w', hle', hbeside⟩ := Beside.of_agree hagree (.alloc _ cells) (Nat.le_of_eq hu.symm)
      (by rw [hu, Store.size_alloc]; exact Nat.lt_succ_self _)
    have hpos : ∀ k : Nat, (1 : Int) + k = ((k + 1 : Nat) : Int) := fun k => by omega
    -- after `k` steps the loop has kept up with `k + 1` applications
    let I := fun (k : Nat) (_ : Unit) t => Follows s u.buffer (stores (k + 1)) t
    have hbegin : I 0 () (((stores 1).alloc cells).2.modify u.buffer g) :=
      Follows.modify ⟨w', hle.trans hle', hbeside⟩ g
    have hstep : ∀ k < m, ∀ a t, I k a t → (∃ e t', storeAt call u (applied call f xs axis) a (1 + k) t = .error e t') ∨
        ∃ a' t', storeAt call u (applied call f xs axis) a (1 + k) t = .ok a' t' ∧ I (k + 1) a' t' := by
      intro k hkm _ t h
      rw [hpos]
      exact storeAt_follows hcall hf hxs h (happly (by omega))
    have hlast : ∀ a t, I m a t → ∃ e t', storeAt call u (applied call f xs axis) a (1 + m) t = .error e t' := by
      rintro _ t ⟨w, hle, hb⟩
      obtain ⟨e', t', he⟩ :=
        hb.fails (applyAt_inStep hcall.alike (hf.likes hle) (Value.Live.likes_all hxs hle) axis .int) hfail
      rw [storeAt_applied, hpos]
      exact ⟨e', t', state_bind_of_error he⟩
    obtain ⟨e', t', herror⟩ := Eval.countUp_error hstep hlast (n := (n.toInt - 1).toNat) (by omega) hbegin
    cases hloop.symm.trans herror

end Map

end Adverb

end ArrayIR
