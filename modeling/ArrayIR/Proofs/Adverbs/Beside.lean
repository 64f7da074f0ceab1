/-
  ArrayIR.Proofs.Adverbs.Beside — running a loop beside the array that it fills.

  An adverb allocates its result and then goes on calling. The calls do not know of the
  result: they do what they would do in a store without it, and they leave it alone
  (`Beside.run`). So a loop that calls and stores in turn is followed step by step in a
  run that only calls, by an invariant that every step keeps up (`Eval.countUp_ok`).
-/

import ArrayIR.Proofs.Apart

namespace ArrayIR

/-! ## Values that live in a store -/

/-- The buffers that the value refers to are there. -/
def Value.Live (s : Store) (v : Value) : Prop := ∀ b ∈ v.buffers, b < s.size

theorem Value.Live.likes {s : Store} {v : Value} (h : v.Live s) {w : Pairing} (hle : .identity s.size ≤ w) :
    Likes .strict w v v :=
  Value.alike_self (fun _ => trivial) fun b hb => hle.rel ⟨rfl, h b hb⟩

theorem Value.Live.likes_all {s : Store} {vs : List Value} (h : ∀ v ∈ vs, v.Live s) {w : Pairing}
    (hle : .identity s.size ≤ w) : List.Forall₂ (Likes .strict w) vs vs :=
  List.forall₂_same.mpr fun v hv => (h v hv).likes hle

mutual

/-- The buffers of a value stand for buffers of the values that it is like. -/
theorem Value.Alike.mem_buffers {R : BufferId → BufferId → Prop} {c : BufferId} : ∀ {v u : Value}, v.Alike .strict R u →
    c ∈ u.buffers → ∃ b, R b c
  | .scalar _, _, rfl, hc | .nothing, _, rfl, hc | .slice _ _ _, _, rfl, hc => absurd hc (by simp [Value.buffers])
  | .tuple _, _, ⟨_, rfl, h⟩, hc => h.mem_buffersList hc
  | .buffer _ b, _, ⟨_, rfl, h⟩, hc => ⟨b, List.mem_singleton.mp hc ▸ h⟩
  | .array v, _, ⟨_, rfl, h⟩, hc => by
    rcases h.layout with ⟨-, -, hr⟩ | ⟨hloose, -⟩
    · exact ⟨v.buffer, List.mem_singleton.mp hc ▸ hr⟩
    · exact hloose.elim
  | .closure _ _, _, ⟨_, rfl, _, h⟩, hc => h.mem_buffersList hc

theorem Value.AlikeList.mem_buffersList {R : BufferId → BufferId → Prop} {c : BufferId} : ∀ {vs us : List Value},
    AlikeList .strict R vs us → c ∈ buffersList us → ∃ b, R b c
  | [], _, rfl, hc => absurd hc (by simp [Value.buffersList])
  | _ :: _, _, ⟨_, _, rfl, h, hs⟩, hc => (List.mem_append.mp hc).elim h.mem_buffers hs.mem_buffersList

end

/-- A computation that is in step with itself, seen once. -/
theorem InStep.again {α : Type} {w : Pairing} {P : Pairing → α → α → Prop} {x : Exec α} (h : InStep .strict w P x x)
    {σ σ' : Store} (hσ : Agree .strict w σ σ) {a : α} (hx : x σ = .ok a σ') :
    ∃ w', w ≤ w' ∧ Agree .strict w' σ' σ' ∧ P w' a a := by
  have ho := h σ σ hσ
  rw [hx] at ho
  exact ho

/-! ## Running beside a buffer -/

/-- Calls are in step on alike arguments, and leave alone the buffers that their arguments do not refer to. -/
structure Caller.Local (call : Caller) : Prop where
  alike : CallersAlike .strict call call
  leaves : ∀ r, CallerLeaves r call

theorem Session.call_local (s : Session) (fuel : Nat) : Caller.Local (s.call fuel) :=
  ⟨Session.call_inStep s.strict_admits fuel, fun r => s.call_leaves r fuel⟩

/-- The second store agrees with the first, and has the buffer `r` besides, which stands for none. -/
structure Beside (r : BufferId) (w : Pairing) (σ t : Store) : Prop where
  agree : Agree .strict w σ t
  live : r < t.size
  apart : ∀ b, ¬ w.rel b r

namespace Beside

variable {r : BufferId} {w w' : Pairing} {σ σ' t t' : Store}

theorem later (h : Beside r w σ t) (hle : w ≤ w') (hagree : Agree .strict w' σ' t') : Beside r w' σ' t' := by
  have hlive : r < w.right := h.agree.right ▸ h.live
  refine ⟨hagree, ?_, fun b hb => h.apart b (hle.old hb (.inr hlive))⟩
  rw [hagree.right]
  exact Nat.lt_of_lt_of_le hlive hle.right

/-- Nothing depends on what the buffer holds. -/
theorem modify (h : Beside r w σ t) (f : Array Scalar → Array Scalar) : Beside r w σ (t.modify r f) where
  agree :=
    { left := h.agree.left
      right := by rw [Store.size_modify, h.agree.right]
      cells := by
        intro hk b c hbc
        have hc : c ≠ r := by
          rintro rfl
          exact h.apart b hbc
        rw [Store.cells_modify_ne t f hc]
        exact h.agree.cells hk hbc
      oneToOne := h.agree.oneToOne }
  live := by rw [Store.size_modify]; exact h.live
  apart := h.apart

/-- A store that has grown, with a buffer that was not there before. -/
theorem of_agree (h : Agree .strict w σ σ') (hgrows : σ'.Grows t) (hr : σ'.size ≤ r) (hlive : r < t.size) :
    ∃ w', w ≤ w' ∧ Beside r w' σ t := by
  refine ⟨_, Pairing.le_grow _ _ _, h.grow (.refl σ) hgrows, hlive, fun b hb => ?_⟩
  have hlt : r < σ'.size := h.right ▸ (w.bounded hb).2
  exact Nat.not_lt.mpr hr hlt

theorem of_grows (h : σ.Grows t) (hr : σ.size ≤ r) (hlive : r < t.size) : ∃ w, .identity σ.size ≤ w ∧ Beside r w σ t :=
  of_agree (Agree.identity .strict σ) h hr hlive

/-- What is like something does not refer to the buffer. -/
theorem avoids (h : Beside r w σ t) {x y : Value} (hxy : Likes .strict w x y) : y.Avoids r := by
  intro hr
  obtain ⟨b, hb⟩ := hxy.mem_buffers hr
  exact h.apart b hb

theorem allAvoid (h : Beside r w σ t) {xs ys : List Value} (hxy : List.Forall₂ (Likes .strict w) xs ys) :
    Value.AllAvoid r ys := by
  induction hxy with
  | nil => exact fun _ hv => absurd hv List.not_mem_nil
  | cons hx _ ih => exact List.forall_mem_cons.mpr ⟨h.avoids hx, ih⟩

variable {α β : Type} {P : Pairing → α → β → Prop} {Q : β → Prop} {x : Exec α} {y : Exec β}

/-- What succeeds in the first store does so in the second, and leaves the buffer alone. -/
theorem run (h : Beside r w σ t) (hstep : InStep .strict w P x y) (hleaves : Leaves r Q y) {a : α}
    (hx : x σ = .ok a σ') :
    ∃ b t' w', y t = .ok b t' ∧ w ≤ w' ∧ Beside r w' σ' t' ∧ P w' a b ∧ t'.cells r = t.cells r := by
  have ho := hstep σ t h.agree
  rw [hx] at ho
  obtain ⟨b, t', hy, w', hle, hagree, hp⟩ := ho.ok_left
  exact ⟨b, t', w', hy, hle, h.later hle hagree, hp, (hleaves h.live hy).2.1⟩

theorem fails (h : Beside r w σ t) (hstep : InStep .strict w P x y) {e : Fault} (hx : x σ = .error e σ') :
    ∃ e' t', y t = .error e' t' := by
  have ho := hstep σ t h.agree
  rw [hx] at ho
  cases hy : y t with
  | error e' t' => exact ⟨e', t', rfl⟩
  | ok b t' =>
    rw [hy] at ho
    exact ho.elim

variable {call : Caller} (hcall : call.Local) {f g : Value} {xs ys : List Value}
include hcall

theorem invoke (h : Beside r w σ t) (hf : Likes .strict w f g) (hxs : List.Forall₂ (Likes .strict w) xs ys) {y : Value}
    (hy : Eval.invoke call f xs σ = .ok y σ') :
    ∃ z t' w', Eval.invoke call g ys t = .ok z t' ∧ w ≤ w' ∧ Beside r w' σ' t' ∧ Likes .strict w' y z ∧
      t'.cells r = t.cells r :=
  h.run (Eval.invoke_inStep hcall.alike hf hxs)
    (Adverb.invoke_leaves (hcall.leaves r) (h.avoids hf) (h.allAvoid hxs)) hy

theorem applyAt (h : Beside r w σ t) (hf : Likes .strict w f g)
    (hxs : List.Forall₂ (Likes .strict w) xs ys) {axis : Nat} {i : Int64} {y : Value}
    (hy : Adverb.applyAt (Eval.domain call) f xs axis (.int i) σ = .ok y σ') :
    ∃ z t' w', Adverb.applyAt (Eval.domain call) g ys axis (.int i) t = .ok z t' ∧ w ≤ w' ∧ Beside r w' σ' t' ∧
      Likes .strict w' y z ∧ t'.cells r = t.cells r :=
  h.run (Adverb.applyAt_inStep hcall.alike hf hxs axis .int)
    (Adverb.applyAt_leaves (hcall.leaves r) (h.avoids hf) (h.allAvoid hxs) axis _) hy

end Beside

/-- Since the store `s`, the second store has kept up with the first one beside the buffer. -/
def Follows (s : Store) (r : BufferId) (σ t : Store) : Prop := ∃ w, .identity s.size ≤ w ∧ Beside r w σ t

namespace Follows

variable {s σ t : Store} {r : BufferId}

theorem modify (h : Follows s r σ t) (f : Array Scalar → Array Scalar) : Follows s r σ (t.modify r f) :=
  h.imp fun _ ⟨hle, hb⟩ => ⟨hle, hb.modify f⟩

theorem cells (h : Follows s r σ t) {b : BufferId} (hb : b < s.size) : t.cells b = σ.cells b := by
  obtain ⟨w, hle, hbeside⟩ := h
  exact (hbeside.agree.cells trivial (hle.rel ⟨rfl, hb⟩)).symm

end Follows

/-! ## Loops -/

theorem state_bind_of_error {α β σ ε : Type} {x : EStateM ε σ α} {f : α → EStateM ε σ β} {s t : σ} {e : ε}
    (h : x s = .error e t) : (x >>= f) s = .error e t := by
  show EStateM.bind x f s = _
  rw [EStateM.bind, h]

namespace Eval

variable {α : Type} {body : α → Int → Exec α} {I : Nat → α → Store → Prop} {i : Int} {n : Nat}

/-- What every step keeps up holds after the loop, and the loop succeeds if the steps do. -/
theorem countUp_ok (step : ∀ k < n, ∀ a t, I k a t → ∃ a' t', body a (i + k) t = .ok a' t' ∧ I (k + 1) a' t') {a : α}
    {t : Store} (h : I 0 a t) : ∃ a' t', countUp body n i a t = .ok a' t' ∧ I n a' t' := by
  have go : ∀ m k a t, k + m = n → I k a t → ∃ a' t', countUp body m (i + k) a t = .ok a' t' ∧ I n a' t' := by
    intro m
    induction m with
    | zero =>
      intro k a t hk h
      obtain rfl : k = n := hk
      exact ⟨a, t, rfl, h⟩
    | succ m ih =>
      intro k a t hk h
      obtain ⟨a1, t1, hbody, h1⟩ := step k (by omega) a t h
      obtain ⟨a2, t2, hrest, h2⟩ := ih (k + 1) a1 t1 (by omega) h1
      refine ⟨a2, t2, ?_, h2⟩
      rw [countUp, state_bind_of_ok hbody, Int.add_assoc]
      exact hrest
  have := go n 0 a t (Nat.zero_add n) h
  rwa [Int.natCast_zero, Int.add_zero] at this

/-- A loop fails if one of its steps is bound to, unless it has failed before. -/
theorem countUp_error {m : Nat} (step : ∀ k < m, ∀ a t, I k a t → (∃ e t', body a (i + k) t = .error e t') ∨
      ∃ a' t', body a (i + k) t = .ok a' t' ∧ I (k + 1) a' t')
    (last : ∀ a t, I m a t → ∃ e t', body a (i + m) t = .error e t') (hm : m < n) {a : α} {t : Store} (h : I 0 a t) :
    ∃ e t', countUp body n i a t = .error e t' := by
  have go : ∀ c k a t, k + c = n → k ≤ m → I k a t → ∃ e t', countUp body c (i + k) a t = .error e t' := by
    intro c
    induction c with
    | zero =>
      intro k a t hk hkm
      omega
    | succ c ih =>
      intro k a t hk hkm h
      have hbody : (∃ e t', body a (i + k) t = .error e t') ∨
          ∃ a' t', k < m ∧ body a (i + k) t = .ok a' t' ∧ I (k + 1) a' t' := by
        by_cases hlt : k < m
        · exact (step k hlt a t h).imp_right fun ⟨a', t', hb, h'⟩ => ⟨a', t', hlt, hb, h'⟩
        · obtain rfl : k = m := by omega
          exact .inl (last a t h)
      rw [countUp]
      rcases hbody with ⟨e, t', hb⟩ | ⟨a', t', hlt, hb, h'⟩
      · exact ⟨e, t', state_bind_of_error hb⟩
      · rw [state_bind_of_ok hb, Int.add_assoc]
        exact ih (k + 1) a' t' (by omega) hlt h'
  have := go n 0 a t (Nat.zero_add n) (Nat.zero_le m) h
  rwa [Int.natCast_zero, Int.add_zero] at this

end Eval

end ArrayIR
