/-
  ArrayIR.Proofs.Answer — what can be seen of a run.

  A run on arguments whose buffers exist answers with a value, which is seen through
  its dump, and with the contents its buffers have then (`Session.Answers`). Buffers
  are numbered as they are allocated, and the numbers cannot be seen: runs that end
  with alike values in agreeing stores have the same answer (`Outcome.answers_iff`).
-/

import ArrayIR.Dump
import ArrayIR.Proofs.Simulation

namespace ArrayIR

namespace Value

mutual

/-- The buffers that a value refers to. -/
def buffers : Value → List BufferId
  | .scalar _ | .nothing | .slice _ _ _ => []
  | .tuple items => buffersList items
  | .buffer _ b => [b]
  | .array v => [v.buffer]
  | .closure _ captured => buffersList captured

def buffersList : List Value → List BufferId
  | [] => []
  | v :: vs => v.buffers ++ buffersList vs

end

mutual

theorem alike_self {k : Likeness} (hk : ∀ f, k.fns f) {R : BufferId → BufferId → Prop} : ∀ {v : Value},
    (∀ b ∈ v.buffers, R b b) → v.Alike k R v
  | .scalar _, _ | .nothing, _ | .slice _ _ _, _ => rfl
  | .tuple items, h => ⟨items, rfl, alikeList_self hk h⟩
  | .buffer _ b, h => ⟨b, rfl, h b List.mem_cons_self⟩
  | .array v, h => ⟨v, rfl, rfl, rfl, .inl ⟨rfl, rfl, h v.buffer List.mem_cons_self⟩⟩
  | .closure f captured, h => ⟨captured, rfl, hk f, alikeList_self hk h⟩

theorem alikeList_self {k : Likeness} (hk : ∀ f, k.fns f) {R : BufferId → BufferId → Prop} : ∀ {vs : List Value},
    (∀ b ∈ buffersList vs, R b b) → AlikeList k R vs vs
  | [], _ => rfl
  | v :: vs, h => ⟨v, vs, rfl, alike_self hk fun b hb => h b (List.mem_append_left _ hb),
      alikeList_self hk fun b hb => h b (List.mem_append_right _ hb)⟩

end

end Value

namespace Dump

variable {w : Pairing} {s s' : Store}

theorem view_alike (hst : Agree .strict w s s') {v u : View} (h : v.Alike .strict w.rel u) : view s v = view s' u := by
  rcases h.layout with ⟨hs, ho, hr⟩ | ⟨h, -⟩
  · rw [view, view, h.elt, h.shape, hs, ho, hst.cells trivial hr]
  · exact h.elim

mutual

/-- Alike values look the same. -/
theorem value_alike (hst : Agree .strict w s s') : ∀ {v u : Value}, v.Alike .strict w.rel u → value s v = value s' u
  | .scalar _, _, h | .nothing, _, h | .slice _ _ _, _, h => by
    cases h
    rfl
  | .tuple items, _, h => by
    obtain ⟨ys, rfl, h⟩ := h
    rw [value, value, valueList_alike hst h]
  | .buffer elt b, _, h => by
    obtain ⟨c, rfl, h⟩ := h
    rw [value, value, hst.cells trivial h]
  | .array v, _, h => by
    obtain ⟨u, rfl, h⟩ := h
    rw [value, value, view_alike hst h]
  | .closure f captured, _, h => by
    obtain ⟨ys, rfl, -, h⟩ := h
    rw [value, value, valueList_alike hst h]

theorem valueList_alike (hst : Agree .strict w s s') : ∀ {vs us : List Value}, Value.AlikeList .strict w.rel vs us →
    valueList s vs = valueList s' us
  | [], _, h => by
    cases h
    rfl
  | v :: vs, _, h => by
    obtain ⟨u, us, rfl, h, hs⟩ := h
    rw [valueList, valueList, value_alike hst h, valueList_alike hst hs]

end

end Dump

/-- The integer that a run has returned. -/
def Eval.integer? {σ : Type} : EStateM.Result Fault σ Value → Option Int64
  | .ok (.scalar (.int i)) _ => some i
  | _ => none

/-- With enough fuel, a run answers with a value that is shown as `d`, and leaves the buffers that were
there with the contents `cells`. -/
def Answered (run : Nat → Exec Value) (st : Store) (d : Dump) (cells : BufferId → Array Scalar) : Prop :=
  ∃ fuel v st₁, run fuel st = .ok v st₁ ∧ Dump.value st₁ v = d ∧ ∀ b < st.size, st₁.cells b = cells b

/-- The function returns a value that is shown as `d`, and leaves the buffers that were there with the
contents `cells`. -/
def Session.Answers (s : Session) (fn : FnName) (args : List Value) (st : Store) (d : Dump)
    (cells : BufferId → Array Scalar) : Prop :=
  ∃ fuel v st₁, s.call fuel fn args st = .ok v st₁ ∧ Dump.value st₁ v = d ∧ ∀ b < st.size, st₁.cells b = cells b

/-- Alike values in agreeing stores are the same answer. -/
theorem Agree.same_answer {n : Nat} {w : Pairing} {v u : Value} {s s' : Store} (h : Agree .strict w s s')
    (hle : Pairing.identity n ≤ w) (hv : Likes .strict w v u) :
    Dump.value s v = Dump.value s' u ∧ ∀ b < n, s.cells b = s'.cells b :=
  ⟨Dump.value_alike h hv, fun _ hb => h.cells trivial (hle.rel ⟨rfl, hb⟩)⟩

variable {st : Store} {d : Dump} {cells : BufferId → Array Scalar}

/-- Runs that are alike wherever the first succeeds have the answers of the first. -/
theorem Outcome.answered {x y : Nat → Exec Value}
    (h : ∀ fuel v st1, x fuel st = .ok v st1 → Outcome (.identity st.size) (Ends .strict (Likes .strict)) (x fuel st)
      (y fuel st)) : Answered x st d cells → Answered y st d cells := by
  rintro ⟨fuel, v, st1, hv, rfl, hc⟩
  have ho := h fuel v st1 hv
  rw [hv] at ho
  obtain ⟨u, st2, hu, w, hle, hst, hl⟩ := ho.ok_left
  obtain ⟨hd, hcells⟩ := hst.same_answer hle hl
  exact ⟨fuel, u, st2, hu, hd.symm, fun b hb => (hcells b hb).symm.trans (hc b hb)⟩

/-- Runs that are alike from the same store have the same answers. -/
theorem Outcome.answered_iff {x y : Nat → Exec Value}
    (h : ∀ fuel, Outcome (.identity st.size) (Ends .strict (Likes .strict)) (x fuel st) (y fuel st)) :
    Answered x st d cells ↔ Answered y st d cells := by
  refine ⟨Outcome.answered fun fuel _ _ _ => h fuel, ?_⟩
  rintro ⟨fuel, u, st2, hu, rfl, hc⟩
  have ho := h fuel
  rw [hu] at ho
  obtain ⟨v, st1, hv, w, hle, hst, hl⟩ := ho.ok_right
  obtain ⟨hd, hcells⟩ := hst.same_answer hle hl
  exact ⟨fuel, v, st1, hv, hd, fun b hb => (hcells b hb).trans (hc b hb)⟩

/-- Functions that run alike from the same store have the same answers. -/
theorem Outcome.answers_iff {s s' : Session} {fn fn' : FnName} {args args' : List Value}
    (h : ∀ fuel, Outcome (.identity st.size) (Ends .strict (Likes .strict)) (s.call fuel fn args st)
      (s'.call fuel fn' args' st)) :
    s.Answers fn args st d cells ↔ s'.Answers fn' args' st d cells :=
  Outcome.answered_iff (x := fun fuel => s.call fuel fn args) (y := fun fuel => s'.call fuel fn' args') h

end ArrayIR
