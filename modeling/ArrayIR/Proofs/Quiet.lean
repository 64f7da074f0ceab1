/-
  ArrayIR.Proofs.Quiet — expressions whose evaluation changes no buffer.

  A quiet expression may allocate, and write to what it has allocated, but leaves
  every buffer that is there before as it is. What quiet expressions evaluate to
  does not depend on the order in which they are evaluated (`inTurn_perm`): each of
  them sees the buffers that were there at the start, and the buffers that different
  ones allocate are apart, so the pairings of the single evaluations can be put
  together to one pairing of the whole (`Piece.union`).
-/

import ArrayIR.Proofs.Simulation
import ArrayIR.Proofs.Success
import Mathlib.Data.List.Pairwise
import Mathlib.Data.List.Perm.Basic

namespace ArrayIR

namespace Eval

/-- Evaluating the expression changes no buffer that is there before. -/
def Quiet (call : Caller) (e : Expr) : Prop :=
  ∀ L st v st', expr call L e st = .ok v st' → st.Grows st'

/-! ## Computations in turn -/

/-- Named computations one after the other. -/
def inTurn : List (VarName × Exec Value) → Exec (List (VarName × Value))
  | [] => pure []
  | (x, c) :: cs => do
    let v ← c
    return (x, v) :: (← inTurn cs)

theorem mergeValues_eq_inTurn (call : Caller) (L : Locals) (side : Expr × Expr → Expr)
    (es : List (VarName × Expr × Expr)) :
    mergeValues call L side es = inTurn (es.map fun p => (p.1, expr call L (side p.2))) := by
  induction es with
  | nil => rfl
  | cons e es ih =>
    obtain ⟨x, sides⟩ := e
    rw [mergeValues, List.map_cons, inTurn, ih]

/-- One computation of several in turn: its name and value, the stores before and after it. -/
structure Piece where
  name : VarName
  value : Value
  before : Store
  after : Store

namespace Piece

/-- The piece is a run of the computation, some time after `st` and some time before `t`. -/
structure Of (st t : Store) (c : VarName × Exec Value) (p : Piece) : Prop where
  name : p.name = c.1
  start : st.Grows p.before
  run : c.2 p.before = .ok p.value p.after
  grows : p.before.Grows p.after
  stop : p.after.Grows t

/-- The buffers that two pieces allocate are different. -/
def Apart (p q : Piece) : Prop := p.after.size ≤ q.before.size ∨ q.after.size ≤ p.before.size

def binding (p : Piece) : VarName × Value := (p.name, p.value)

end Piece

theorem inTurn_ok {cs : List (VarName × Exec Value)} {st : Store}
    (h : ∀ c ∈ cs, ∀ s, st.Grows s → ∃ v t, c.2 s = .ok v t ∧ s.Grows t) :
    ∃ ps t, inTurn cs st = .ok (ps.map Piece.binding) t ∧ st.Grows t ∧ List.Forall₂ (Piece.Of st t) cs ps ∧
      ps.Pairwise Piece.Apart := by
  induction cs generalizing st with
  | nil => exact ⟨[], st, rfl, .refl st, .nil, .nil⟩
  | cons c cs ih =>
    obtain ⟨x, c⟩ := c
    obtain ⟨v, s, hv, hs⟩ := h _ List.mem_cons_self st (.refl st)
    obtain ⟨ps, t, hps, hst, hof, hpw⟩ := ih fun c hc s' hs' => h c (List.mem_cons_of_mem _ hc) s' (hs.trans hs')
    refine ⟨⟨x, v, st, s⟩ :: ps, t, ?_, hs.trans hst, .cons ⟨rfl, .refl st, hv, hs, hst⟩ ?_, ?_⟩
    · show EStateM.bind c _ st = _
      unfold EStateM.bind
      dsimp only at hv
      rw [hv]
      show EStateM.bind (inTurn cs) _ s = _
      unfold EStateM.bind
      rw [hps]
      rfl
    · exact hof.imp fun _ _ h => { h with start := hs.trans h.start }
    · refine List.pairwise_cons.mpr ⟨fun q hq => .inl ?_, hpw⟩
      obtain ⟨c, -, hc⟩ := forall₂_mem_left hof.flip hq
      exact hc.start.size

theorem inTurn_good {cs : List (VarName × Exec Value)} {st t : Store} {vs : List (VarName × Value)}
    (hq : ∀ c ∈ cs, ∀ s v s', st.Grows s → c.2 s = .ok v s' → s.Grows s') (h : inTurn cs st = .ok vs t) :
    ∀ c ∈ cs, ∃ s v s', st.Grows s ∧ c.2 s = .ok v s' := by
  induction cs generalizing st t vs with
  | nil => exact fun c hc => absurd hc List.not_mem_nil
  | cons c cs ih =>
    obtain ⟨x, c⟩ := c
    obtain ⟨v, s, hv, h⟩ := state_bind_ok h
    obtain ⟨us, s', hus, h⟩ := state_bind_ok h
    have hs : st.Grows s := hq _ List.mem_cons_self st v s (.refl st) hv
    intro d hd
    rcases List.mem_cons.mp hd with rfl | hd
    · exact ⟨st, v, s, .refl st, hv⟩
    · obtain ⟨s1, u, s2, hg, hr⟩ :=
        ih (fun c hc s' v s'' hs' => hq c (List.mem_cons_of_mem _ hc) s' v s'' (hs.trans hs'))
        hus d hd
      exact ⟨s1, u, s2, hs.trans hg, hr⟩

/-! ## Putting pairings together -/

namespace Piece

/-- Two pieces of two runs, and the pairing after them. -/
structure Pair where
  left : Piece
  right : Piece
  pairing : Pairing

def Pair.Apart (p q : Pair) : Prop := p.left.Apart q.left ∧ p.right.Apart q.right

instance : Std.Symm Pair.Apart := ⟨fun _ _ h => ⟨h.1.symm, h.2.symm⟩⟩

/-- The pairing after the two pieces is the one before them later on. -/
structure Pair.Ok (k : Likeness) (w : Pairing) (st st' t t' : Store) (p : Pair) : Prop where
  left : st.Grows p.left.before ∧ p.left.before.Grows p.left.after ∧ p.left.after.Grows t
  right : st'.Grows p.right.before ∧ p.right.before.Grows p.right.after ∧ p.right.after.Grows t'
  old : ∀ {b c : Nat}, p.pairing.rel b c → b < p.left.before.size ∨ c < p.right.before.size → w.rel b c
  rel : ∀ {b c : Nat}, w.rel b c → p.pairing.rel b c
  oneToOne : w.OneToOne → p.pairing.OneToOne
  agree : Agree k p.pairing p.left.after p.right.after

variable {k : Likeness} {w : Pairing} {st st' t t' : Store}

/-- A buffer is paired as it was before, or it has been allocated in the piece. -/
theorem Pair.Ok.cases {p : Pair} (h : p.Ok k w st st' t t') {b c : Nat} (hr : p.pairing.rel b c) :
    w.rel b c ∨ (p.left.before.size ≤ b ∧ b < p.left.after.size ∧ p.right.before.size ≤ c ∧
      c < p.right.after.size) := by
  by_cases ho : b < p.left.before.size ∨ c < p.right.before.size
  · exact .inl (h.old hr ho)
  · have hb := p.pairing.bounded hr
    rw [← h.agree.left, ← h.agree.right] at hb
    omega

/-- All that is paired before some pieces or after one of them. -/
def union (w : Pairing) (ps : List Pair) (hst : Agree k w st st') (h : ∀ p ∈ ps, p.Ok k w st st' t t')
    (hl : st.Grows t) (hr : st'.Grows t') : Pairing where
  rel b c := w.rel b c ∨ ∃ p ∈ ps, p.pairing.rel b c
  left := t.size
  right := t'.size
  bounded := by
    rintro b c (hbc | ⟨p, hp, hbc⟩)
    · have := w.bounded hbc
      rw [← hst.left, ← hst.right] at this
      exact ⟨Nat.lt_of_lt_of_le this.1 hl.size, Nat.lt_of_lt_of_le this.2 hr.size⟩
    · have := p.pairing.bounded hbc
      rw [← (h p hp).agree.left, ← (h p hp).agree.right] at this
      exact ⟨Nat.lt_of_lt_of_le this.1 (h p hp).left.2.2.size, Nat.lt_of_lt_of_le this.2 (h p hp).right.2.2.size⟩

variable {ps : List Pair} (hst : Agree k w st st') (h : ∀ p ∈ ps, p.Ok k w st st' t t') (hl : st.Grows t)
  (hr : st'.Grows t')

theorem union_oneToOne (hapart : ps.Pairwise Pair.Apart) (hw : w.OneToOne) :
    (union w ps hst h hl hr).OneToOne := by
  rintro b c b' c' (hbc | ⟨p, hp, hbc⟩) (hbc' | ⟨q, hq, hbc'⟩)
  · exact hw b c b' c' hbc hbc'
  · exact (h q hq).oneToOne hw b c b' c' ((h q hq).rel hbc) hbc'
  · exact (h p hp).oneToOne hw b c b' c' hbc ((h p hp).rel hbc')
  · by_cases hne : p = q
    · subst hne
      exact (h p hp).oneToOne hw b c b' c' hbc hbc'
    · rcases (h p hp).cases hbc with hold | hnew
      · exact (h q hq).oneToOne hw b c b' c' ((h q hq).rel hold) hbc'
      · rcases (h q hq).cases hbc' with hold' | hnew'
        · exact (h p hp).oneToOne hw b c b' c' hbc ((h p hp).rel hold')
        · have := hapart.forall hp hq hne
          unfold Pair.Apart Piece.Apart at this
          omega

theorem le_union (hapart : ps.Pairwise Pair.Apart) : w ≤ union w ps hst h hl hr where
  rel := .inl
  left := hst.left ▸ hl.size
  right := hst.right ▸ hr.size
  old := by
    rintro b c (hbc | ⟨p, hp, hbc⟩) ho
    · exact hbc
    · refine (h p hp).old hbc (ho.imp (fun hb => ?_) fun hc => ?_)
      · exact Nat.lt_of_lt_of_le hb (hst.left ▸ (h p hp).left.1.size)
      · exact Nat.lt_of_lt_of_le hc (hst.right ▸ (h p hp).right.1.size)
  oneToOne := union_oneToOne hst h hl hr hapart

theorem agree_union (hapart : ps.Pairwise Pair.Apart) : Agree k (union w ps hst h hl hr) t t' where
  left := rfl
  right := rfl
  cells := by
    rintro hk b c (hbc | ⟨p, hp, hbc⟩)
    · have hb := w.bounded hbc
      rw [hl.cells (hst.left ▸ hb.1), hr.cells (hst.right ▸ hb.2)]
      exact hst.cells hk hbc
    · have hb := p.pairing.bounded hbc
      rw [(h p hp).left.2.2.cells ((h p hp).agree.left ▸ hb.1),
        (h p hp).right.2.2.cells ((h p hp).agree.right ▸ hb.2)]
      exact (h p hp).agree.cells hk hbc
  oneToOne hs := union_oneToOne hst h hl hr hapart (hst.oneToOne hs)

end Piece

/-! ## The order of quiet computations -/

variable {k : Likeness} {w : Pairing} {R : VarName → VarName → Prop}

/-- Two named computations are in step from `w` on, and change none of the buffers of the two stores. -/
structure QuietPair (k : Likeness) (w : Pairing) (st st' : Store) (c d : VarName × Exec Value) : Prop where
  inStep : ∀ {w' : Pairing}, w ≤ w' → InStep k w' (Likes k) c.2 d.2
  left : ∀ s v t, st.Grows s → c.2 s = .ok v t → s.Grows t
  right : ∀ s v t, st'.Grows s → d.2 s = .ok v t → s.Grows t

namespace QuietPair

variable {st st' s s' : Store} {c d : VarName × Exec Value}

theorem outcome (h : QuietPair k w st st' c d) (hst : Agree k w st st') (hs : st.Grows s) (hs' : st'.Grows s') :
    Outcome (w.grow s.size s'.size (hst.left ▸ hs.size) (hst.right ▸ hs'.size)) (Ends k (Likes k)) (c.2 s) (d.2 s') :=
  h.inStep (Pairing.le_grow w _ _) s s' (hst.grow hs hs')

/-- If the first succeeds once, the second always does. -/
theorem right_ok (h : QuietPair k w st st' c d) (hst : Agree k w st st') {v : Value} {t : Store} (hs : st.Grows s)
    (hc : c.2 s = .ok v t) (hs' : st'.Grows s') : ∃ u t', d.2 s' = .ok u t' ∧ s'.Grows t' := by
  have ho := h.outcome hst hs hs'
  rw [hc] at ho
  cases hd : d.2 s' with
  | ok u t' => exact ⟨u, t', rfl, h.right s' u t' hs' hd⟩
  | error e t' => rw [hd] at ho; exact ho.elim

theorem left_ok (h : QuietPair k w st st' c d) (hst : Agree k w st st') {u : Value} {t' : Store} (hs' : st'.Grows s')
    (hd : d.2 s' = .ok u t') (hs : st.Grows s) : ∃ v t, c.2 s = .ok v t ∧ s.Grows t := by
  have ho := h.outcome hst hs hs'
  rw [hd] at ho
  cases hc : c.2 s with
  | ok v t => exact ⟨v, t, rfl, h.left s v t hs hc⟩
  | error e t => rw [hc] at ho; exact ho.elim

theorem pair (h : QuietPair k w st st' c d) (hst : Agree k w st st') {t t' : Store} {p q : Piece}
    (hp : p.Of st t c) (hq : q.Of st' t' d) :
    ∃ W, Piece.Pair.Ok k w st st' t t' ⟨p, q, W⟩ ∧ Likes k W p.value q.value := by
  have ho := h.outcome hst hp.start hq.start
  rw [hp.run, hq.run] at ho
  obtain ⟨W, hle, hag, hv⟩ := ho
  have hw := (Pairing.le_grow w _ _).trans hle
  exact ⟨W, ⟨⟨hp.start, hp.grows, hp.stop⟩, ⟨hq.start, hq.grows, hq.stop⟩, fun hr o => hle.old hr o, hw.rel,
    hw.oneToOne, hag⟩, hv⟩

end QuietPair

theorem Piece.of_exists {P : Piece → Piece → Pairing → Prop} {ps qs : List Piece}
    (h : List.Forall₂ (fun p q => ∃ W, P p q W) ps qs) :
    ∃ ts : List Piece.Pair, ts.map (·.left) = ps ∧ ts.map (·.right) = qs ∧ ∀ t ∈ ts, P t.left t.right t.pairing := by
  induction h with
  | nil => exact ⟨[], rfl, rfl, fun t ht => absurd ht List.not_mem_nil⟩
  | @cons p q _ _ hpq _ ih =>
    obtain ⟨W, hW⟩ := hpq
    obtain ⟨ts, hl, hr, ht⟩ := ih
    refine ⟨⟨p, q, W⟩ :: ts, by simp [hl], by simp [hr], fun t hm => ?_⟩
    rcases List.mem_cons.mp hm with rfl | hm
    · exact hW
    · exact ht t hm

theorem forall₂_join {α β γ δ : Type} {A : α → β → Prop} {B : α → γ → Prop} {C : β → δ → Prop} {P : γ → δ → Prop}
    {as : List α} {bs : List β} {cs : List γ} {ds : List δ} (h : List.Forall₂ A as bs) (hl : List.Forall₂ B as cs)
    (hr : List.Forall₂ C bs ds) (hP : ∀ a b c d, A a b → B a c → C b d → P c d) : List.Forall₂ P cs ds := by
  induction h generalizing cs ds with
  | nil =>
    cases hl
    cases hr
    exact .nil
  | cons hab _ ih =>
    cases hl with
    | cons hac hl =>
      cases hr with
      | cons hbd hr => exact .cons (hP _ _ _ _ hab hac hbd) (ih hl hr)

theorem Piece.names_eq {st t : Store} {cs : List (VarName × Exec Value)} {ps : List Piece}
    (h : List.Forall₂ (Piece.Of st t) cs ps) : (ps.map Piece.binding).map (·.1) = cs.map (·.1) := by
  induction h with
  | nil => rfl
  | cons h _ ih => simp only [List.map_cons, ih, Piece.binding, h.name]

/-- Quiet computations on the left, and in any order on the right, are in step. -/
theorem inTurn_perm {st st' : Store} (hst : Agree k w st st') {cs ds ds' : List (VarName × Exec Value)}
    (h : List.Forall₂ (fun c d => R c.1 d.1 ∧ QuietPair k w st st' c d) cs ds) (hp : ds'.Perm ds) :
    Outcome w (Ends k fun w vs us => ∃ us', us.Perm us' ∧
      List.Forall₂ (fun p q => R p.1 q.1 ∧ Likes k w p.2 q.2) vs us' ∧
        vs.map (·.1) = cs.map (·.1) ∧ us'.map (·.1) = ds.map (·.1))
      (inTurn cs st) (inTurn ds' st') := by
  have hleft : ∀ c ∈ cs, ∃ d ∈ ds, QuietPair k w st st' c d := fun c hc => by
    obtain ⟨d, hd, -, hcd⟩ := forall₂_mem_left h hc
    exact ⟨d, hd, hcd⟩
  have hright : ∀ d ∈ ds', ∃ c ∈ cs, QuietPair k w st st' c d := fun d hd => by
    obtain ⟨c, hc, -, hcd⟩ := forall₂_mem_left h.flip (hp.mem_iff.mp hd)
    exact ⟨c, hc, hcd⟩
  -- either every computation succeeds wherever it runs, or neither run does
  by_cases hgood : ∀ c ∈ cs, ∃ s v t, st.Grows s ∧ c.2 s = .ok v t
  · have hd : ∀ d ∈ ds', ∀ s', st'.Grows s' → ∃ u t', d.2 s' = .ok u t' ∧ s'.Grows t' := by
      intro d hd s' hs'
      obtain ⟨c, hc, hcd⟩ := hright d hd
      obtain ⟨s, v, t, hs, hv⟩ := hgood c hc
      exact hcd.right_ok hst hs hv hs'
    have hc : ∀ c ∈ cs, ∀ s, st.Grows s → ∃ v t, c.2 s = .ok v t ∧ s.Grows t := by
      intro c hc s hs
      obtain ⟨d, hd, hcd⟩ := hleft c hc
      obtain ⟨s0, v, t, hs0, hv⟩ := hgood c hc
      obtain ⟨u, t', hu, -⟩ := hcd.right_ok hst hs0 hv (.refl st')
      exact hcd.left_ok hst (.refl st') hu hs
    obtain ⟨ps, t, hps, hgl, hofl, hpwl⟩ := inTurn_ok hc
    obtain ⟨qs, t', hqs, hgr, hofr, hpwr⟩ := inTurn_ok hd
    -- the pieces of the right run in the order of the left one
    obtain ⟨qs', hofr', hperm⟩ := List.perm_comp_forall₂ hp.symm hofr
    obtain ⟨ts, rfl, rfl, hts⟩ := Piece.of_exists
      (P := fun p q W => R p.name q.name ∧ Piece.Pair.Ok k w st st' t t' ⟨p, q, W⟩ ∧ Likes k W p.value q.value)
      (forall₂_join h hofl hofr' fun c d p q hcd hp hq => by
        obtain ⟨W, hok, hv⟩ := hcd.2.pair hst hp hq
        exact ⟨W, by rw [hp.name, hq.name]; exact hcd.1, hok, hv⟩)
    have hok : ∀ p ∈ ts, p.Ok k w st st' t t' := fun p hp => (hts p hp).2.1
    have hapart : ts.Pairwise Piece.Pair.Apart :=
      (List.pairwise_map.mp hpwl).and (List.pairwise_map.mp (hpwr.perm hperm.symm Or.symm))
    rw [hps, hqs]
    refine ⟨Piece.union w ts hst hok hgl hgr, Piece.le_union hst hok hgl hgr hapart,
      Piece.agree_union hst hok hgl hgr hapart, (ts.map (·.right)).map Piece.binding, hperm.symm.map _, ?_, ?_, ?_⟩
    · rw [List.map_map, List.map_map, List.forall₂_map_left_iff, List.forall₂_map_right_iff, List.forall₂_same]
      exact fun p hp => ⟨(hts p hp).1, Value.Alike.mono (fun hr => .inr ⟨p, hp, hr⟩) (hts p hp).2.2⟩
    · exact Piece.names_eq hofl
    · exact Piece.names_eq hofr'
  · cases hl : inTurn cs st with
    | ok vs t => exact absurd (inTurn_good (fun c hc => (hleft c hc).elim fun _ hd => hd.2.left) hl) hgood
    | error e t =>
      cases hr : inTurn ds' st' with
      | error e' t' => trivial
      | ok us t' =>
        refine absurd (fun c hc => ?_) hgood
        have hgood' := inTurn_good (fun d hd => (hright d hd).elim fun _ hc => hc.2.right) hr
        obtain ⟨d, hd, hcd⟩ := hleft c hc
        obtain ⟨s', u, t', hs', hu⟩ := hgood' d (hp.mem_iff.mpr hd)
        obtain ⟨v, t, hv, -⟩ := hcd.left_ok hst hs' hu (.refl st)
        exact ⟨st, v, t, .refl st, hv⟩

/-! ## Copies of quiet expressions -/

end Eval

theorem View.Alike.self_right {k : Likeness} {R : BufferId → BufferId → Prop} {v u : View} (h : v.Alike k R u)
    {n : Nat} (hR : ∀ {b c}, R b c → c < n) : u.Alike k (Pairing.identity n).rel u :=
  ⟨rfl, rfl, h.layout.imp (fun h => ⟨rfl, rfl, rfl, hR h.2.2⟩) fun h => ⟨h.1, h.2.2, h.2.2⟩⟩

mutual

/-- A value that some value is alike to is alike to itself. -/
theorem Value.Alike.self_right {k : Likeness} {R : BufferId → BufferId → Prop} {n : Nat}
    (hR : ∀ {b c}, R b c → c < n) : ∀ {v u : Value}, v.Alike k R u → u.Alike k (Pairing.identity n).rel u
  | .scalar _, _, h => by subst h; rfl
  | .nothing, _, h => by subst h; rfl
  | .slice _ _ _, _, h => by subst h; rfl
  | .tuple _, _, ⟨ys, e, h⟩ => by subst e; exact ⟨ys, rfl, Value.AlikeList.self_right hR h⟩
  | .buffer _ _, _, ⟨c, e, h⟩ => by subst e; exact ⟨c, rfl, rfl, hR h⟩
  | .array _, _, ⟨u, e, h⟩ => by subst e; exact ⟨u, rfl, h.self_right hR⟩
  | .closure _ _, _, ⟨ys, e, hf, h⟩ => by subst e; exact ⟨ys, rfl, hf, Value.AlikeList.self_right hR h⟩

theorem Value.AlikeList.self_right {k : Likeness} {R : BufferId → BufferId → Prop} {n : Nat}
    (hR : ∀ {b c}, R b c → c < n) :
    ∀ {vs us : List Value}, Value.AlikeList k R vs us → Value.AlikeList k (Pairing.identity n).rel us us
  | [], _, h => by subst h; rfl
  | _ :: _, _, ⟨y, ys, e, h, hs⟩ => by
    subst e
    exact ⟨y, ys, rfl, h.self_right hR, Value.AlikeList.self_right hR hs⟩

end

theorem NameMap.exists_get? {α : Type} (f : String → Option α) (xs : List String) :
    ∃ m : NameMap α, ∀ x, m.get? x = if x ∈ xs then f x else none := by
  induction xs with
  | nil => exact ⟨.empty, fun x => by simp⟩
  | cons y xs ih =>
    obtain ⟨m, hm⟩ := ih
    cases hy : f y with
    | some v =>
      refine ⟨m.insert y v, fun x => ?_⟩
      rw [get?_insert, hm]
      by_cases hx : x = y
      · simp [hx, hy]
      · simp [hx]
    | none =>
      refine ⟨m, fun x => ?_⟩
      rw [hm]
      by_cases hx : x = y
      · simp [hx, hy]
      · simp [hx]

/-- The copy of a quiet expression is quiet too, where it is evaluated. -/
theorem Eval.Quiet.subst {k : Likeness} {call : Caller} (hcall : CallersAlike k call call) {e : Expr}
    (hq : Eval.Quiet call e) (ha : k.Admits e) {r : Renaming} (hr : r.Atomic) {w : Pairing} {L L' : Locals}
    (h : ReadsAlike k w r L L' e) {s t : Store} {u : Value} (hs : w.right ≤ s.size)
    (hx : Eval.expr call L' (r.subst e) s = .ok u t) : s.Grows t := by
  -- the expression itself, on the values that the copy finds
  obtain ⟨K, hK⟩ := NameMap.exists_get? (fun x => r.value? L' x) e.reads
  have hreads : ReadsAlike k (.identity s.size) r K L' e := by
    intro x hx
    rw [hK x, if_pos hx]
    have hx := h x hx
    cases hu : r.value? L' x with
    | none => trivial
    | some u =>
      rw [hu] at hx
      cases hv : L.get? x with
      | none => rw [hv] at hx; exact hx.elim
      | some v =>
        rw [hv] at hx
        exact Value.Alike.self_right (fun hbc => Nat.lt_of_lt_of_le (w.bounded hbc).2 hs) hx
  have ho := Eval.expr_inStep (fun _ => hcall) e ha hr hreads s s (.identity k s)
  rw [hx] at ho
  cases hv : Eval.expr call K e s with
  | error e t' => rw [hv] at ho; exact ho.elim
  | ok v t' =>
    rw [hv] at ho
    obtain ⟨w', hle, hag, -⟩ := ho
    have hg := hq K s v t' hv
    refine ⟨hag.right ▸ hle.right, fun {b} hb => ?_⟩
    rw [← hag.cells hcall.contents (hle.rel ⟨rfl, hb⟩), hg.cells hb]

end ArrayIR
