/-
  ArrayIR.Proofs.Unrolling.Halves — a loop and the two halves it is split into.

  If the loop's header can be evaluated, so can the code ahead of the two halves, and
  the unrolled loop and the loop left over run in step with the loop (`rest_outcome`,
  `halves_outcome`). If it cannot, or the step is zero, the halves fail as well: one
  of them evaluates each of the bounds (`halves_start`). Together the halves simulate
  the loop (`halves_sim`).
-/

import ArrayIR.Proofs.Unrolling.Split

namespace ArrayIR

open Stmt (blockBinds blockBinds_append blockReturns)
open Eval

namespace Unrolling

variable {call : Caller} {fuel n : Nat} {P : Store → Prop} {l : Loop} {V : List VarName} {p : Parts}

/-! ## The loop left over -/

variable {L L' : Locals} {w : Pairing} {st st' : Store} {d : Int64}

/-- On entry, the loop left over binds its merge to the values that the unrolled loop's has. -/
theorem entered_run (call : Caller) (hp : p.Of n l) (hb : ∀ y ∈ p.names, ∃ v, L.get? y = some v) :
    ∃ us, mergeValues call L Prod.fst (entered l.merge p.first).toList = pure us ∧ us.map (·.1) = l.merge.keys ∧
      ∀ q ∈ us, p.first.value? L q.1 = some q.2 := by
  obtain ⟨_, _, _, ht⟩ := hp.takes
  have hc := carried ht
  rw [toList_entered]
  show ∃ us : List (VarName × Value), _ ∧ us.map (·.1) = l.merge.toList.map (·.1) ∧ _
  clear ht
  generalize l.merge.toList = es at hc
  generalize p.names = ys at hc hb
  induction hc with
  | nil => exact ⟨[], rfl, rfl, fun q hq => absurd hq List.not_mem_nil⟩
  | @cons e y es ys hy _ ih =>
    obtain ⟨t, hy⟩ := hy
    obtain ⟨v, hv⟩ := hb y List.mem_cons_self
    obtain ⟨us, hus, hn, hval⟩ := ih fun z hz => hb z (List.mem_cons_of_mem _ hz)
    refine ⟨(e.1, v) :: us, ?_, congrArg (e.1 :: ·) hn, fun q hq => ?_⟩
    · have hread : expr call L (current p.first e.1) = pure v := by
        rw [hy, expr, hv]
      show (expr call L (current p.first e.1) >>= fun v => mergeValues call L Prod.fst _ >>= fun vs =>
        pure ((e.1, v) :: vs)) = _
      rw [hread, pure_bind, hus, pure_bind]
    · rcases List.mem_cons.mp hq with rfl | hq
      · rw [Renaming.value?_of_image (image?_of_current hy)]
        exact hv
      · exact hval q hq

theorem bindMerge_entered (m : Merge) (r : Renaming) :
    bindMerge call (entered m r) Prod.snd = bindMerge call m Prod.snd := by
  have values : ∀ L es, mergeValues call L Prod.snd (es.map fun e => (e.1, current r e.1, e.2.2)) =
      mergeValues call L Prod.snd es := by
    intro L es
    induction es with
    | nil => rfl
    | cons e es ih =>
      rw [List.map_cons, mergeValues, mergeValues, ih]
  funext L
  rw [bindMerge, bindMerge, toList_entered, values]

/-- The loop left over, and the last iterations of the loop. -/
theorem rest_outcome (hp : p.Of n l) (hcall : CallersAlike .strict call call) (hl : l.Scoped call V)
    (hst : Agree .strict w st st') (hL : (Link.names .strict (· ∈ l.merge.keys ++ V) p.first).holds w L L')
    (hb : ∀ y ∈ p.names, ∃ v, L'.get? y = some v) {mid t : Int64} (hmid : p.stop.Holds mid L')
    (ht : Gives call P L' l.counter.stop t) (hd : Gives call P L' l.counter.step d) (hd0 : d ≠ 0) (hP : P st') {i : Int}
    (hi : i = mid.toInt ∨ tripCount mid.toInt t.toInt d.toInt = 0) :
    Outcome w (Ends .strict (Flow.Alike .strict (.names .strict (· ∈ l.merge.keys ++ V) .none)))
      (repeatCounted l.counter.var d.toInt (block call fuel l.body) (bindMerge call l.merge Prod.snd)
        (tripCount mid.toInt t.toInt d.toInt) i L st)
      (stmt call fuel (p.rest l) L' st') := by
  obtain ⟨us, hus, hn, hval⟩ := entered_run call hp hb
  obtain ⟨s', hh, hg⟩ := header_gives (c := { l.counter with start := p.stop }) (hmid.gives call P) ht hd hP
  have hd0' : d.toInt ≠ 0 := fun e => hd0 (Int64.toInt_inj.mp (e.trans rfl))
  -- the loop left over begins with the merge as the unrolled loop has left it
  have henter : bindMerge call (entered l.merge p.first) Prod.fst L' = pure (L'.insertAll us) := by
    rw [bindMerge, hus, pure_bind]
  have hlink : (Link.names .strict (· ∈ l.merge.keys ++ V) .none).holds w L (L'.insertAll us) := by
    intro x hx
    rw [Renaming.none_value?]
    have hxL := hL x hx
    by_cases hk : x ∈ l.merge.keys
    · obtain ⟨⟨y, v⟩, hv, rfl⟩ := List.mem_map.mp (hn ▸ hk)
      rw [NameMap.get?_insertAll_of_mem (hn ▸ l.merge.keys_nodup) hv, ← hval _ hv]
      exact hxL
    · rw [NameMap.get?_insertAll_of_not_mem (hn ▸ hk)]
      rw [Renaming.value?, hp.first_keeps hl ((List.mem_append.mp hx).resolve_left hk)] at hxL
      exact hxL
  have hbody : ∀ i, Sim .strict (.names .strict (· ∈ l.merge.keys ++ V) .none) (fun _ _ => True)
      (fun L => block call fuel l.body (L.insert l.counter.var (.ofInt i)))
      (fun L => block call fuel l.body (L.insert l.counter.var (.ofInt i)))
      (.scope .strict .none (Stmt.blockAfter l.body (l.inside V))) := by
    intro i w L st L' st' hst hL _
    exact scoped_block_sim hcall (Likeness.strict_admitsBlock _) hl.body w _ st _ st' hst
      (Sim.insertScoped hL l.counter.var rfl) trivial
  have hback := Sim.backScoped (V := l.merge.keys ++ V) hcall (fun e _ => Likeness.strict_admits e) hl.back
    fun x hx => List.mem_cons_of_mem _ hx
  have hloop : Sim .strict _ _ (repeatCounted l.counter.var d.toInt (block call fuel l.body) _ _ _)
      (repeatCounted l.counter.var d.toInt (block call fuel l.body) _ _ _) _ :=
    Sim.repeatCounted (F := fun _ _ => True) hbody hback (tripCount mid.toInt t.toInt d.toInt) mid.toInt
  have hfrom : repeatCounted l.counter.var d.toInt (block call fuel l.body) (bindMerge call l.merge Prod.snd)
      (tripCount mid.toInt t.toInt d.toInt) i L = repeatCounted l.counter.var d.toInt (block call fuel l.body)
      (bindMerge call l.merge Prod.snd) (tripCount mid.toInt t.toInt d.toInt) mid.toInt L := by
    rcases hi with rfl | h0
    · rfl
    · rw [h0]
      rfl
  rw [hfrom, Parts.rest, stmt_forLoop]
  show Outcome w _ _ (EStateM.bind (header call L' _) _ st')
  rw [EStateM.bind, hh]
  dsimp only
  rw [if_neg hd0', henter, pure_bind, bindMerge_entered]
  obtain ⟨w', hle, hst'⟩ := hst.later (.refl st) hg
  exact (hloop w' L st _ s' hst' (Link.mono _ hle hlink) (RepeatGuard.trivial _ _ _ _ _ _ _ _)).mono hle
    fun _ _ _ _ _ _ h => h

/-! ## Both halves -/

/-- The code in front binds each name once, and none of the loop's. -/
structure Parts.Clear (p : Parts) (l : Loop) (V : List VarName) : Prop where
  nodup : (blockBinds (p.front l)).Nodup
  fresh : ∀ x ∈ blockBinds (p.front l), ¬ l.Names V x

theorem binds_unrolled (hp : p.Of n l) : (p.unrolled l).binds.Perm p.binds := by
  obtain ⟨_, _, _, ht⟩ := hp.takes
  rw [Parts.unrolled, Stmt.binds, blockBinds_append]
  exact .cons _ ((Merge.keys_copy_perm ht.length ht.nodup .none p.last).append_right _)

theorem binds_front (hp : p.Of n l) :
    (blockBinds (p.front l)).Perm (blockBinds p.bounds ++ (blockBinds p.offsets ++ p.binds)) := by
  rw [Parts.front, blockBinds_append, blockBinds_append, Stmt.blockBinds_singleton, List.append_assoc]
  exact .append_left _ (.append_left _ (binds_unrolled hp))

/-- Evaluating the bounds of the loop changes no buffer. -/
structure Loop.Quiet (l : Loop) (call : Caller) : Prop where
  start : Eval.Quiet call l.counter.start
  stop : Eval.Quiet call l.counter.stop
  step : Eval.Quiet call l.counter.step

/-- The bounds of the loop do not call functions or look into buffers. -/
structure Loop.Plain (l : Loop) : Prop where
  start : l.counter.start.plain = true
  stop : l.counter.stop.plain = true
  step : l.counter.step.plain = true

theorem Loop.Plain.quiet (h : l.Plain) (call : Caller) : l.Quiet call :=
  ⟨quiet_of_not_calls (Expr.plain_not_calls h.start), quiet_of_not_calls (Expr.plain_not_calls h.stop),
    quiet_of_not_calls (Expr.plain_not_calls h.step)⟩

/-- Running the code ahead of the unrolled loop makes its bounds and the offsets known. -/
theorem Parts.Of.ahead (hp : p.Of n l) (fuel : Nat) (hn : 0 < n) (hl : l.Scoped call V) {t : ScalarTy}
    (hty : l.Counts t) (hclear : p.Clear l V) {s u : Int64} (hhead : l.Header call P L s u d) (hin : Stays t n s u d)
    (hbig : Int64.ofNat n * d ≠ 0) (hP : P st) :
    ∃ L1 st1, Ahead call fuel (p.bounds ++ p.offsets) L st L1 st1 ∧ P st1 ∧ (∀ x ∈ V, L1.get? x = L.get? x) ∧
      p.bigStep.Holds (Int64.ofNat n * d) L1 ∧ p.stop.Holds (middle n s u d) L1 ∧ Known (p.facts d) L1 ∧
      p.Apart l V d ∧ ∀ x ∈ p.stop.reads, x ∉ p.binds := by
  have hperm := binds_front hp
  have hfresh : ∀ x ∈ blockBinds p.bounds ++ (blockBinds p.offsets ++ p.binds), ¬ l.Names V x :=
    fun x hx => hclear.fresh x (hperm.mem_iff.mpr hx)
  have hnotV : ∀ x ∈ blockBinds p.bounds ++ (blockBinds p.offsets ++ p.binds), x ∉ V :=
    fun x hx hV => hfresh x hx (.inl (Loop.Scoped.mem_inside.mpr (.inr hV)))
  obtain ⟨hnd1, hnd2, hdis1⟩ := List.nodup_append.mp (hperm.nodup hclear.nodup)
  obtain ⟨hnd2, hnd3, hdis2⟩ := List.nodup_append.mp hnd2
  obtain ⟨L1, s1, a1, hP1, kbig, kmid, rbig, rmid⟩ := hp.bounds.run fuel hty hhead hl.header hnd1
    (fun y hy => hnotV y (List.mem_append_left _ hy)) hin hbig hP
  have hkeep1 : ∀ x ∈ V, L1.get? x = L.get? x := fun x hx => a1.keeps x fun hm => hnotV x (by simp [hm]) hx
  obtain ⟨r, -, hcopies⟩ := hp.copies
  obtain ⟨L2, s2, a2, hP2, hoffs⟩ := hcopies.run fuel hty (hhead.congr hl.header hkeep1) hl.header hnd2
    (fun y hy => hnotV y (by simp [hy])) hin (by omega) hP1
  have hkeep2 : ∀ x ∈ V, L2.get? x = L1.get? x := fun x hx => a2.keeps x fun hm => hnotV x (by simp [hm]) hx
  have hbounds : ∀ {e : Expr}, (∀ x ∈ e.reads, x ∈ blockBinds p.bounds) →
      ∀ x ∈ e.reads, x ∉ blockBinds p.offsets := fun hr x hx hm => hdis1 x (hr x hx) x (by simp [hm]) rfl
  refine ⟨L2, s2, a1.append a2, hP2, fun x hx => (hkeep2 x hx).trans (hkeep1 x hx), a2.holds kbig (hbounds rbig),
    a2.holds kmid (hbounds rmid), fun q hq => ?_, ⟨hnd3, fun x hx => hfresh x (by simp [hx]), fun q hq x hx hm => ?_⟩,
    fun x hx hm => hdis1 x (rmid x hx) x (by simp [hm]) rfl⟩
  · obtain ⟨o, ho, rfl⟩ := List.mem_map.mp hq
    exact (hoffs o ho).1
  · obtain ⟨o, ho, rfl⟩ := List.mem_map.mp hq
    exact hdis2 x ((hoffs o ho).2 x hx) x hm rfl

/-- The unrolled loop, from where its bounds are known, and the first iterations of the loop. -/
theorem unrolled_outcome (hp : p.Of n l) (hn : 0 < n) (hcall : CallersAlike .strict call call) (hl : l.Scoped call V)
    (hty : l.Counts .i64) (ha : p.Apart l V d) (hst : Agree .strict w st st')
    (hL : (Link.names .strict (· ∈ V) .none).holds w L L') (hknown : Known (p.facts d) L') {s mid : Int64}
    (hs : Gives call P L' l.counter.start s) (hmid : p.stop.Holds mid L')
    (hbig : p.bigStep.Holds (Int64.ofNat n * d) L') (hlong : (Int64.ofNat n * d).toInt = n * d.toInt)
    (hbig0 : Int64.ofNat n * d ≠ 0) (hP : P st') {q : Nat} (hq : tripCount s.toInt mid.toInt (n * d.toInt) = q) :
    Outcome w (Ends .strict (Flow.Alike .strict (p.top l V d)))
      ((bindMerge call l.merge Prod.fst L >>= repeatCounted l.counter.var d.toInt (block call fuel l.body)
        (bindMerge call l.merge Prod.snd) (q * n) s.toInt) st)
      (stmt call fuel (p.unrolled l) L' st') := by
  obtain ⟨s', hh, hg⟩ := header_gives (c := ⟨p.var, l.counter.start, p.stop, p.bigStep⟩) hs (hmid.gives call P)
    (hbig.gives call P) hP
  have h0 : (Int64.ofNat n * d).toInt ≠ 0 := fun e => hbig0 (Int64.toInt_inj.mp (e.trans rfl))
  rw [Parts.unrolled, stmt_forLoop]
  show Outcome w _ _ (EStateM.bind (header call L' _) _ st')
  rw [EStateM.bind, hh]
  dsimp only
  rw [if_neg h0, Header.trips, hlong, hq]
  obtain ⟨w', hle, hst'⟩ := hst.later (.refl st) hg
  have hL1 := (Link.names .strict (· ∈ V) .none).mono hle hL
  refine Outcome.mono ?_ hle fun _ _ _ _ _ _ h => h
  refine (hp.entry_across hcall hl ha ⟨hL1, hknown⟩ st s' hst').bind fun w1 a t b t' _ h => ?_
  exact hp.unrolled_sim hcall hl hty ha hn q s.toInt w1 a t b t' h.1 h.2 trivial

/-- How many iterations of a loop are taken by the unrolled one. -/
def unrolledTrips (n : Nat) (h : Header) : Nat := ((h.stop - h.start).tdiv (n * h.step)).toNat * n

/-- After those iterations the loop's stop and step are what its header has found. -/
def Again (n : Nat) (call : Caller) (fuel : Nat) (c : Counter) (body : Block) (m : Merge) (h : Header) (L : Locals)
    (st : Store) : Prop :=
  ∀ L₁ st₁,
    (bindMerge call m Prod.fst L >>= repeatCounted c.var h.step (block call fuel body) (bindMerge call m Prod.snd)
      (unrolledTrips n h) h.start) st = .ok (.next L₁) st₁ →
    Evaluates call L₁ c.stop st₁ h.stop ∧ Evaluates call L₁ c.step st₁ h.step

/-- The halves run in step with the loop. -/
theorem halves_outcome (hp : p.Of n l) (hn : 1 < n) (hcall : CallersAlike .strict call call) (hl : l.Scoped call V)
    (hty : l.Counts .i64) (hquiet : l.Quiet call) (hclear : p.Clear l V) {s0 : Store} (hst : Agree .strict w st st')
    (hL : (Link.names .strict (· ∈ V) .none).holds w L L') {h : Header} (hx : header call L l.counter st = .ok h s0)
    (h0 : h.step ≠ 0) (hrange : Fits (h.stop - h.start)) (hlong : Fits (n * h.step))
    (hagain : Again n call fuel l.counter l.body l.merge h L s0) :
    Outcome w (Ends .strict (Flow.Alike .strict (.names .strict (· ∈ l.merge.keys ++ V) .none)))
      (stmt call fuel (.forLoop l.counter l.body l.merge) L st)
      (block call fuel (p.front l ++ [p.rest l]) L' st') := by
  obtain ⟨s, t, d, τ1, τ2, v, u, z, rfl, ⟨hv, is⟩, ⟨hu, it⟩, hz, id⟩ := header_evaluates hx
  have g1 := hquiet.start L st v τ1 hv
  have g2 := hquiet.stop L τ1 u τ2 hu
  have g3 := hquiet.step L τ2 z s0 hz
  have hd0 : d ≠ 0 := fun e => h0 (by rw [e]; rfl)
  have hhead : l.Header call (Near w st) L' s t d :=
    ⟨hquiet.start.gives hcall (Link.names.readsAlike hL hl.header.start) (.refl st) ⟨v, τ1, s, hv, is, rfl⟩,
      hquiet.stop.gives hcall (Link.names.readsAlike hL hl.header.stop) g1 ⟨u, τ2, t, hu, it, rfl⟩,
      hquiet.step.gives hcall (Link.names.readsAlike hL hl.header.step) (g1.trans g2) ⟨z, s0, d, hz, id, rfl⟩⟩
  obtain ⟨hbig, hbig0, hsplit⟩ := split_int64 hn hd0 hrange hlong
  generalize hq : ((t - s) / (Int64.ofNat n * d)).toInt = q at hsplit
  obtain ⟨htrips, htotal, hsign⟩ := tripCount_split hsplit (Nat.lt_of_succ_lt hn) h0
  obtain ⟨L1, s1, ahead, hP, hkeep, kbig, kmid, hknown, hapart, hmid⟩ :=
    hp.ahead fuel (Nat.lt_of_succ_lt hn) hl hty hclear hhead (stays_i64 n s t d) hbig0 (.of_agree hst)
  have hhead1 := hhead.congr hl.header hkeep
  have hL1 : (Link.names .strict (· ∈ V) .none).holds w L L1 := by
    intro x hx
    rw [Renaming.none_value?, hkeep x hx]
    exact hL x hx
  obtain ⟨w', hle, hst'⟩ := hst.later ((g1.trans g2).trans g3) ahead.grows
  have hfirst : Outcome w' _ _ (stmt call fuel (p.unrolled l) L1 s1) :=
    unrolled_outcome hp (Nat.lt_of_succ_lt hn) hcall hl hty hapart hst'
      ((Link.names .strict (· ∈ V) .none).mono hle hL1) hknown hhead1.start kmid kbig hbig hbig0 hP htrips
  refine Outcome.mono ?_ hle fun _ _ _ _ _ _ h => h
  have hg : block call fuel (p.front l ++ [p.rest l]) L' st' =
      (stmt call fuel (p.unrolled l) L1 >>= (·.andThen (stmt call fuel (p.rest l)))) s1 := by
    rw [Parts.front, List.append_assoc, block_append_of_next ahead.run, List.singleton_append,
      block_cons, block_singleton]
  have hf : stmt call fuel (.forLoop l.counter l.body l.merge) L st =
      ((bindMerge call l.merge Prod.fst L >>= repeatCounted l.counter.var d.toInt (block call fuel l.body)
          (bindMerge call l.merge Prod.snd) (q.toNat * n) s.toInt) >>=
        (·.andThen (repeatCounted l.counter.var d.toInt (block call fuel l.body) (bindMerge call l.merge Prod.snd)
          (tripCount (middle n s t d).toInt t.toInt d.toInt) (s.toInt + (q.toNat * n : Nat) * d.toInt)))) s0 := by
    rw [stmt_forLoop]
    show EStateM.bind (header call L l.counter) _ st = _
    rw [EStateM.bind, hx]
    dsimp only
    rw [if_neg h0, Header.trips, htotal, bind_assoc]
    exact congrFun (bind_congr fun L => repeatCounted_add _ _ _ L) s0
  rw [hf, hg]
  refine hfirst.bind_eq fun w1 a σ b σ' hle1 hrun hy h => ?_
  obtain ⟨hσ, h⟩ := h
  cases a <;> cases b
  · rename_i L2 L2'
    have hkeep1 : ∀ x, x ∉ p.binds → L2'.get? x = L1.get? x := fun x hx =>
      stmt_within hy x fun hm => hx ((binds_unrolled hp).mem_iff.mp hm)
    have hlink : (Link.names .strict (· ∈ V) .none).holds w1 L2 L2' := by
      intro x hx
      have hx' := h.1 x (List.mem_append_right _ hx)
      rw [Renaming.value?, hp.first_keeps hl hx] at hx'
      rw [Renaming.none_value?]
      exact hx'
    -- the loop left over evaluates the stop and the step again
    rw [hsplit.quotient] at hrun
    obtain ⟨hstop, hstep⟩ := hagain L2 σ hrun
    refine rest_outcome hp hcall hl hσ h.1 (fun y hy' => forLoop_binds hy y ((mem_keys_copy hp).mpr hy'))
      (kmid.congr fun x hx => hkeep1 x (hmid x hx))
      (hquiet.stop.gives hcall (Link.names.readsAlike hlink hl.header.stop) (.refl σ) hstop)
      (hquiet.step.gives hcall (Link.names.readsAlike hlink hl.header.step) (.refl σ) hstep) hd0 (.of_agree hσ)
      (hsign.imp_left fun hq => ?_)
    rw [middle, hsplit.mid, Nat.cast_mul, Int.toNat_of_nonneg hq]
    ring
  · exact h.elim
  · exact h.elim
  · exact ⟨w1, le_rfl, hσ, h⟩

/-- The stop and the step of a loop with plain bounds are the same after any iterations. -/
theorem Loop.Plain.again (hplain : l.Plain) (hsize : ∀ fn args, Spares 0 (fun _ => True) (call fn args))
    (hl : l.Scoped call V) {s0 : Store} (hst : Agree .strict w st st')
    (hL : (Link.names .strict (· ∈ V) .none).holds w L L') {h : Eval.Header}
    (hx : header call L l.counter st = .ok h s0) : Again n call fuel l.counter l.body l.merge h L s0 := by
  obtain ⟨s, t, d, rfl, -, yt, yd⟩ := header_ok hsize hx
  rw [hst.left] at yt yd
  have ht := Link.names.readsAlike hL hl.header.stop
  have hd := Link.names.readsAlike hL hl.header.step
  -- over to the other run and back again
  have ht' : Gives call (AtLeast w.right) L' l.counter.stop t := yt.right hplain.stop ht
  have hd' : Gives call (AtLeast w.right) L' l.counter.step d := yd.right hplain.step hd
  have gt : Gives call (AtLeast w.left) L l.counter.stop t := ht'.yields.left hplain.stop ht
  have gd : Gives call (AtLeast w.left) L l.counter.step d := hd'.yields.left hplain.step hd
  intro L2 σ hrun
  obtain ⟨L1, s1, hm, hrun⟩ := state_bind_ok hrun
  -- what has been run in between has kept the names that the bounds depend on, and the buffers
  have hkeeps : ∀ x ∈ V, L2.get? x = L.get? x := by
    have hout : ∀ x ∈ V, x ∉ [l.counter.var] ++ l.merge.keys ++ blockBinds l.body := fun x hx hm => hl.fresh x hm hx
    have hbody : ∀ {L3 : Locals} {st st1 : Store} {fl : Flow}, block call fuel l.body L3 st = .ok fl st1 →
        fl.Within ([l.counter.var] ++ l.merge.keys ++ blockBinds l.body) (blockReturns l.body) L3 :=
      fun hb => (block_within hb).mono (fun x hx => List.mem_append_right _ hx) id
    have hback : ∀ {L3 L4 : Locals} {st st1 : Store}, bindMerge call l.merge Prod.snd L3 st = .ok L4 st1 →
        ∀ x, x ∉ [l.counter.var] ++ l.merge.keys ++ blockBinds l.body → L4.get? x = L3.get? x :=
      fun hb x hx => bindMerge_keeps hb x fun hm => hx (by simp [hm])
    have hloop := repeatCounted_within (by simp) hbody hback hrun
    exact fun x hx => (hloop x (hout x hx)).trans (bindMerge_keeps hm x fun hk => hout x hx (by simp [hk]))
  have hgrown : w.left ≤ σ.size := by
    have h0 := (header_spares hsize L l.counter (Nat.zero_le _) hx).1.size
    have h1 := (bindMerge_spares hsize l.merge Prod.fst L (Nat.zero_le _) hm).1.size
    have h2 := (repeatCounted_spares (fun L => block_spares hsize (fun _ => rfl) L)
      (fun L => bindMerge_spares hsize l.merge Prod.snd L) _ _ _ (Nat.zero_le _) hrun).1.size
    have := hst.left
    omega
  obtain ⟨u, _, hu, it, -⟩ := gt.congr (fun x hx => hkeeps x (hl.header.stop x hx)) σ hgrown
  obtain ⟨z, _, hz, id, -⟩ := gd.congr (fun x hx => hkeeps x (hl.header.step x hx)) σ hgrown
  exact ⟨⟨u, _, t, hu, it, rfl⟩, ⟨z, _, d, hz, id, rfl⟩⟩

/-! ## Loops that do not start -/

theorem forLoop_header {c : Counter} {ss : List Stmt} {m : Merge} {st1 : Store} {fl : Flow}
    (h : stmt call fuel (.forLoop c ss m) L st = .ok fl st1) : ∃ hd s, header call L c st = .ok hd s ∧ hd.step ≠ 0 := by
  rw [stmt_forLoop] at h
  obtain ⟨hd, s, hx, h⟩ := state_bind_ok h
  refine ⟨hd, s, hx, fun h0 => ?_⟩
  rw [if_pos h0] at h
  cases h

theorem Bounds.not_returns {out : Block} {bigStep stop : Expr} (h : Bounds l n out bigStep stop) (hty : l.Counts .i64) :
    blockReturns out = false := by
  obtain ⟨h1, h2, h3, h4, h5⟩ := h
  have p1 := h1.primed hty.int hty.stop.ty hty.start.ty
  have p2 := h2.primed hty.int (hty.const_proper rfl).ty hty.step.ty
  have p3 := h3.primed hty.int p1.ty p2.ty
  have p4 := h4.primed hty.int p3.ty p2.ty
  have p5 := h5.primed hty.int hty.start.ty p4.ty
  simp only [Stmt.blockReturns_append, p1.not_returns, p2.not_returns, p3.not_returns, p4.not_returns, p5.not_returns,
    Bool.or_self]

theorem carry_not_returns (m : Merge) (r r' : Renaming) : blockReturns (carry m r r') = false := by
  unfold carry
  generalize m.toList = es
  induction es with
  | nil => rfl
  | cons e es ih => exact ih

theorem Copies.not_returns {first : VarName} {k : Nat} {r r' : Renaming} {offs blk : Block}
    {offsets : List (Expr × Nat)} (h : Copies l first n k r offs offsets blk r') (hty : l.Counts .i64)
    (hb : blockReturns l.body = false) :
    blockReturns offs = false ∧ blockReturns blk = false := by
  induction h with
  | nil => exact ⟨rfl, rfl⟩
  | @cons _ k _ _ _ _ _ _ _ _ _ _ _ _ _ _ ho hc _ ih =>
    have p := ho.primed hty.int hty.step.ty (hty.const_proper (k := k) rfl).ty
    have hc : blockReturns _ = _ := hc.returns
    simp only [Stmt.blockReturns_append, blockReturns, carry_not_returns, p.not_returns, hc, hb, ih.1, ih.2]
    exact ⟨rfl, rfl⟩

/-- If the halves run, the loop's bounds yield integers, and its step is not zero. -/
theorem halves_start (hp : p.Of n l) (hsize : ∀ fn args, Spares 0 (fun _ => True) (call fn args)) (hl : l.Scoped call V)
    (hty : l.Counts .i64) (hb : blockReturns l.body = false) (hclear : p.Clear l V) {fl : Flow}
    (h : block call fuel (p.front l ++ [p.rest l]) L st = .ok fl st') :
    ∃ s t d : Int64, Yields call st.size L l.counter.start s ∧ Yields call st.size L l.counter.stop t ∧
      Yields call st.size L l.counter.step d ∧ d ≠ 0 := by
  have hnotV : ∀ x ∈ blockBinds (p.front l), x ∉ V :=
    fun x hx hV => hclear.fresh x hx (.inl (Loop.Scoped.mem_inside.mpr (.inr hV)))
  have hkeeps : ∀ {ss : List Stmt} {L L1 : Locals} {st st1 : Store}, block call fuel ss L st = .ok (.next L1) st1 →
      (∀ x ∈ blockBinds ss, x ∉ V) → (∀ x ∈ V, L1.get? x = L.get? x) ∧ st.size ≤ st1.size :=
    fun hrun hd => ⟨fun x hx => block_within hrun x fun hm => hd x hm hx,
      (block_spares hsize (fun _ => rfl) _ (Nat.zero_le _) hrun).1.size⟩
  obtain ⟨r, hbody, hcopies⟩ := hp.copies
  obtain ⟨hoffs, hblk⟩ := hcopies.not_returns hty hb
  have hfront : blockReturns (p.bounds ++ p.offsets) = false := by
    rw [Stmt.blockReturns_append, hp.bounds.not_returns hty, hoffs]
    rfl
  have hunrolled : blockReturns [p.unrolled l] = false := by
    have : blockReturns (p.body ++ p.copies) = false := by
      rw [Stmt.blockReturns_append, hbody.returns, hb, hblk]
      rfl
    rw [blockReturns, blockReturns, Bool.or_false]
    exact this
  rw [Parts.front, blockBinds_append] at hnotV
  rw [Parts.front, List.append_assoc, block_append] at h
  -- the code ahead
  obtain ⟨fl1, s1, h1, h⟩ := state_bind_ok h
  cases fl1 with
  | returned v => exact absurd (block_within h1) (by rw [hfront]; exact Bool.false_ne_true)
  | next L1 =>
    obtain ⟨hL1, hs1⟩ := hkeeps h1 fun x hx => hnotV x (List.mem_append_left _ hx)
    rw [Flow.andThen, block_append] at h
    -- the unrolled loop evaluates the start
    obtain ⟨fl2, s2, h2, h⟩ := state_bind_ok h
    cases fl2 with
    | returned v => exact absurd (block_within h2) (by rw [hunrolled]; exact Bool.false_ne_true)
    | next L2 =>
      obtain ⟨hL2, hs2⟩ := hkeeps h2 fun x hx => hnotV x (List.mem_append_right _ hx)
      rw [block_singleton] at h2
      obtain ⟨hd1, _, hx1, -⟩ := forLoop_header h2
      obtain ⟨s, _, _, -, hs, -, -⟩ := header_ok hsize hx1
      -- and the loop left over evaluates the stop and the step
      rw [Flow.andThen, block_singleton] at h
      obtain ⟨hd2, _, hx2, h0⟩ := forLoop_header h
      obtain ⟨_, t, d, rfl, -, ht, hd⟩ := header_ok hsize hx2
      refine ⟨s, t, d, ?_, ?_, ?_, fun e => h0 (by rw [e]; rfl)⟩
      · exact (hs.congr fun x hx => (hL1 x (hl.header.start x hx)).symm).mono hs1
      · exact (ht.congr fun x hx => ((hL2 x (hl.header.stop x hx)).trans (hL1 x (hl.header.stop x hx))).symm).mono
          (Nat.le_trans hs1 hs2)
      · exact (hd.congr fun x hx => ((hL2 x (hl.header.step x hx)).trans (hL1 x (hl.header.step x hx))).symm).mono
          (Nat.le_trans hs1 hs2)

/-- The halves simulate the loop. -/
theorem halves_sim (hp : p.Of n l) (hn : 1 < n) (hcall : CallersAlike .strict call call)
    (hsize : ∀ fn args, Spares 0 (fun _ => True) (call fn args)) (hl : l.Scoped call V) (hty : l.Counts .i64)
    (hplain : l.Plain) (hb : blockReturns l.body = false) (hclear : p.Clear l V) :
    Sim .strict (.names .strict (· ∈ V) .none)
      (fun L st => ∀ h st1, header call L l.counter st = .ok h st1 → Fits (h.stop - h.start) ∧ Fits (n * h.step))
      (stmt call fuel (.forLoop l.counter l.body l.merge)) (block call fuel (p.front l ++ [p.rest l]))
      (.names .strict (· ∈ l.merge.keys ++ V) .none) := by
  intro w L st L' st' hst hL hfits
  by_cases hgood : ∃ h s, header call L l.counter st = .ok h s ∧ h.step ≠ 0
  · obtain ⟨h, s, hx, h0⟩ := hgood
    obtain ⟨hrange, hlong⟩ := hfits h s hx
    exact halves_outcome hp hn hcall hl hty (hplain.quiet call) hclear hst hL hx h0 hrange hlong
      (hplain.again hsize hl hst hL hx)
  · -- the loop fails, and the halves would have had to evaluate its header
    cases hf : stmt call fuel (.forLoop l.counter l.body l.merge) L st with
    | ok fl s => exact absurd (forLoop_header hf) hgood
    | error e s =>
      cases hg : block call fuel (p.front l ++ [p.rest l]) L' st' with
      | error e' s' => trivial
      | ok fl s' =>
        obtain ⟨s, t, d, hs, ht, hd, hd0⟩ := halves_start hp hsize hl hty hb hclear hg
        rw [hst.right] at hs ht hd
        obtain ⟨s1, hx, -⟩ := header_gives (c := l.counter)
          (hs.left hplain.start (Link.names.readsAlike hL hl.header.start))
          (ht.left hplain.stop (Link.names.readsAlike hL hl.header.stop))
          (hd.left hplain.step (Link.names.readsAlike hL hl.header.step)) (Nat.le_of_eq hst.left.symm)
        exact absurd ⟨_, s1, hx, fun e => hd0 (Int64.toInt_inj.mp (e.trans rfl))⟩ hgood

end Unrolling

end ArrayIR
