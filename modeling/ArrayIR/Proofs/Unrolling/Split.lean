/-
  ArrayIR.Proofs.Unrolling.Split — an unrolled loop and the loop left over do what the loop does.

  A long iteration is in step with as many short ones (`Parts.Of.iteration_sim`), and
  so is the unrolled loop with that part of the loop (`Parts.Of.unrolled_sim`). What
  is left starts where the unrolled loop has stopped, with the values that its merge
  had then. The bounds of the loop are evaluated in all of this more often than in
  the loop itself, but they give the same integers wherever they are evaluated.
-/

import ArrayIR.Proofs.Scoped
import ArrayIR.Proofs.Unrolling.Body

namespace ArrayIR

open Eval

namespace Eval

variable {call : Caller} {fuel : Nat} {L L1 : Locals} {st st1 : Store}

/-! ## Headers -/

variable {c : Counter} {h : Header}

/-- Where a loop's header has been evaluated, its bounds have been evaluated to integers in turn. -/
theorem header_evaluates (hx : header call L c st = .ok h st1) :
    ∃ (s t d : Int64) (s1 s2 : Store) (v u z : Value), h = ⟨s.toInt, t.toInt, d.toInt⟩ ∧
      (expr call L c.start st = .ok v s1 ∧ v.asInt = .ok s) ∧ (expr call L c.stop s1 = .ok u s2 ∧ u.asInt = .ok t) ∧
      (expr call L c.step s2 = .ok z st1 ∧ z.asInt = .ok d) := by
  obtain ⟨v, s1, hv, hx⟩ := state_bind_ok hx
  obtain ⟨s, s2, hs, hx⟩ := state_bind_ok hx
  obtain ⟨is, rfl⟩ := state_lift_ok hs
  obtain ⟨u, s3, hu, hx⟩ := state_bind_ok hx
  obtain ⟨t, s4, ht, hx⟩ := state_bind_ok hx
  obtain ⟨it, rfl⟩ := state_lift_ok ht
  obtain ⟨z, s5, hz, hx⟩ := state_bind_ok hx
  obtain ⟨d, s6, hd, hx⟩ := state_bind_ok hx
  obtain ⟨id, rfl⟩ := state_lift_ok hd
  obtain ⟨rfl, rfl⟩ := state_pure_ok hx
  exact ⟨s, t, d, _, _, v, u, z, rfl, ⟨hv, is⟩, ⟨hu, it⟩, hz, id⟩

/-- Where a loop's header has been evaluated, each of its bounds yields an integer. -/
theorem header_ok (hcall : ∀ fn args, Spares 0 (fun _ => True) (call fn args)) (hx : header call L c st = .ok h st1) :
    ∃ s t d : Int64, h = ⟨s.toInt, t.toInt, d.toInt⟩ ∧ Yields call st.size L c.start s ∧
      Yields call st.size L c.stop t ∧ Yields call st.size L c.step d := by
  have size : ∀ {e : Expr} {st st' : Store} {v : Value}, expr call L e st = .ok v st' → st.size ≤ st'.size :=
    fun {e _ _ _} hv => (expr_spares L e (fun _ => hcall) (Nat.zero_le _) hv).1.size
  obtain ⟨s, t, d, s1, s2, v, u, z, rfl, ⟨hv, is⟩, ⟨hu, it⟩, hz, id⟩ := header_evaluates hx
  exact ⟨s, t, d, rfl, ⟨_, v, _, Nat.le_refl _, hv, is⟩, ⟨_, u, _, size hv, hu, it⟩,
    ⟨_, z, _, Nat.le_trans (size hv) (size hu), hz, id⟩⟩

theorem header_gives {P : Store → Prop} {s t d : Int64} (hs : Gives call P L c.start s) (ht : Gives call P L c.stop t)
    (hd : Gives call P L c.step d) (hP : P st) :
    ∃ st1, header call L c st = .ok ⟨s.toInt, t.toInt, d.toInt⟩ st1 ∧ st.Grows st1 := by
  obtain ⟨v, s1, hv, hs, g1, hP1⟩ := hs st hP
  obtain ⟨u, s2, hu, ht, g2, hP2⟩ := ht s1 hP1
  obtain ⟨z, s3, hz, hd, g3, -⟩ := hd s2 hP2
  refine ⟨s3, ?_, (g1.trans g2).trans g3⟩
  show EStateM.bind (expr call L c.start) _ st = _
  rw [EStateM.bind, hv]
  dsimp only
  rw [hs]
  show EStateM.bind (expr call L c.stop) _ s1 = _
  rw [EStateM.bind, hu]
  dsimp only
  rw [ht]
  show EStateM.bind (expr call L c.step) _ s2 = _
  rw [EStateM.bind, hz]
  dsimp only
  rw [hd]
  rfl

/-- A counted loop that goes on has bound the names of its merge. -/
theorem forLoop_binds {ss : List Stmt} {m : Merge}
    (h : stmt call fuel (.forLoop c ss m) L st = .ok (.next L1) st1) : ∀ x ∈ m.keys, ∃ v, L1.get? x = some v := by
  have bound : ∀ {side : Expr × Expr → Expr} {L L1 : Locals} {st st1 : Store}, bindMerge call m side L st = .ok L1 st1 →
      ∀ x ∈ m.keys, ∃ v, L1.get? x = some v := by
    intro side L L1 st st1 hb x hx
    obtain ⟨vs, s, hvs, hb⟩ := state_bind_ok hb
    obtain ⟨rfl, rfl⟩ := state_pure_ok hb
    have hn := mergeValues_names hvs
    have hx' : x ∈ vs.map (·.1) := by
      rw [hn]
      exact hx
    obtain ⟨⟨y, v⟩, hv, rfl⟩ := List.mem_map.mp hx'
    exact ⟨v, NameMap.get?_insertAll_of_mem (hn ▸ m.keys_nodup) hv L⟩
  have loop : ∀ {n : Nat} {i step : Int} {L L1 : Locals} {st st1 : Store}, (∀ x ∈ m.keys, ∃ v, L.get? x = some v) →
      repeatCounted c.var step (block call fuel ss) (bindMerge call m Prod.snd) n i L st = .ok (.next L1) st1 →
      ∀ x ∈ m.keys, ∃ v, L1.get? x = some v := by
    intro n
    induction n with
    | zero =>
      intro i step L L1 st st1 hL hx
      cases hx
      exact hL
    | succ n ih =>
      intro i step L L1 st st1 hL hx
      rw [repeatCounted_succ] at hx
      obtain ⟨fl, s, -, hx⟩ := state_bind_ok hx
      cases fl with
      | returned v => cases hx
      | next L2 =>
        obtain ⟨L3, s', hm, hx⟩ := state_bind_ok hx
        exact ih (bound hm) hx
  rw [stmt_forLoop] at h
  obtain ⟨hd, s, -, h⟩ := state_bind_ok h
  by_cases h0 : hd.step = 0
  · rw [if_pos h0] at h
    cases h
  · rw [if_neg h0] at h
    obtain ⟨L2, s', hm, h⟩ := state_bind_ok h
    exact loop (bound hm) h

end Eval

namespace Unrolling

section

variable {call : Caller} {fuel n : Nat} {l : Loop} {V : List VarName} {p : Parts} {d : Int64} {r r1 r2 r' : Renaming}
  {x first : VarName} {k : Nat} {offs blk : Block} {offsets : List (Expr × Nat)}

namespace Parts

/-- The names that the unrolled loop binds. -/
def binds (p : Parts) : List VarName := [p.var] ++ p.names ++ (Stmt.blockBinds p.body ++ Stmt.blockBinds p.copies)

/-- The offsets of the copies. -/
def facts (p : Parts) (d : Int64) : List (Expr × Int64) := p.offsetOf.map fun q => (q.1, d * Int64.ofNat q.2)

/-- The unrolled loop binds each name once; these are none of the loop's, and no offset depends on them. -/
structure Apart (p : Parts) (l : Loop) (V : List VarName) (d : Int64) : Prop where
  nodup : p.binds.Nodup
  fresh : ∀ x ∈ p.binds, ¬ l.Names V x
  offsets : ∀ q ∈ p.facts d, ∀ x ∈ q.1.reads, x ∉ p.binds

theorem Apart.avoids (h : p.Apart l V d) (hr : r.renames = .empty) : r.Avoids (l.Names V) p.binds := by
  intro y hy x hx
  have e : r.image? x = some x := by
    rw [Renaming.image?, hr]
    rfl
  rw [e]
  intro he
  cases he
  exact h.fresh _ hy hx

/-- Where an iteration of either loop begins: the names of the merge and the offsets are known. -/
def top (p : Parts) (l : Loop) (V : List VarName) (d : Int64) : Link :=
  (Link.names .strict (· ∈ l.merge.keys ++ V) p.first).and (Known (p.facts d))

/-- Where an iteration of either loop ends. -/
def bottom (p : Parts) (l : Loop) (V : List VarName) (d : Int64) : Link :=
  (Link.scope .strict p.last (Stmt.blockAfter l.body (l.inside V))).and (Known (p.facts d))

end Parts

/-- A long iteration, and as many short ones. -/
theorem Parts.Of.iteration_sim (hp : p.Of n l) (hcall : CallersAlike .strict call call) (hl : l.Scoped call V)
    (hty : l.Counts .i64) (ha : p.Apart l V d) (i : Int) :
    Sim .strict (p.top l V d) (fun _ _ => True)
      (fun L => block call fuel l.body (L.insert l.counter.var (.ofInt i)) >>=
        (·.andThen (carryOn l.counter.var d.toInt (block call fuel l.body) (bindMerge call l.merge Prod.snd) (n - 1)
          (i + d.toInt))))
      (fun L => block call fuel (p.body ++ p.copies) (L.insert p.var (.ofInt i))) (p.bottom l V d) := by
  obtain ⟨r0, t, hr0, ht⟩ := hp.takes
  obtain ⟨r, hbody, hcopies⟩ := hp.copies
  have hatomic : r0.Atomic := by
    intro x e h
    rw [hr0] at h
    cases h
  have hav := ha.avoids hr0
  have hreb := (Renaming.rebinds_bind r0 l.counter.var p.var t).append ht.rebinds
  have hnd : (([p.var] ++ p.names ++ Stmt.blockBinds p.body) ++ Stmt.blockBinds p.copies).Nodup := by
    rw [List.append_assoc]
    exact ha.nodup
  have hav' : r0.Avoids (l.Names V) (([p.var] ++ p.names ++ Stmt.blockBinds p.body) ++ Stmt.blockBinds p.copies) := by
    rw [List.append_assoc]
    exact hav
  -- in the body, the first counter is known as well
  let facts := (Expr.var p.var .i64, Int64.ofInt i) :: p.facts d
  have hkeep : ∀ q ∈ facts, ∀ x ∈ q.1.reads, x ∉ Stmt.blockBinds p.body ++ Stmt.blockBinds p.copies := by
    intro q hq x hx hm
    rcases List.mem_cons.mp hq with rfl | hq
    · rw [Expr.reads_var, List.mem_singleton] at hx
      subst hx
      exact (List.nodup_append.mp ha.nodup).2.2 _ (by simp) _ hm rfl
    · exact ha.offsets q hq x hx (List.mem_append_right _ hm)
  have hfirst : Sim .strict _ _ (block call fuel l.body) (block call fuel p.body) _ :=
    copy_sim hcall hl hreb hbody hatomic hav'.left (List.nodup_append.mp hnd).1
      fun q hq x hx hm => hkeep q hq x hx (List.mem_append_left _ hm)
  have hmem : (Expr.var p.var .i64, Int64.ofInt i) ∈ facts := List.mem_cons_self
  have hrest : Sim .strict _ _ _ (block call fuel p.copies) _ := hcopies.sim hcall hl hty hmem
    (fun q hq => List.mem_cons_of_mem _ (List.mem_map.mpr ⟨q, hq, rfl⟩)) (hbody.rebinds.atomic (hreb.atomic hatomic))
    (fun z hz x hx => (hreb.append hbody.rebinds).avoids hav' hnd z hz x (.inr hx)) (List.nodup_append.mp hnd).2.1
    fun q hq x hx hm => hkeep q hq x hx (List.mem_append_right _ hm)
  rw [Int.natCast_one, Int.one_mul] at hrest
  have hlong : Sim .strict _ _ _ _ (p.bottom l V d) := (hfirst.andThen hrest).mono id id
    fun h => ⟨h.1, fun q hq => h.2 q (List.mem_cons_of_mem _ hq)⟩
  intro w L st L' st' hst hL _
  show Outcome w _ _ (block call fuel (p.body ++ p.copies) (L'.insert p.var (.ofInt i)) st')
  rw [block_append]
  refine hlong w _ st _ st' hst ⟨?_, ?_⟩ ⟨trivial, fun _ _ _ => trivial⟩
  · have hV : r0.Avoids (· ∈ V) [p.var] := fun z hz x hx =>
      hav z (List.mem_append_left _ (List.mem_append_left _ hz)) x (.inl (Loop.Scoped.mem_inside.mpr (.inr hx)))
    exact names_counter hl hL.1 ht hV (List.nodup_cons.mp (List.nodup_append.mp ha.nodup).1).1 Likes.int
  · intro q hq
    rcases List.mem_cons.mp hq with rfl | hq
    · exact .var p.var .i64 L' _
    · refine (hL.2 q hq).congr fun x hx => NameMap.get?_insert_of_ne _ _ fun e => ?_
      exact ha.offsets q hq x hx (by simp [Parts.binds, e])

theorem mem_keys_copy (hp : p.Of n l) : x ∈ (l.merge.copy p.names r1 r2).keys ↔ x ∈ p.names := by
  obtain ⟨_, _, _, ht⟩ := hp.takes
  exact (Merge.keys_copy_perm ht.length ht.nodup r1 r2).mem_iff

/-- Rebinding the merge of the unrolled loop leaves the offsets alone. -/
theorem Parts.Apart.known_merge (ha : p.Apart l V d) (hp : p.Of n l) {side : Expr × Expr → Expr} {L L1 : Locals}
    {st st1 : Store} (hk : Known (p.facts d) L)
    (h : bindMerge call (l.merge.copy p.names r1 r2) side L st = .ok L1 st1) : Known (p.facts d) L1 := by
  refine hk.congr fun q hq x hx => bindMerge_keeps h x fun hm => ha.offsets q hq x hx ?_
  simp [Parts.binds, (mem_keys_copy hp).mp hm]

theorem Parts.Of.first_keeps (hp : p.Of n l) (hl : l.Scoped call V) (hx : x ∈ V) : p.first.renames.get? x = none := by
  obtain ⟨r, t, hr, ht⟩ := hp.takes
  rw [ht.keeps x fun h => hl.fresh x (by simp [h]) hx, Renaming.bind_renames,
    if_neg fun (e : x = l.counter.var) => hl.fresh x (by simp [e]) hx, hr]
  rfl

theorem Copies.atomic {n : Nat} (h : Copies l first n k r offs offsets blk r') (hr : r.Atomic) : r'.Atomic := by
  induction h with
  | nil => exact hr
  | cons ht _ hb _ ih => exact ih (hb.rebinds.atomic (ht.atomic (Renaming.bind_atomic hr _ rfl)))

theorem Copies.keeps {n : Nat} (h : Copies l first n k r offs offsets blk r')
    (hx : x ∉ [l.counter.var] ++ l.merge.keys ++ Stmt.blockBinds l.body) : r'.renames.get? x = r.renames.get? x := by
  simp only [List.mem_append, List.mem_singleton, not_or] at hx
  induction h with
  | nil => rfl
  | cons ht _ hb _ ih =>
    rw [ih, hb.rebinds.keeps x hx.2, ht.keeps x hx.1.2, Renaming.bind_renames, if_neg hx.1.1]

theorem Parts.Of.first_atomic (hp : p.Of n l) : p.first.Atomic := by
  obtain ⟨r, t, hr, ht⟩ := hp.takes
  refine ht.atomic (Renaming.bind_atomic (fun x e h => ?_) _ rfl)
  rw [hr] at h
  cases h

theorem Parts.Of.last_atomic (hp : p.Of n l) : p.last.Atomic := by
  obtain ⟨r, hbody, hcopies⟩ := hp.copies
  exact hcopies.atomic (hbody.rebinds.atomic hp.first_atomic)

theorem Parts.Of.last_keeps (hp : p.Of n l) (hl : l.Scoped call V) (hx : x ∈ V) : p.last.renames.get? x = none := by
  obtain ⟨r, hbody, hcopies⟩ := hp.copies
  rw [hcopies.keeps fun h => hl.fresh x h hx, hbody.rebinds.keeps x fun h => hl.fresh x (by simp [h]) hx,
    hp.first_keeps hl hx]

/-- Entering the unrolled loop. -/
theorem Parts.Of.entry_across (hp : p.Of n l) (hcall : CallersAlike .strict call call) (hl : l.Scoped call V)
    (ha : p.Apart l V d) :
    Across .strict ((Link.names .strict (· ∈ V) .none).and (Known (p.facts d))) (p.top l V d).holds
      (bindMerge call l.merge Prod.fst) (bindMerge call (l.merge.copy p.names .none p.last) Prod.fst) := by
  obtain ⟨r, t, hr, ht⟩ := hp.takes
  refine Across.keeping (bindMerge_copied hcall (fun _ => rfl) Merge.fst_mem_exprs Renaming.none_atomic ht
    (fun e _ => Likeness.strict_admits e) hl.entry hl.commutes fun x hx hn => ?_) (ha.known_merge hp)
  have hxV := (List.mem_append.mp hx).resolve_left hn
  refine ⟨hxV, hp.first_keeps hl hxV, fun y hy he => ?_⟩
  cases he
  exact ha.fresh x (by simp [Parts.binds, hy]) (.inl (Loop.Scoped.mem_inside.mpr (.inr hxV)))

/-- From the end of an iteration to the beginning of the next one. -/
theorem Parts.Of.back_across (hp : p.Of n l) (hcall : CallersAlike .strict call call) (hl : l.Scoped call V)
    (ha : p.Apart l V d) :
    Across .strict (p.bottom l V d) (p.top l V d).holds
      (bindMerge call l.merge Prod.snd) (bindMerge call (l.merge.copy p.names .none p.last) Prod.snd) := by
  obtain ⟨r, t, hr, ht⟩ := hp.takes
  refine Across.keeping ?_ (ha.known_merge hp)
  have hback := hl.back
  cases hafter : Stmt.blockAfter l.body (l.inside V) with
  | none => exact fun _ _ _ h => h.elim
  | some W =>
    rw [hafter] at hback
    refine bindMerge_copied hcall (fun _ => rfl) Merge.snd_mem_exprs hp.last_atomic ht
      (fun e _ => Likeness.strict_admits e) hback hl.commutes fun x hx hn => ?_
    have hxV := (List.mem_append.mp hx).resolve_left hn
    have hin : x ∈ l.inside V := Loop.Scoped.mem_inside.mpr (.inr hxV)
    refine ⟨(Stmt.blockAfter_mem hafter).1 x hin, (hp.first_keeps hl hxV).trans (hp.last_keeps hl hxV).symm,
      fun y hy => ?_⟩
    rw [Renaming.image?, hp.last_keeps hl hxV]
    intro he
    cases he
    exact ha.fresh x (by simp [Parts.binds, hy]) (.inl hin)

/-- The unrolled loop, and that part of the loop. -/
theorem Parts.Of.unrolled_sim (hp : p.Of n l) (hcall : CallersAlike .strict call call) (hl : l.Scoped call V)
    (hty : l.Counts .i64) (ha : p.Apart l V d) (hn : 0 < n) (q : Nat) (i : Int) :
    Sim .strict (p.top l V d) (fun _ _ => True)
      (repeatCounted l.counter.var d.toInt (block call fuel l.body) (bindMerge call l.merge Prod.snd) (q * n) i)
      (repeatCounted p.var (n * d.toInt) (block call fuel (p.body ++ p.copies))
        (bindMerge call (l.merge.copy p.names .none p.last) Prod.snd) q i) (p.top l V d) := by
  induction q generalizing i with
  | zero =>
    intro w L st L' st' hst hL _
    rw [Nat.zero_mul]
    exact ⟨w, le_rfl, hst, hL⟩
  | succ q ih =>
    -- the short iterations that one long one stands for, and the merge after them
    have hback : Sim .strict (p.bottom l V d) (fun _ _ => True)
        (fun L => bindMerge call l.merge Prod.snd L >>= repeatCounted l.counter.var d.toInt (block call fuel l.body)
          (bindMerge call l.merge Prod.snd) (q * n) (i + n * d.toInt))
        (fun L => bindMerge call (l.merge.copy p.names .none p.last) Prod.snd L >>=
          repeatCounted p.var (n * d.toInt) (block call fuel (p.body ++ p.copies))
            (bindMerge call (l.merge.copy p.names .none p.last) Prod.snd) q (i + n * d.toInt)) (p.top l V d) := by
      intro w L st L' st' hst hL _
      exact (hp.back_across hcall hl ha hL st st' hst).bind fun w1 a s b s' _ h =>
        ih (i + n * d.toInt) w1 a s b s' h.1 h.2 trivial
    intro w L st L' st' hst hL _
    have e : (q + 1) * n = (n - 1 + 1) + q * n := by
      rw [Nat.succ_mul]
      omega
    have hshort : ((n - 1 + 1 : Nat) : Int) = n := by omega
    rw [e, repeatCounted_add, repeatCounted_eq_carryOn, repeatCounted_succ, bind_assoc, hshort]
    refine ((hp.iteration_sim hcall hl hty ha i w L st L' st' hst hL trivial)).bind fun w1 a s b s' _ h => ?_
    cases a <;> cases b
    · show Outcome w1 _ (((bindMerge call l.merge Prod.snd _ >>= fun L => pure (Flow.next L)) >>= _) s) _
      rw [bind_assoc]
      exact hback w1 _ s _ s' h.1 h.2 trivial
    · exact h.2.elim
    · exact h.2.elim
    · exact ⟨w1, le_rfl, h.1, h.2⟩

end

end Unrolling

end ArrayIR
