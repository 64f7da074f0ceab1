/-
  ArrayIR.Proofs.Unrolling.Body — the copies of a body do what that many iterations do.

  A counted loop runs its body and rebinds the merge in turn. `carryOn` is the part of
  such a run that begins with the merge, and the copies of the body after the first
  are in step with it (`Copies.sim`): each of them assigns the merge's values to the
  names of the next copy, computes the counter from that of the first copy, and runs
  the body under new names.
-/

import ArrayIR.Proofs.Unrolling.Ahead

namespace ArrayIR

open Stmt (blockAfter blockBinds)
open Eval

/-! ## Counted loops in parts -/

namespace Eval

variable {x : VarName} {step : Int} {body : Locals → Exec Flow} {again : Locals → Exec Locals}

/-- The rest of a counted loop after the body has run once: `n` times the merge and the body. -/
def carryOn (x : VarName) (step : Int) (body : Locals → Exec Flow) (again : Locals → Exec Locals) :
    Nat → Int → Locals → Exec Flow
  | 0, _, L => return .next L
  | n + 1, i, L => again L >>= fun L => body (L.insert x (.ofInt i)) >>=
    (·.andThen (carryOn x step body again n (i + step)))

theorem carryOn_succ (call : Caller) (m : Merge) (side : Expr × Expr → Expr) (n : Nat) (i : Int) (L : Locals) :
    carryOn x step body (bindMerge call m side) (n + 1) i L = mergeValues call L side m.toList >>= fun vs =>
      body ((L.insertAll vs).insert x (.ofInt i)) >>=
        (·.andThen (carryOn x step body (bindMerge call m side) n (i + step))) := by
  rw [carryOn, bindMerge, bind_assoc]
  rfl

/-- A counted loop is the body, the other iterations, and the merge once more. -/
theorem repeatCounted_eq_carryOn (n : Nat) (i : Int) (L : Locals) :
    repeatCounted x step body again (n + 1) i L =
      (body (L.insert x (.ofInt i)) >>= (·.andThen (carryOn x step body again n (i + step)))) >>=
        (·.andThen fun L => return .next (← again L)) := by
  induction n generalizing i L with
  | zero =>
    rw [repeatCounted_succ, bind_assoc]
    refine bind_congr fun fl => ?_
    cases fl <;> rfl
  | succ n ih =>
    rw [repeatCounted_succ, bind_assoc]
    refine bind_congr fun fl => ?_
    cases fl with
    | returned v => rfl
    | next L1 =>
      show (again L1 >>= repeatCounted x step body again (n + 1) (i + step)) =
        (again L1 >>= fun L => _) >>= _
      rw [bind_assoc]
      exact bind_congr fun L2 => ih (i + step) L2

/-- The first iterations of a counted loop, and the others. -/
theorem repeatCounted_add (m n : Nat) (i : Int) (L : Locals) :
    repeatCounted x step body again (m + n) i L =
      repeatCounted x step body again m i L >>= (·.andThen (repeatCounted x step body again n (i + m * step))) := by
  induction m generalizing i L with
  | zero =>
    show _ = repeatCounted x step body again n (i + ((0 : Nat) : Int) * step) L
    congr 2
    · omega
    · simp
  | succ m ih =>
    rw [Nat.succ_add, repeatCounted_succ, repeatCounted_succ, bind_assoc]
    refine bind_congr fun fl => ?_
    cases fl with
    | returned v => rfl
    | next L1 =>
      show (again L1 >>= _) = (again L1 >>= _) >>= _
      rw [bind_assoc]
      refine bind_congr fun L2 => ?_
      rw [ih, show i + step + (m : Int) * step = i + ((m + 1 : Nat) : Int) * step by push_cast; ring]

end Eval

/-- The atoms stand for the integers. -/
def Known (facts : List (Expr × Int64)) (L : Locals) : Prop := ∀ p ∈ facts, p.1.Holds p.2 L

variable {facts : List (Expr × Int64)} {L L' : Locals} {w : Pairing} {r : Renaming} {y : VarName}

theorem Known.congr (h : Known facts L) (hL : ∀ p ∈ facts, ∀ x ∈ p.1.reads, L'.get? x = L.get? x) : Known facts L' :=
  fun p hp => (h p hp).congr (hL p hp)

/-- Binding a name on the right that no name on the left stands for. -/
theorem Link.names.insertRight {k : Likeness} {V : VarName → Prop} (h : (Link.names k V r).holds w L L')
    (hy : ∀ x, V x → r.image? x ≠ some y) (u : Value) : (Link.names k V r).holds w L (L'.insert y u) := by
  intro x hx
  have hne : ∀ z ∈ [(y, u)].map (·.1), r.image? x ≠ some z := by simpa using hy x hx
  rw [show L'.insert y u = L'.insertAll [(y, u)] from rfl, Renaming.value?_insertAll hne]
  exact h x hx

namespace Unrolling

/-! ## From one copy to the next -/

variable {t : Ty} {ys : List VarName}

theorem image?_of_current {x : VarName} (h : current r x = .var y t) : r.image? x = some y := by
  unfold current at h
  unfold Renaming.image?
  cases hr : r.renames.get? x with
  | none => rw [hr] at h; cases h
  | some e =>
    rw [hr] at h
    cases h
    rfl

/-- The values of a merge, and assigning them to the names of the next copy. -/
theorem carry_inStep {k : Likeness} {call : Caller} (hcall : CallersAlike k call call) (fuel : Nat) {r' : Renaming}
    (hr : r.Atomic) {V : VarName → Prop} {es : List (VarName × Expr × Expr)}
    (hes : List.Forall₂ (fun e y => ∃ t, current r' e.1 = .var y t) es ys) (ha : ∀ e ∈ es, k.Admits e.2.2)
    (hV : ∀ e ∈ es, ∀ x ∈ e.2.2.reads, V x) (hfresh : r.Avoids V ys) (hL : (Link.names k V r).holds w L L') :
    InStep k w (fun w vs fl => ∃ us, fl = .next (L'.insertAll us) ∧
        List.Forall₂ (fun p q => r'.image? p.1 = some q.1 ∧ Likes k w p.2 q.2) vs us ∧
        vs.map (·.1) = es.map (·.1) ∧ us.map (·.1) = ys)
      (mergeValues call L Prod.snd es)
      (block call fuel (es.map fun (x, _, back) => .assign (current r' x) (r.subst back)) L') := by
  induction hes generalizing w L' with
  | nil =>
    show InStep k w _ (pure []) (block call fuel [] L')
    rw [block_nil]
    exact .pure ⟨[], rfl, .nil, rfl, rfl⟩
  | @cons e y es ys hy _ ih =>
    obtain ⟨x, entry, back⟩ := e
    obtain ⟨t, ht⟩ := hy
    show InStep k w _ (expr call L back >>= fun v => mergeValues call L Prod.snd es >>= fun vs => pure ((x, v) :: vs))
      (block call fuel (.assign (current r' x) (r.subst back) :: es.map _) L')
    rw [show current r' x = .var y t from ht, block_cons, stmt, bind_assoc]
    have hhead := expr_copy hcall hr (ha _ List.mem_cons_self) (hV _ List.mem_cons_self)
    refine (hhead hL).bind fun w1 v u hle hvu => ?_
    rw [pure_bind]
    have hL1 := Link.names.insertRight ((Link.names k V r).mono hle hL) (hfresh y List.mem_cons_self) u
    have htail := ih (fun e he => ha e (List.mem_cons_of_mem _ he)) (fun e he => hV e (List.mem_cons_of_mem _ he))
      (fun z hz => hfresh z (List.mem_cons_of_mem _ hz)) hL1
    show InStep k w1 _ _ (block call fuel _ (L'.insert y u))
    rw [← bind_pure (block call fuel _ (L'.insert y u))]
    refine htail.bind fun w2 vs fl hle2 hvs => ?_
    obtain ⟨us, rfl, hvs, hn, hn'⟩ := hvs
    exact .pure ⟨(y, u) :: us, rfl, .cons ⟨image?_of_current ht, hvu.mono hle2⟩ hvs, congrArg _ hn, congrArg _ hn'⟩

/-- The names defined in the body of a loop. -/
def Loop.inside (l : Loop) (V : List VarName) : List VarName := l.counter.var :: (l.merge.keys ++ V)

/-- The loop stands where the names in `V` are defined, binds other names, each of them once, and reads
what is defined only; and its merges can be evaluated in any order. -/
structure Loop.Scoped (l : Loop) (call : Caller) (V : List VarName) : Prop where
  binds : ([l.counter.var] ++ l.merge.keys ++ blockBinds l.body).Nodup
  fresh : ∀ x ∈ [l.counter.var] ++ l.merge.keys ++ blockBinds l.body, x ∉ V
  header : l.ReadsIn V
  entry : Stmt.sideWithin l.merge Prod.fst (some V) = true
  body : Stmt.blockWellScoped l.body (l.inside V) = true
  back : Stmt.sideWithin l.merge Prod.snd (blockAfter l.body (l.inside V)) = true
  commutes : l.merge.Commutes call
  bodyCommutes : Stmt.blockCommutes call l.body

section

variable {call : Caller} {fuel : Nat} {l : Loop} {V : List VarName}

theorem Loop.Scoped.mem_inside {x : VarName} : x ∈ l.inside V ↔ x ∈ [l.counter.var] ++ l.merge.keys ∨ x ∈ V := by
  simp [Loop.inside, or_assoc]

/-- The names that the loop has to do with. -/
def Loop.Names (l : Loop) (V : List VarName) (x : VarName) : Prop := x ∈ l.inside V ∨ x ∈ blockBinds l.body

/-- A copy of the body, after its counter and the names of the merge have been bound. -/
theorem copy_sim (hcall : CallersAlike .strict call call) (hl : l.Scoped call V) {r1 r2 : Renaming} {body : Block}
    (hr : Renaming.Rebinds ([l.counter.var] ++ l.merge.keys) ys r r1) (hbody : Stmt.blockCopy l.body r1 body r2)
    (hatomic : r.Atomic) (hav : r.Avoids (l.Names V) (ys ++ blockBinds body))
    (hnd : (ys ++ blockBinds body).Nodup) (hkeep : ∀ p ∈ facts, ∀ x ∈ p.1.reads, x ∉ blockBinds body) :
    Sim .strict ((Link.names .strict (· ∈ l.inside V) r1).and (Known facts)) (fun _ _ => True)
      (block call fuel l.body) (block call fuel body)
      ((Link.scope .strict r2 (blockAfter l.body (l.inside V))).and (Known facts)) := by
  have hy : Hygiene (l.inside V) r1 (blockBinds l.body) (blockBinds body) :=
    { source := fun x hx hin => by
        rcases Loop.Scoped.mem_inside.mp hin with hin | hin
        · exact (List.nodup_append.mp hl.binds).2.2 x hin x hx rfl
        · exact hl.fresh x (List.mem_append_right _ hx) hin
      sourceNodup := (List.nodup_append.mp hl.binds).2.1
      target := fun y hy x hx => hr.avoids hav hnd y hy x (.inr (.inl hx))
      targetNodup := (List.nodup_append.mp hnd).2.1
      atomic := hr.atomic hatomic }
  refine (copy_block_sim hcall hbody hy hl.body (Likeness.strict_admitsBlock _) hl.bodyCommutes).keeping
    fun hk hrun => hk.congr fun p hp x hx => ?_
  exact block_within hrun x (hkeep p hp x hx)

theorem count_run {t : ScalarTy} (hty : l.Counts t) {first : VarName} {offset : Expr} {i j : Int64}
    (hi : (Expr.var first (.scalar t)).Holds i L) (hj : offset.Holds j L) (hin : t.holds (i + j) = true) :
    stmt call fuel (l.count first y offset) L = pure (.next (L.insert y (.int (i + j)))) := by
  rw [Loop.count, hty.counter, stmt, hi.add hj hty.int hin, pure_bind]

/-- Binding the counter of the loop and that of a copy. -/
theorem names_counter (hl : l.Scoped call V) {r1 : Renaming} {v u : Value}
    (hL : (Link.names .strict (· ∈ l.merge.keys ++ V) r1).holds w L L')
    (ht : Renaming.Takes l.merge.keys ys (r.bind l.counter.var (.var y t)) r1) (hav : r.Avoids (· ∈ V) [y])
    (hy : y ∉ ys) (hvu : Likes .strict w v u) :
    (Link.names .strict (· ∈ l.inside V) r1).holds w (L.insert l.counter.var v) (L'.insert y u) := by
  have hvar : l.counter.var ∉ l.merge.keys := fun h =>
    (List.nodup_append.mp (List.nodup_append.mp hl.binds).1).2.2 _ List.mem_cons_self _ h rfl
  refine Link.names.insert hL ?_ hvu fun z hz hne => ?_
  · rw [Renaming.image?, ht.keeps _ hvar]
    exact Renaming.image?_bind_self r l.counter.var y t
  · have hz := (List.mem_cons.mp hz).resolve_left hne
    refine ⟨hz, rfl, ?_⟩
    by_cases hk : z ∈ l.merge.keys
    · obtain ⟨x, hx, e⟩ := ht.rebinds.images z hk
      rw [e]
      intro he
      cases he
      exact hy hx
    · rw [Renaming.image?, ht.keeps z hk, Renaming.bind_renames, if_neg hne]
      exact hav y List.mem_cons_self z ((List.mem_append.mp hz).resolve_left hk)

/-- The names of a copy are bound to what the loop binds its names to. -/
theorem names_merge (hl : l.Scoped call V) {W : List VarName} {r1 : Renaming} {vs us : List (VarName × Value)}
    (hL : (Link.names .strict (· ∈ W) r).holds w L L') (hW : ∀ x ∈ V, x ∈ W)
    (ht : Renaming.Takes l.merge.keys ys (r.bind l.counter.var (.var y t)) r1)
    (hvs : List.Forall₂ (fun p q => r1.image? p.1 = some q.1 ∧ Likes .strict w p.2 q.2) vs us)
    (hn : vs.map (·.1) = l.merge.keys) (hn' : us.map (·.1) = ys) (hav : r.Avoids (· ∈ V) ys) :
    (Link.names .strict (· ∈ l.merge.keys ++ V) r1).holds w (L.insertAll vs) (L'.insertAll us) := by
  refine Link.names.insertAll hL hvs (hn ▸ l.merge.keys_nodup) (hn' ▸ ht.nodup) fun x hx hk => ?_
  rw [hn] at hk
  have hxV := (List.mem_append.mp hx).resolve_left hk
  refine ⟨hW x hxV, ?_, fun z hz => hav z (hn' ▸ hz) x hxV⟩
  rw [ht.keeps x hk, Renaming.bind_renames, if_neg fun (e : x = l.counter.var) => hl.fresh x (by simp [e]) hxV]

theorem ofInt_add_mul (i : Int) (k : Nat) (d : Int64) :
    Int64.ofInt (i + k * d.toInt) = Int64.ofInt i + d * Int64.ofNat k := by
  rw [Int64.ofInt_add, Int64.ofInt_mul, Int64.ofInt_toInt, Int64.mul_comm]
  rfl

/-- The copies after the first are in step with the iterations after the first. -/
theorem Copies.sim (hcall : CallersAlike .strict call call) (hl : l.Scoped call V) (hty : l.Counts .i64)
    {first : VarName} {i : Int} {d : Int64} (hfirst : (.var first .i64, Int64.ofInt i) ∈ facts) {n k : Nat}
    {r' : Renaming} {offs blk : Block} {offsets : List (Expr × Nat)} (h : Copies l first n k r offs offsets blk r')
    (hoffs : ∀ p ∈ offsets, (p.1, d * Int64.ofNat p.2) ∈ facts) (hr : r.Atomic)
    (hav : r.Avoids (l.Names V) (blockBinds blk)) (hnd : (blockBinds blk).Nodup)
    (hkeep : ∀ p ∈ facts, ∀ x ∈ p.1.reads, x ∉ blockBinds blk) :
    Sim .strict ((Link.scope .strict r (blockAfter l.body (l.inside V))).and (Known facts)) (fun _ _ => True)
      (carryOn l.counter.var d.toInt (block call fuel l.body) (bindMerge call l.merge Prod.snd) n (i + k * d.toInt))
      (block call fuel blk)
      ((Link.scope .strict r' (blockAfter l.body (l.inside V))).and (Known facts)) := by
  induction h with
  | nil k r =>
    intro w L st L' st' hst hL _
    rw [block_nil]
    exact ⟨w, le_rfl, hst, hL⟩
  | @cons n k r r1 r2 r' y t ys off offs offset offsets body blk ht _ hbody _ ih =>
    have hbinds : blockBinds (carry l.merge r r1 ++ (l.count first y offset :: body) ++ blk) =
        ys ++ (y :: blockBinds body) ++ blockBinds blk := by
      rw [Stmt.blockBinds_append, Stmt.blockBinds_append, binds_carry ht]
      rfl
    rw [hbinds] at hav hnd hkeep
    have hperm : (ys ++ (y :: blockBinds body) ++ blockBinds blk).Perm
        (([y] ++ ys) ++ blockBinds body ++ blockBinds blk) := List.perm_middle.append_right _
    have hnd' := hperm.nodup hnd
    have hav' : r.Avoids (l.Names V) (([y] ++ ys) ++ blockBinds body ++ blockBinds blk) :=
      fun z hz => hav z (hperm.mem_iff.mpr hz)
    have hkeep' : ∀ p ∈ facts, ∀ x ∈ p.1.reads, x ∉ ([y] ++ ys) ++ blockBinds body ++ blockBinds blk :=
      fun p hp x hx hm => hkeep p hp x hx (hperm.mem_iff.mpr hm)
    have hreb := (Renaming.rebinds_bind r l.counter.var y t).append ht.rebinds
    have hcopy : Sim .strict _ _ (block call fuel l.body) (block call fuel body) _ :=
      copy_sim hcall hl hreb hbody hr hav'.left (List.nodup_append.mp hnd').1
        fun p hp x hx hm => hkeep' p hp x hx (by simp [hm])
    have hrest := ih (fun p hp => hoffs p (List.mem_cons_of_mem _ hp)) (hbody.rebinds.atomic (hreb.atomic hr))
      (fun z hz x hx => (hreb.append hbody.rebinds).avoids hav' hnd' z hz x (.inr hx)) (List.nodup_append.mp hnd').2.1
      fun p hp x hx hm => hkeep' p hp x hx (by simp [hm])
    rw [show i + ((k + 1 : Nat) : Int) * d.toInt = i + k * d.toInt + d.toInt by push_cast; ring] at hrest
    intro w L st L' st' hst hL _
    obtain ⟨hL, hknown⟩ := hL
    cases hafter : blockAfter l.body (l.inside V) with
    | none =>
      rw [hafter] at hL
      exact hL.elim
    | some W =>
      have hVW : ∀ x ∈ V, x ∈ W := fun x hx => (Stmt.blockAfter_mem hafter).1 x (Loop.Scoped.mem_inside.mpr (.inr hx))
      have hWN : ∀ x ∈ W, l.Names V x := (Stmt.blockAfter_mem hafter).2
      have hback := hl.back
      rw [hafter] at hL hback
      have hreads : ∀ e ∈ l.merge.toList, ∀ x ∈ e.2.2.reads, x ∈ W := fun e he =>
        Stmt.sideWithin_some hback e.2 (List.mem_map.mpr ⟨e, he, rfl⟩)
      rw [← hafter, List.append_assoc, block_append, carryOn_succ]
      refine (carry_inStep hcall fuel hr (carried ht) (fun e _ => Likeness.strict_admits _) hreads
        (fun z hz x hx => hav' z (by simp [hz]) x (hWN x hx)) hL st st' hst).bind fun w1 vs s fl s' hle hp => ?_
      obtain ⟨hs, us, rfl, hvs, hn, hn'⟩ := hp
      have hknown1 : Known facts (L'.insertAll us) := hknown.congr fun p hp x hx =>
        NameMap.get?_insertAll_of_not_mem (fun hm => hkeep' p hp x hx (by simp [hn' ▸ hm])) L'
      have hcount : stmt call fuel (l.count first y offset) (L'.insertAll us) = _ :=
        count_run hty (hknown1 _ hfirst) (hknown1 _ (hoffs _ List.mem_cons_self)) rfl
      show Outcome w1 _ _ (block call fuel (l.count first y offset :: (body ++ blk)) (L'.insertAll us) s')
      rw [block_cons, hcount, pure_bind]
      show Outcome w1 _ _ (block call fuel (body ++ blk) _ s')
      rw [block_append]
      refine hcopy.andThen hrest w1 _ s _ s' hs ⟨?_, ?_⟩ ⟨trivial, fun _ _ _ => trivial⟩
      · have havV : r.Avoids (· ∈ V) ([y] ++ ys) := fun z hz x hx =>
          hav'.left.left z hz x (.inl (Loop.Scoped.mem_inside.mpr (.inr hx)))
        have hy : y ∉ ys := (List.nodup_cons.mp (List.nodup_append.mp (List.nodup_append.mp hnd').1).1).1
        refine names_counter hl
          (names_merge hl ((Link.names .strict (· ∈ W) r).mono hle hL) hVW ht hvs hn hn' havV.right)
          ht havV.left hy ?_
        rw [← ofInt_add_mul]
        exact Likes.int
      · exact hknown1.congr fun p hp x hx => NameMap.get?_insert_of_ne _ _ fun e => hkeep' p hp x hx (by simp [e])

end

end Unrolling

end ArrayIR
