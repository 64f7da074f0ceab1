/-
  ArrayIR.Proofs.Unrolling.Emitted — what unrolling makes of a loop, and of a function.

  `Parts` are the parts of an unrolled loop: the code that computes its bounds and
  the offsets of its copies, the copies of its body with the renamings they are made
  under, and the two loops put together from them. `Unrolled` says what a statement
  becomes: a loop its two halves, or itself over its new body; anything else itself
  over its new blocks. The pass emits just that (`stmts_unrolled`).
-/

import ArrayIR.Pass.Unrolling
import ArrayIR.Proofs.Integers

namespace ArrayIR

open Stmt (binds blockBinds blockBinds_append blockBinds_singleton)

theorem Stmt.simpleAll_append (ss ts : List Stmt) : simpleAll (ss ++ ts) = (simpleAll ss && simpleAll ts) := by
  induction ss with
  | nil => rw [List.nil_append, simpleAll, Bool.true_and]
  | cons s ss ih => rw [List.cons_append, simpleAll, simpleAll, ih, Bool.and_assoc]

namespace Unrolling

/-! ## The parts of an unrolled loop -/

/-- `out` computes the long step and the end of the unrolled loop. -/
inductive Bounds (l : Loop) (n : Nat) : Block → Expr → Expr → Prop
  | mk {range bigStep bigSteps trunc stop : Expr} {o₁ o₂ o₃ o₄ o₅ : Block}
      (range_ok : Build.Operates .sub l.counter.stop l.counter.start o₁ range)
      (bigStep_ok : Build.Operates .mul (l.const n) l.counter.step o₂ bigStep)
      (bigSteps_ok : Build.Operates .div range bigStep o₃ bigSteps)
      (trunc_ok : Build.Operates .mul bigSteps bigStep o₄ trunc)
      (stop_ok : Build.Operates .add l.counter.start trunc o₅ stop) :
    Bounds l n (o₁ ++ (o₂ ++ (o₃ ++ (o₄ ++ o₅)))) bigStep stop

/-- The counter of a copy, from that of the first one. -/
def Loop.count (l : Loop) (first y : VarName) (offset : Expr) : Stmt :=
  .assign (.var y l.counterTy) (.prim .add [.var first l.counterTy, offset] l.counterTy)

/-- `blk` is `n` copies of the body numbered from `k` on, made after a copy that has left the renaming
`r`; the last of them leaves `r'`. Their offsets are computed by `offs`. -/
inductive Copies (l : Loop) (first : VarName) :
    Nat → Nat → Renaming → Block → List (Expr × Nat) → Block → Renaming → Prop
  | nil (k : Nat) (r : Renaming) : Copies l first 0 k r [] [] [] r
  | cons {n k : Nat} {r r₁ r₂ r' : Renaming} {y : VarName} {t : Ty} {ys : List VarName} {off offs : Block}
      {offset : Expr} {offsets : List (Expr × Nat)} {body blk : Block}
      (takes : Renaming.Takes l.merge.keys ys (r.bind l.counter.var (.var y t)) r₁)
      (offset_ok : Build.Operates .mul l.counter.step (l.const k) off offset)
      (body_ok : Stmt.blockCopy l.body r₁ body r₂)
      (rest : Copies l first n (k + 1) r₂ offs offsets blk r') :
    Copies l first (n + 1) k r (off ++ offs) ((offset, k) :: offsets)
      (carry l.merge r r₁ ++ (l.count first y offset :: body) ++ blk) r'

/-- The parts that an unrolled loop is put together from. -/
structure Parts where
  bounds : Block
  bigStep : Expr
  stop : Expr
  var : VarName
  names : List VarName
  first : Renaming
  body : Block
  offsets : Block
  offsetOf : List (Expr × Nat)
  copies : Block
  last : Renaming

/-- The merge of the loop left over: on entry its names have the values of the unrolled loop's. -/
def entered (m : Merge) (r : Renaming) : Merge :=
  NameMap.ofList (m.toList.map fun (x, _, back) => (x, current r x, back))

namespace Parts

def unrolled (p : Parts) (l : Loop) : Stmt :=
  .forLoop ⟨p.var, l.counter.start, p.stop, p.bigStep⟩ (p.body ++ p.copies) (l.merge.copy p.names .none p.last)

def rest (p : Parts) (l : Loop) : Stmt :=
  .forLoop { l.counter with start := p.stop } l.body (entered l.merge p.first)

/-- What stands ahead of the loop left over. -/
def front (p : Parts) (l : Loop) : Block := p.bounds ++ p.offsets ++ [p.unrolled l]

/-- The parts are those of the loop `l`, unrolled `n` times. -/
structure Of (p : Parts) (n : Nat) (l : Loop) : Prop where
  bounds : Bounds l n p.bounds p.bigStep p.stop
  takes : ∃ (r : Renaming) (t : Ty), r.renames = .empty ∧
    Renaming.Takes l.merge.keys p.names (r.bind l.counter.var (.var p.var t)) p.first
  copies : ∃ r, Stmt.blockCopy l.body p.first p.body r ∧
    Copies l p.var (n - 1) 1 r p.offsets p.offsetOf p.copies p.last

end Parts

/-! ## Names and merges -/

theorem current_eq {xs ys : List VarName} {r r' : Renaming} (h : Renaming.Takes xs ys r r') {p : VarName × VarName}
    (hp : p ∈ xs.zip ys) : ∃ t, current r' p.1 = .var p.2 t := by
  obtain ⟨t, ht⟩ := h.renames p hp
  exact ⟨t, by rw [current, ht]; rfl⟩

variable {m : Merge} {r0 : Renaming}

theorem map_targets {ys : List VarName} {f : VarName → Expr} (hlen : ys.length = m.keys.length)
    (h : ∀ p ∈ m.keys.zip ys, ∃ t, f p.1 = .var p.2 t) :
    List.Forall₂ (fun (e : VarName × Expr × Expr) y => ∃ t, f e.1 = .var y t) m.toList ys := by
  unfold NameMap.keys at hlen h
  unfold NameMap.toList
  generalize m.entries = es at hlen h
  induction es generalizing ys with
  | nil =>
    rw [List.eq_nil_of_length_eq_zero hlen]
    exact .nil
  | cons e es ih =>
    cases ys with
    | nil => cases hlen
    | cons y ys =>
      exact .cons (h (e.1, y) List.mem_cons_self) (ih (Nat.succ.inj hlen) fun p hp => h p (List.mem_cons_of_mem _ hp))

/-- The names that carry values into a copy, entry by entry. -/
theorem carried {ys : List VarName} {r r' : Renaming} (h : Renaming.Takes m.keys ys r r') :
    List.Forall₂ (fun (e : VarName × Expr × Expr) y => ∃ t, current r' e.1 = .var y t) m.toList ys :=
  map_targets h.length fun _ hp => current_eq h hp

theorem binds_carry {ys : List VarName} {r r' : Renaming} (h : Renaming.Takes m.keys ys r0 r') :
    blockBinds (carry m r r') = ys := by
  have hc := carried h
  unfold carry
  clear h
  generalize m.toList = es at hc
  induction hc with
  | nil => rfl
  | @cons e y _ _ hy _ ih =>
    obtain ⟨x, entry, back⟩ := e
    obtain ⟨t, ht⟩ := hy
    rw [List.map_cons, blockBinds, ih]
    show (Stmt.assign (current r' x) (r.subst back)).binds ++ _ = _
    rw [show current r' x = .var y t from ht]
    rfl

theorem unrolled_merge {ys : List VarName} {r' last : Renaming} (h : Renaming.Takes m.keys ys r0 r') :
    NameMap.ofList (m.toList.filterMap fun (x, entry, back) => (current r' x).var?.map (·, entry, last.subst back)) =
      m.copy ys .none last := by
  have hc := carried h
  unfold Merge.copy Pass.joined NameMap.values
  show NameMap.ofList _ = NameMap.ofList (ys.zip ((m.toList.map (·.2)).map _ |>.zip ((m.toList.map (·.2)).map _)))
  congr 1
  clear h
  generalize m.toList = es at hc
  induction hc with
  | nil => rfl
  | cons hy _ ih =>
    obtain ⟨t, ht⟩ := hy
    rw [List.filterMap_cons, ih]
    simp only [ht, Expr.var?, Option.map_some, List.map_cons, List.zip_cons_cons, Renaming.subst_none]

theorem toList_entered (m : Merge) (r : Renaming) :
    (entered m r).toList = m.toList.map fun e => (e.1, current r e.1, e.2.2) :=
  NameMap.toList_ofList_of_sorted (List.pairwise_map.mpr m.sorted)

theorem keys_entered (m : Merge) (r : Renaming) : (entered m r).keys = m.keys := by
  show (entered m r).toList.map (·.1) = m.toList.map (·.1)
  rw [toList_entered, List.map_map]
  rfl

/-! ## What unrolling a loop emits -/

section Emission

variable {l : Loop} {b b' : Builder} {r r' : Renaming} {factor : UnrollFactor} {s : Stmt} {body : Block}

theorem bounds_ok {bigStep stop : Expr} (h : l.bounds factor b = .ok (bigStep, stop) b') :
    ∃ out, Bounds l factor.val out bigStep stop ∧ Emits (blockBinds out) out b b' := by
  obtain ⟨range, b1, h1, h⟩ := state_bind_ok h
  obtain ⟨big, b2, h2, h⟩ := state_bind_ok h
  obtain ⟨steps, b3, h3, h⟩ := state_bind_ok h
  obtain ⟨trunc, b4, h4, h⟩ := state_bind_ok h
  obtain ⟨last, b5, h5, h⟩ := state_bind_ok h
  cases h
  obtain ⟨o1, p1, e1⟩ := Build.prim_ok rfl h1
  obtain ⟨o2, p2, e2⟩ := Build.prim_ok rfl h2
  obtain ⟨o3, p3, e3⟩ := Build.prim_ok rfl h3
  obtain ⟨o4, p4, e4⟩ := Build.prim_ok rfl h4
  obtain ⟨o5, p5, e5⟩ := Build.prim_ok rfl h5
  refine ⟨_, .mk p1 p2 p3 p4 p5, ?_⟩
  simp only [blockBinds_append]
  exact e1.append (e2.append (e3.append (e4.append e5)))

theorem rebind_ok {x y : VarName} (h : rebind x m r b = .ok (y, r') b') :
    ∃ t ys, Renaming.Takes m.keys ys (r.bind x (.var y t)) r' ∧ Emits (y :: ys) [] b b' := by
  obtain ⟨z, r1, b1, hz, h⟩ := pass_bind_ok h
  obtain ⟨ys, r2, b2, hys, h⟩ := pass_bind_ok h
  obtain ⟨rfl, rfl, rfl⟩ := pass_pure_ok h
  obtain ⟨t, -, rfl, hone⟩ := Renaming.binding_ok hz
  obtain ⟨ht, hrest⟩ := Renaming.bindings_ok m.keys_nodup hys
  exact ⟨t, ys, ht, (hone.append hrest).toEmits⟩

theorem copies_ok {first : VarName} {n k : Nat} {blk : Block} (h : l.copies first n k r b = .ok (blk, r') b') :
    ∃ offs offsets, Copies l first n k r offs offsets blk r' ∧
      Emits (blockBinds offs ++ blockBinds blk) offs b b' := by
  induction n generalizing k r b blk with
  | zero =>
    obtain ⟨rfl, rfl, rfl⟩ := pass_pure_ok h
    exact ⟨[], [], .nil k r, .refl b⟩
  | succ n ih =>
    obtain ⟨blk1, r1, b1, hcopy, h⟩ := pass_bind_ok h
    obtain ⟨blk2, r2, b2, hrest, h⟩ := pass_bind_ok h
    obtain ⟨rfl, rfl, rfl⟩ := pass_pure_ok h
    obtain ⟨offs, offsets, hc, he⟩ := ih hrest
    obtain ⟨previous, r3, b3, hget, hcopy⟩ := pass_bind_ok hcopy
    cases hget
    obtain ⟨y, r4, b4, hbind, hcopy⟩ := pass_bind_ok hcopy
    obtain ⟨next, r5, b5, hget, hcopy⟩ := pass_bind_ok hcopy
    cases hget
    obtain ⟨offset, r6, b6, hoff, hcopy⟩ := pass_bind_ok hcopy
    obtain ⟨body, r7, b7, hbody, hcopy⟩ := pass_bind_ok hcopy
    obtain ⟨rfl, rfl, rfl⟩ := pass_pure_ok hcopy
    obtain ⟨hmul, rfl⟩ := pass_lift_ok hoff
    obtain ⟨t, ys, ht, het⟩ := rebind_ok hbind
    obtain ⟨off, ho, heo⟩ := Build.prim_ok rfl hmul
    obtain ⟨hb, hnew⟩ := Renaming.block_copy hbody
    refine ⟨off ++ offs, (offset, k) :: offsets, ?_, ?_⟩
    · have := Copies.cons ht ho hb hc
      rwa [List.append_cons _ _ body] at this
    · have hall := ((het.append heo).append hnew.toEmits).append he
      simp only [List.nil_append, List.append_nil] at hall
      refine hall.mono fun x hx => ?_
      simp only [blockBinds_append, binds_carry ht, blockBinds, binds, List.mem_append,
        List.mem_cons, List.not_mem_nil, or_false] at hx ⊢
      tauto

theorem split_ok (h : l.split factor b = .ok s b') :
    ∃ p : Parts, p.Of factor.val l ∧ s = p.rest l ∧ Emits (blockBinds (p.front l)) (p.front l) b b' := by
  obtain ⟨⟨bigStep, stop⟩, b1, hbounds, h⟩ := state_bind_ok h
  obtain ⟨b2, b3, hget, h⟩ := state_bind_ok h
  cases hget
  obtain ⟨⟨var, first⟩, b4, hrebind, h⟩ := state_bind_ok h
  obtain ⟨⟨body, last⟩, b5, hbody, h⟩ := state_bind_ok h
  obtain ⟨_, b6, hemit, h⟩ := state_bind_ok h
  cases h
  obtain ⟨out, hout, heout⟩ := bounds_ok hbounds
  obtain ⟨t, ys, ht, het⟩ := rebind_ok hrebind
  obtain ⟨body0, r1, b7, hbody0, hbody⟩ := pass_bind_ok hbody
  obtain ⟨blk, r2, b8, hblk, hbody⟩ := pass_bind_ok hbody
  obtain ⟨rfl, rfl, rfl⟩ := pass_pure_ok hbody
  obtain ⟨hb, hnew⟩ := Renaming.block_copy hbody0
  obtain ⟨offs, offsets, hc, hec⟩ := copies_ok hblk
  rw [unrolled_merge ht] at hemit
  refine ⟨⟨out, bigStep, stop, var, ys, first, body0, offs, offsets, blk, r2⟩,
    ⟨hout, ⟨_, t, rfl, ht⟩, r1, hb, hc⟩, rfl, ?_⟩
  have he := (((heout.append het).append hnew.toEmits).append hec).append (Build.emit_ok hemit)
  simp only [List.append_nil] at he
  refine he.mono fun x hx => ?_
  have hk := Merge.keys_copy_perm ht.length ht.nodup .none r2
  simp only [Parts.front, Parts.unrolled, blockBinds_append, blockBinds, binds, List.mem_append,
    List.mem_cons, hk.mem_iff, List.not_mem_nil, or_false] at hx ⊢
  tauto

/-- A loop that is unrolled has a short body of simple assignments. -/
def short (body : Block) : Bool := Stmt.simpleAll body && Stmt.blockCount body ≤ Options.maxUnrolledBody

theorem simple_of_short (h : short body = true) : Stmt.simpleAll body = true := (Bool.and_eq_true_iff.mp h).1

/-- A loop stays, or is split. -/
theorem loop_ok {c : Counter} (h : loop factor c body m b = .ok s b') :
    s = .forLoop c body m ∧ b' = b ∨ factor.val ≠ 1 ∧ short body = true ∧
      ∃ t, b.env.get? c.var = some t ∧ Loop.split ⟨c, body, m, t⟩ factor b = .ok s b' := by
  have hgo : ∀ {s : Stmt}, loop.go factor c body m b = .ok s b' → s = .forLoop c body m ∧ b' = b ∨
      short body = true ∧ ∃ t, b.env.get? c.var = some t ∧ Loop.split ⟨c, body, m, t⟩ factor b = .ok s b' := by
    intro s h
    change (if short body = true then _ else _ : Build Stmt) b = .ok s b' at h
    by_cases hs : short body = true
    · rw [if_pos hs] at h
      obtain ⟨t, b1, ht, h⟩ := state_bind_ok h
      obtain ⟨b2, b3, hget, ht⟩ := state_bind_ok ht
      cases hget
      cases hl : b.env.get? c.var with
      | none =>
        simp only [hl] at ht
        cases ht
      | some u =>
        simp only [hl] at ht
        cases ht
        exact .inr ⟨hs, t, rfl, h⟩
    · rw [if_neg hs] at h
      cases h
      exact .inl ⟨rfl, rfl⟩
  unfold loop at h
  by_cases h1 : factor.val = 1
  · rw [if_pos h1] at h
    cases h
    exact .inl ⟨rfl, rfl⟩
  · rw [if_neg h1] at h
    have h' : loop.go factor c body m b = .ok s b' := by
      cases hi : c.step.int? with
      | none => rwa [hi] at h
      | some i =>
        rw [hi] at h
        by_cases hle : i ≤ 0
        · simp only [if_pos hle] at h
          cases h
        · simpa only [if_neg hle] using h
    exact (hgo h').imp_right fun h => ⟨h1, h⟩

end Emission

/-! ## What unrolling a function emits -/

/-- The block consists of the two halves of the loop. -/
def Halves (n : Nat) (env : TypeEnv) (c : Counter) (body : Block) (m : Merge) (out : Block) : Prop :=
  n ≠ 1 ∧ short body = true ∧ ∃ (t : Ty) (p : Parts), env.get? c.var = some t ∧ p.Of n ⟨c, body, m, t⟩ ∧
    out = p.front ⟨c, body, m, t⟩ ++ [p.rest ⟨c, body, m, t⟩]

mutual

/-- What a statement becomes when loops are unrolled `n` times. -/
def Unrolled (n : Nat) (env : TypeEnv) : Stmt → Block → Prop
  | .assign target value, out => out = [.assign target value]
  | .ret value, out => out = [.ret value]
  | .ite c yes no m, out => ∃ yes' no', blockUnrolled n env yes yes' ∧ blockUnrolled n env no no' ∧
    out = [.ite c yes' no' m]
  | .whileLoop c body m, out => ∃ body', blockUnrolled n env body body' ∧ out = [.whileLoop c body' m]
  | .forLoop c body m, out => ∃ body', blockUnrolled n env body body' ∧
    (out = [.forLoop c body' m] ∨ Halves n env c body' m out)

def blockUnrolled (n : Nat) (env : TypeEnv) : List Stmt → Block → Prop
  | [], out => out = []
  | s :: ss, out => ∃ o os, Unrolled n env s o ∧ blockUnrolled n env ss os ∧ out = o ++ os

end

/-- Rebuilding an expression gives the expression. -/
theorem replace_rebuild {m : Type → Type} [Monad m] [LawfulMonad m] (e : Expr) :
    (e.replace (m := m) Expr.rebuild).self = pure e := by
  refine Expr.induction (P := fun e => (e.replace (m := m) Expr.rebuild).self = pure e) (fun e ih => ?_) e
  have hself : ∀ cs : List Expr, (∀ c ∈ cs, (c.replace (m := m) Expr.rebuild).self = pure c) →
      (cs.map (Expr.replace (m := m) Expr.rebuild)).mapM Replacement.self = pure cs := by
    intro cs h
    induction cs with
    | nil => rfl
    | cons c cs ihcs =>
      rw [List.map_cons, List.mapM_cons, h c List.mem_cons_self, pure_bind,
        ihcs fun c' hc' => h c' (List.mem_cons_of_mem _ hc'), pure_bind]
  rw [Expr.replace, Expr.fold_eq]
  show ((e.children.map (Expr.replace (m := m) Expr.rebuild)).mapM Replacement.self >>= fun cs =>
    pure (e.withChildren cs)) = pure e
  rw [hself e.children ih, pure_bind, Expr.withChildren_children]

section Pass

variable {factor : UnrollFactor} {b b' : Builder} {env : TypeEnv}

theorem expr_eq (e : Expr) (b : Builder) : ((e.replace Expr.rebuild).self : PassM Unit Expr) () b = .ok (e, ()) b := by
  rw [replace_rebuild e]
  rfl

variable {u : Unit} {pick : Expr × Expr → Expr} {es : List Expr}

theorem expr_same {e e' : Expr}
    (h : ((e.replace Expr.rebuild).self : PassM Unit Expr) () b = .ok (e', u) b') : e' = e ∧ b' = b := by
  cases (expr_eq e b).symm.trans h
  exact ⟨rfl, rfl⟩

theorem sides_eq (m : Merge) (pick : Expr × Expr → Expr) (b : Builder) :
    (pass factor).side m pick () b = .ok (m.values.map pick, ()) b := by
  unfold Pass.side
  induction m.values with
  | nil => rfl
  | cons v vs ih =>
    rw [List.mapM_cons]
    exact (pass_bind_of_ok (expr_eq (pick v) b)).trans (pass_bind_of_ok ih)

theorem side_same (h : (pass factor).side m pick () b = .ok (es, u) b') : es = m.values.map pick ∧ b' = b := by
  cases (sides_eq m pick b).symm.trans h
  exact ⟨rfl, rfl⟩

theorem names_eq (m : Merge) (b : Builder) : (pass factor).names m () b = .ok (m.keys, ()) b := by
  unfold Pass.names
  induction m.keys with
  | nil => rfl
  | cons x xs ih =>
    rw [List.mapM_cons]
    exact (pass_bind_of_ok rfl).trans (pass_bind_of_ok ih)

theorem names_same {xs : List VarName} (h : (pass factor).names m () b = .ok (xs, u) b') : xs = m.keys ∧ b' = b := by
  cases (names_eq m b).symm.trans h
  exact ⟨rfl, rfl⟩

theorem joined_same (m : Merge) : Pass.joined m.keys (m.values.map Prod.fst) (m.values.map Prod.snd) = m := by
  have hzip : m.keys.zip ((m.values.map Prod.fst).zip (m.values.map Prod.snd)) = m.toList := by
    unfold NameMap.keys NameMap.values NameMap.toList
    generalize m.entries = es
    induction es with
    | nil => rfl
    | cons e es ih => simp only [List.map_cons, List.zip_cons_cons, ih]
  rw [Pass.joined, hzip]
  exact NameMap.ofList_toList m

/-- What the pass has done with a piece of code that binds `xs`: it has emitted `ahead`, and has declared
the names that `out` binds besides those. If they are different, `R` holds. -/
def Rebuilds (env : TypeEnv) (xs : List VarName) (R : Prop) (out ahead : Block) (b b' : Builder) : Prop :=
  ∃ N, Emits N ahead b b' ∧ (blockBinds out).Perm (xs ++ N) ∧
    ((∀ x ∈ xs, x ∉ N) → (∀ x ∈ xs, b.env.get? x = env.get? x) → R)

namespace Rebuilds

variable {xs ys : List VarName} {R S : Prop} {out out' ahead ahead' : Block} {b1 b2 : Builder}

theorem refl (env : TypeEnv) {out : Block} {R : Prop} (h : R) (b : Builder) :
    Rebuilds env (blockBinds out) R out [] b b :=
  ⟨[], .refl b, by rw [List.append_nil], fun _ _ => h⟩

theorem append (h : Rebuilds env xs R out ahead b b1) (h' : Rebuilds env ys S out' ahead' b1 b2) :
    Rebuilds env (xs ++ ys) (R ∧ S) (out ++ out') (ahead ++ ahead') b b2 := by
  obtain ⟨N, he, hp, hR⟩ := h
  obtain ⟨N', he', hp', hS⟩ := h'
  refine ⟨N ++ N', he.append he', ?_, fun hd henv => ⟨hR (fun x hx hn => ?_) fun x hx => ?_,
    hS (fun x hx hn => ?_) fun x hx => ?_⟩⟩
  · rw [blockBinds_append, List.perm_iff_count]
    intro a
    have h1 := List.perm_iff_count.mp hp a
    have h2 := List.perm_iff_count.mp hp' a
    simp only [List.count_append] at h1 h2 ⊢
    omega
  · exact hd x (List.mem_append_left _ hx) (List.mem_append_left _ hn)
  · exact henv x (List.mem_append_left _ hx)
  · exact hd x (List.mem_append_right _ hx) (List.mem_append_right _ hn)
  · have hx' := List.mem_append_right xs hx
    rw [he.env x fun hn => hd x hx' (List.mem_append_left _ hn)]
    exact henv x hx'

/-- What is emitted in a scope of its own. -/
theorem nested (h : Rebuilds env xs R out out { b with block := [] } b1) :
    b1.block = out ∧ Rebuilds env xs R out [] b { b1 with block := b.block } := by
  obtain ⟨N, he, hp, hR⟩ := h
  obtain ⟨hb, he⟩ := he.nested
  exact ⟨hb, N, he, hp, hR⟩

/-- Code around what has been emitted, that binds some names more. -/
theorem wrap (h : Rebuilds env xs R out ahead b b') (zs : List VarName)
    (hb : (blockBinds out').Perm (zs ++ blockBinds out))
    (hx : ys.Perm (zs ++ xs)) (hS : R → S) : Rebuilds env ys S out' ahead b b' := by
  obtain ⟨N, he, hp, hR⟩ := h
  have hmem : ∀ x ∈ xs, x ∈ ys := fun x hx' => hx.mem_iff.mpr (List.mem_append_right _ hx')
  refine ⟨N, he, ?_, fun hd henv => hS (hR (fun x hx' => hd x (hmem x hx')) fun x hx' => henv x (hmem x hx'))⟩
  refine (hb.trans (hp.append_left zs)).trans ?_
  rw [← List.append_assoc]
  exact hx.symm.append_right N

end Rebuilds

/-- A block and one side of the merge that follows it, in a scope of their own. -/
theorem scope_unrolled {ss ss' : List Stmt}
    (ih : ∀ {b b' : Builder}, (pass factor).stmts ss () b = .ok ((), ()) b' →
      ∃ out, Rebuilds env (blockBinds ss) (blockUnrolled factor.val env ss out) out out b b')
    (h : PassM.nested (do (pass factor).stmts ss; (pass factor).side m pick) () b = .ok ((ss', es), u) b') :
    es = m.values.map pick ∧ Rebuilds env (blockBinds ss) (blockUnrolled factor.val env ss ss') ss' [] b b' := by
  obtain ⟨b1, hin, rfl, rfl⟩ := pass_nested_ok h
  obtain ⟨_, _, b2, hss, hside⟩ := pass_bind_ok hin
  obtain ⟨rfl, rfl⟩ := side_same hside
  obtain ⟨out, ho⟩ := ih hss
  obtain ⟨rfl, ho⟩ := ho.nested
  exact ⟨rfl, ho⟩

mutual

/-- What the pass makes of a statement. -/
theorem stmt_unrolled : ∀ {s s' : Stmt} {u : Unit} {b b' : Builder}, (pass factor).stmt s () b = .ok (s', u) b' →
    ∃ ahead, Rebuilds env s.binds (Unrolled factor.val env s (ahead ++ [s'])) (ahead ++ [s']) ahead b b'
  | .assign target value, s', u, b, b', h => by
    rw [Pass.stmt] at h
    obtain ⟨v, _, b1, hv, h⟩ := pass_bind_ok h
    obtain ⟨t, _, b2, ht, h⟩ := pass_bind_ok h
    obtain ⟨rfl, -, rfl⟩ := pass_pure_ok h
    obtain ⟨rfl, rfl⟩ := expr_same hv
    obtain ⟨rfl, rfl⟩ := expr_same ht
    exact ⟨[], blockBinds_singleton _ ▸ Rebuilds.refl env rfl _⟩
  | .ret value, s', u, b, b', h => by
    rw [Pass.stmt] at h
    obtain ⟨v, _, b1, hv, h⟩ := pass_bind_ok h
    obtain ⟨rfl, -, rfl⟩ := pass_pure_ok h
    obtain ⟨rfl, rfl⟩ := expr_same hv
    exact ⟨[], Rebuilds.refl env rfl _⟩
  | .ite c yes no m, s', u, b, b', h => by
    rw [Pass.stmt] at h
    obtain ⟨c', _, b1, hc, h⟩ := pass_bind_ok h
    obtain ⟨⟨yes', lefts⟩, _, b2, hyes, h⟩ := pass_bind_ok h
    obtain ⟨⟨no', rights⟩, _, b3, hno, h⟩ := pass_bind_ok h
    obtain ⟨xs, _, b4, hxs, h⟩ := pass_bind_ok h
    obtain ⟨rfl, -, rfl⟩ := pass_pure_ok h
    obtain ⟨rfl, rfl⟩ := expr_same hc
    obtain ⟨rfl, rfl⟩ := names_same hxs
    obtain ⟨rfl, hy⟩ := scope_unrolled stmts_unrolled hyes
    obtain ⟨rfl, hn⟩ := scope_unrolled stmts_unrolled hno
    rw [joined_same]
    refine ⟨[], (hy.append hn).wrap m.keys ?_ List.perm_append_comm fun hr => ⟨_, _, hr.1, hr.2, rfl⟩⟩
    rw [List.nil_append, blockBinds_singleton, blockBinds_append]
    exact List.perm_append_comm
  | .whileLoop c body m, s', u, b, b', h => by
    rw [Pass.stmt] at h
    obtain ⟨entries, _, b1, hentries, h⟩ := pass_bind_ok h
    obtain ⟨xs, _, b2, hxs, h⟩ := pass_bind_ok h
    obtain ⟨c', _, b3, hc, h⟩ := pass_bind_ok h
    obtain ⟨⟨body', backs⟩, _, b4, hbody, h⟩ := pass_bind_ok h
    obtain ⟨rfl, -, rfl⟩ := pass_pure_ok h
    obtain ⟨rfl, rfl⟩ := side_same hentries
    obtain ⟨rfl, rfl⟩ := names_same hxs
    obtain ⟨rfl, rfl⟩ := expr_same hc
    obtain ⟨rfl, hb⟩ := scope_unrolled stmts_unrolled hbody
    rw [joined_same]
    refine ⟨[], hb.wrap m.keys ?_ (.refl _) fun hr => ⟨_, hr, rfl⟩⟩
    rw [List.nil_append, blockBinds_singleton, binds]
  | .forLoop c body m, s', u, b, b', h => by
    rw [Pass.stmt] at h
    obtain ⟨start, _, b1, hstart, h⟩ := pass_bind_ok h
    obtain ⟨stop, _, b2, hstop, h⟩ := pass_bind_ok h
    obtain ⟨step, _, b3, hstep, h⟩ := pass_bind_ok h
    obtain ⟨entries, _, b4, hentries, h⟩ := pass_bind_ok h
    obtain ⟨xs, _, b5, hxs, h⟩ := pass_bind_ok h
    obtain ⟨x, _, b6, hx, h⟩ := pass_bind_ok h
    obtain ⟨⟨body', backs⟩, _, b7, hbody, h⟩ := pass_bind_ok h
    obtain ⟨hloop, -⟩ := pass_lift_ok h
    obtain ⟨rfl, rfl⟩ := expr_same hstart
    obtain ⟨rfl, rfl⟩ := expr_same hstop
    obtain ⟨rfl, rfl⟩ := expr_same hstep
    obtain ⟨rfl, rfl⟩ := side_same hentries
    obtain ⟨rfl, rfl⟩ := names_same hxs
    cases hx
    obtain ⟨rfl, hb⟩ := scope_unrolled stmts_unrolled hbody
    rw [joined_same] at hloop
    rcases loop_ok hloop with ⟨rfl, rfl⟩ | ⟨h1, hsimple, t, ht, hsplit⟩
    · refine ⟨[], hb.wrap (c.var :: m.keys) ?_ (.refl _) fun hr => ⟨_, hr, .inl rfl⟩⟩
      rw [List.nil_append, blockBinds_singleton]
      exact .refl _
    · obtain ⟨p, hp, rfl, he⟩ := split_ok hsplit
      obtain ⟨N, heb, hperm, hR⟩ := hb
      refine ⟨p.front _, N ++ blockBinds (p.front _), heb.append he, ?_, fun hd henv => ?_⟩
      · rw [blockBinds_append, blockBinds_singleton, Parts.rest, binds, keys_entered,
          List.perm_iff_count]
        intro a
        have := List.perm_iff_count.mp hperm a
        simp only [binds, List.count_append, List.count_cons] at this ⊢
        omega
      · have hsub : ∀ x ∈ blockBinds body, x ∈ (Stmt.forLoop c body m).binds := fun x hx => by simp [binds, hx]
        refine ⟨body', hR (fun x hx hn => hd x (hsub x hx) (List.mem_append_left _ hn)) fun x hx => henv x (hsub x hx),
          .inr ⟨h1, hsimple, t, p, ?_, hp, rfl⟩⟩
        have hv : c.var ∈ (Stmt.forLoop c body m).binds := List.mem_cons_self
        rw [← henv c.var hv, ← heb.env c.var fun hn => hd c.var hv (List.mem_append_left _ hn)]
        exact ht

/-- What the pass makes of a block. -/
theorem stmts_unrolled : ∀ {ss : List Stmt} {b b' : Builder}, (pass factor).stmts ss () b = .ok ((), ()) b' →
    ∃ out, Rebuilds env (blockBinds ss) (blockUnrolled factor.val env ss out) out out b b'
  | [], b, b', h => by
    cases h
    exact ⟨[], Rebuilds.refl env rfl b⟩
  | s :: ss, b, b', h => by
    rw [Pass.stmts] at h
    obtain ⟨t, _, b1, hs, h⟩ := pass_bind_ok h
    obtain ⟨_, _, b2, he, h⟩ := pass_bind_ok h
    obtain ⟨hemit, -⟩ := pass_lift_ok he
    obtain ⟨ahead, N, he, hperm, hR⟩ := stmt_unrolled hs
    obtain ⟨out, hrest⟩ := stmts_unrolled h
    have hemits := he.append (Build.emit_ok hemit)
    rw [List.append_nil] at hemits
    have hfirst : Rebuilds env s.binds (Unrolled factor.val env s (ahead ++ [t])) (ahead ++ [t]) (ahead ++ [t]) b b2 :=
      ⟨N, hemits, hperm, hR⟩
    exact ⟨ahead ++ [t] ++ out, (hfirst.append hrest).wrap [] (.refl _) (.refl _)
      fun hr => ⟨_, _, hr.1, hr.2, rfl⟩⟩

end

end Pass

end Unrolling

end ArrayIR
