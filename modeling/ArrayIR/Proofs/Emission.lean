/-
  ArrayIR.Proofs.Emission — what the builder's operations append.

  `Emits` says what a computation over the builder has done: the statements it has
  appended, and the names it may have declared. Of the session it has only taken
  numbers for names. The copying pass emits copies (`Renaming.stmts_copy`): the
  names it takes have different numbers, so they are different.
-/

import ArrayIR.Proofs.Copy

namespace ArrayIR

/-- A computation has appended `out`, declared no names but those in `N`, and taken names from the session. -/
structure Emits (N : List VarName) (out : Block) (b b' : Builder) : Prop where
  block : b'.block = b.block ++ out
  env : ∀ x, x ∉ N → b'.env.get? x = b.env.get? x
  session : b'.session = { b.session with nextName := b'.session.nextName }
  next : b.session.nextName ≤ b'.session.nextName

namespace Emits

variable {N N' : List VarName} {out out' : Block} {b b1 b2 : Builder}

theorem refl (b : Builder) : Emits [] [] b b := ⟨(List.append_nil _).symm, fun _ _ => rfl, rfl, Nat.le_refl _⟩

theorem append (h : Emits N out b b1) (h' : Emits N' out' b1 b2) : Emits (N ++ N') (out ++ out') b b2 where
  block := by rw [h'.block, h.block, List.append_assoc]
  env x hx := by
    rw [List.mem_append, not_or] at hx
    rw [h'.env x hx.2, h.env x hx.1]
  session := by rw [h'.session, h.session]
  next := Nat.le_trans h.next h'.next

theorem mono (h : Emits N out b b1) (hN : ∀ x ∈ N, x ∈ N') : Emits N' out b b1 :=
  { h with env := fun x hx => h.env x fun hm => hx (hN x hm) }

/-- What is emitted in a scope of its own is not emitted in the enclosing one. -/
theorem nested (h : Emits N out { b with block := [] } b1) :
    b1.block = out ∧ Emits N [] b { b1 with block := b.block } :=
  ⟨h.block, ⟨(List.append_nil _).symm, h.env, h.session, h.next⟩⟩

end Emits

/-- Different names, with numbers from `n` on and below `m`. -/
structure Taken (ys : List VarName) (n m : Nat) : Prop where
  nodup : ys.Nodup
  number : ∀ y ∈ ys, ∃ a i, y = numbered a i ∧ n ≤ i ∧ i < m

namespace Taken

variable {ys zs : List VarName} {n m k : Nat}

theorem nil (n m : Nat) : Taken [] n m := ⟨.nil, fun _ hy => absurd hy List.not_mem_nil⟩

theorem one (x : VarName) (n : Nat) : Taken [numbered x n] n (n + 1) :=
  ⟨List.pairwise_singleton _ _, fun _ hy => ⟨x, n, List.mem_singleton.mp hy, Nat.le_refl n, Nat.lt_succ_self n⟩⟩

theorem perm (h : Taken ys n m) (hp : ys.Perm zs) : Taken zs n m :=
  ⟨hp.nodup h.nodup, fun y hy => h.number y (hp.mem_iff.mpr hy)⟩

theorem disjoint (h : Taken ys n m) (h' : Taken zs m k) : ∀ y ∈ ys, y ∉ zs := by
  intro y hy hz
  obtain ⟨a, i, rfl, -, hi⟩ := h.number y hy
  obtain ⟨c, j, e, hj, -⟩ := h'.number _ hz
  have := numbered_inj e
  omega

theorem append (h : Taken ys n m) (h' : Taken zs m k) (hn : n ≤ m) (hm : m ≤ k) : Taken (ys ++ zs) n k where
  nodup := List.nodup_append.mpr ⟨h.nodup, h'.nodup, fun y hy z hz e => h.disjoint h' y hy (e ▸ hz)⟩
  number y hy := by
    rcases List.mem_append.mp hy with hy | hy
    · obtain ⟨a, i, e, hi, hk⟩ := h.number y hy
      exact ⟨a, i, e, hi, by omega⟩
    · obtain ⟨a, i, e, hi, hk⟩ := h'.number y hy
      exact ⟨a, i, e, by omega, hk⟩

end Taken

variable {x : VarName} {t : Ty} {e e' : Expr}

namespace Build

variable {b b' : Builder}

theorem freshName_ok {x y : String} (h : freshName x b = .ok y b') :
    y = numbered x b.session.nextName ∧ Emits [] [] b b' ∧ b'.session.nextName = b.session.nextName + 1 := by
  cases h
  exact ⟨rfl, ⟨(List.append_nil _).symm, fun _ _ => rfl, rfl, Nat.le_succ _⟩, rfl⟩

theorem declare_ok (h : declare x t b = .ok e b') : e = .var x t ∧ Emits [x] [] b b' ∧ b'.session = b.session := by
  cases h
  refine ⟨rfl, ⟨(List.append_nil _).symm, fun z hz => ?_, rfl, Nat.le_refl _⟩, rfl⟩
  exact NameMap.get?_insert_of_ne b.env t fun e => hz (e ▸ List.mem_cons_self)

theorem emit_ok {s : Stmt} (h : emit s b = .ok () b') : Emits [] [s] b b' := by
  cases h
  exact ⟨rfl, fun _ _ => rfl, rfl, Nat.le_refl _⟩

theorem literal_of_isInt {t : ScalarTy} (h : t.isInt = true) (i : Int64) : literal i t = pure (.int i t) := if_pos h

theorem literal_ok {t : ScalarTy} {i : Int64} (h : literal i t b = .ok e b') :
    t.isInt = true ∧ e = .int i t ∧ b' = b := by
  unfold literal at h
  split at h
  · obtain ⟨rfl, rfl⟩ := state_pure_ok h
    exact ⟨‹_›, rfl, rfl⟩
  · cases h

/-- A temporary is a fresh name, and the assignment to it. -/
theorem temp_ok {v : Expr} {name : String} (h : temp v name b = .ok e b') :
    ∃ y, e = .var y v.ty ∧ Emits [y] [.assign (.var y v.ty) v] b b' ∧
      Taken [y] b.session.nextName b'.session.nextName := by
  obtain ⟨x, b1, hx, h⟩ := state_bind_ok h
  obtain ⟨y, b2, hy, hx⟩ := state_bind_ok hx
  obtain ⟨_, b3, he, h⟩ := state_bind_ok h
  obtain ⟨rfl, rfl⟩ := state_pure_ok h
  obtain ⟨rfl, h1, hn⟩ := freshName_ok hy
  obtain ⟨rfl, h2, hs⟩ := declare_ok hx
  refine ⟨_, rfl, (h1.append h2).append (emit_ok he), ?_⟩
  cases he
  show Taken _ _ b1.session.nextName
  rw [hs, hn]
  exact .one name _

/-- What casting `e` to `t` makes of it: the code emitted, and the expression for the result. -/
inductive Casts (e : Expr) (t : ScalarTy) : Block → Expr → Prop
  | same (h : e.ty = .scalar t) : Casts e t [] e
  | int {i : Int64} {u : Ty} (h : e = .const (.int i) u) : Casts e t [] (.scalar i t)
  | bool {c : Bool} {u : Ty} (h : e = .const (.bool c) u) : Casts e t [] (.scalar (if c then 1 else 0) t)
  | temp (y : VarName) :
    Casts e t [.assign (.var y (.scalar t)) (.cast e (.scalar t))] (.var y (.scalar t))

theorem cast_ok {t : ScalarTy} (h : cast e t b = .ok e' b') :
    (∃ s, e.ty = .scalar s) ∧ ∃ out, Casts e t out e' ∧ Emits (Stmt.blockBinds out) out b b' ∧
      Taken (Stmt.blockBinds out) b.session.nextName b'.session.nextName := by
  unfold cast at h
  cases hs : e.ty with
  | scalar s =>
    rw [hs] at h
    refine ⟨⟨s, rfl⟩, ?_⟩
    by_cases hst : s = t
    · simp only [Ty.scalar?, if_pos hst] at h
      cases h
      exact ⟨[], .same (hst ▸ hs), .refl b, .nil _ _⟩
    · simp only [Ty.scalar?, if_neg hst] at h
      have temporary : temp (.cast e (.scalar t)) "cast" b = .ok e' b' → ∃ out, Casts e t out e' ∧
          Emits (Stmt.blockBinds out) out b b' ∧ Taken
            (Stmt.blockBinds out) b.session.nextName b'.session.nextName := by
        intro hv
        obtain ⟨y, rfl, he, hy⟩ := temp_ok hv
        exact ⟨_, .temp y, he, hy⟩
      cases e with
      | const c u =>
        cases c with
        | int i =>
          cases h
          exact ⟨[], .int rfl, .refl b, .nil _ _⟩
        | bool i =>
          cases h
          exact ⟨[], .bool rfl, .refl b, .nil _ _⟩
        | _ => exact temporary h
      | _ => exact temporary h
  | _ =>
    rw [hs] at h
    cases h

end Build

namespace Renaming

variable {b b' : Builder} {r r' : Renaming}

/-- Names stand for expressions of their declared types. -/
def Typed (r : Renaming) : Prop := ∀ x e t, r.renames.get? x = some e → r.source.get? x = some t → e.ty = t

theorem Typed.bind (hr : r.Typed) (h : ∀ t, r.source.get? x = some t → e.ty = t) : (r.bind x e).Typed := by
  intro z e' t hz ht
  rw [bind_renames] at hz
  split at hz
  · rename_i hzx
    subst hzx
    cases hz
    exact h t ht
  · exact hr z e' t hz ht

/-- The declarations are the same, and names stand for expressions of their types if they did before. -/
structure Extends (r r' : Renaming) : Prop where
  source : r'.source = r.source
  typed : r.Typed → r'.Typed

theorem Extends.refl (r : Renaming) : Extends r r := ⟨rfl, id⟩

theorem Extends.trans {r1 r2 : Renaming} (h : Extends r r1) (h' : Extends r1 r2) : Extends r r2 :=
  ⟨h'.source.trans h.source, fun hr => h'.typed (h.typed hr)⟩

variable {y : VarName} {m : Merge} {pick : Expr × Expr → Expr} {es : List Expr}

theorem Extends.bind (h : r.source.get? x = some t) : Extends r (r.bind x (.var y t)) := by
  refine ⟨rfl, fun hr => hr.bind fun u hu => ?_⟩
  rw [h] at hu
  cases hu
  rfl

/-- An expression keeps its type, if it is not a name used at a type other than the declared one. -/
theorem Typed.subst_ty (hr : r.Typed) (h : ∀ x t, e = .var x t → r.source.get? x = some t) : (r.subst e).ty = e.ty := by
  by_cases hv : ∃ x t, e = .var x t
  · obtain ⟨x, t, rfl⟩ := hv
    rw [subst_var]
    cases he : r.renames.get? x with
    | none => rfl
    | some e' => exact hr x e' t he (h x t rfl)
  · rw [subst_eq r fun x t he => hv ⟨x, t, he⟩, Expr.ty_withChildren]

/-- From one moment to the other the names `xs` have been given the names `ys`: these are new, and declared with the
types that the source declares for the old ones. -/
structure Renews (xs ys : List VarName) (out : Block) (r r' : Renaming) (b b' : Builder) : Prop
    extends Emits ys out b b', Extends r r' where
  taken : Taken ys b.session.nextName b'.session.nextName
  keeps : ∀ x, x ∉ xs → r'.renames.get? x = r.renames.get? x
  given : ∀ x ∈ xs, ∃ y ∈ ys, ∃ t, r.source.get? x = some t ∧ r'.renames.get? x = some (.var y t) ∧
    b'.env.get? y = some t
  images : xs.Nodup → (xs.map r'.image?).Perm (ys.map some)

namespace Renews

variable {xs ys xs' ys' : List VarName} {out out' : Block} {r1 r2 : Renaming} {b1 b2 : Builder}

theorem refl (r : Renaming) (b : Builder) : Renews [] [] [] r r b b :=
  ⟨.refl b, .refl r, .nil _ _, fun _ _ => rfl, fun _ hx => absurd hx List.not_mem_nil, fun _ => .nil⟩

theorem append (h : Renews xs ys out r r1 b b1) (h' : Renews xs' ys' out' r1 r2 b1 b2) :
    Renews (xs ++ xs') (ys ++ ys') (out ++ out') r r2 b b2 where
  toEmits := h.toEmits.append h'.toEmits
  toExtends := h.toExtends.trans h'.toExtends
  taken := h.taken.append h'.taken h.next h'.next
  keeps x hx := by
    rw [List.mem_append, not_or] at hx
    rw [h'.keeps x hx.2, h.keeps x hx.1]
  given x hx := by
    by_cases hx' : x ∈ xs'
    · obtain ⟨y, hy, t, ht, hr, he⟩ := h'.given x hx'
      exact ⟨y, List.mem_append_right _ hy, t, h.source ▸ ht, hr, he⟩
    · obtain ⟨y, hy, t, ht, hr, he⟩ := h.given x ((List.mem_append.mp hx).resolve_right hx')
      exact ⟨y, List.mem_append_left _ hy, t, ht, by rw [h'.keeps x hx', hr],
        by rw [h'.env y (h.taken.disjoint h'.taken y hy), he]⟩
  images hnd := by
    obtain ⟨hnd, hnd', hne⟩ := List.nodup_append.mp hnd
    have hkept : xs.map r2.image? = xs.map r1.image? := List.map_congr_left fun x hx => by
      rw [image?, image?, h'.keeps x fun hx' => hne x hx x hx' rfl]
    rw [List.map_append, List.map_append, hkept]
    exact (h.images hnd).append (h'.images hnd')

theorem perm (h : Renews xs ys out r r1 b b1) (hx : xs.Perm xs') (hy : ys.Perm ys') : Renews xs' ys' out r r1 b b1 where
  toEmits := h.toEmits.mono fun _ => hy.mem_iff.mp
  toExtends := h.toExtends
  taken := h.taken.perm hy
  keeps x hn := h.keeps x fun hm => hn (hx.mem_iff.mp hm)
  given x hm := by
    obtain ⟨y, hym, ht⟩ := h.given x (hx.mem_iff.mpr hm)
    exact ⟨y, hy.mem_iff.mp hym, ht⟩
  images hnd := ((hx.symm.map _).trans (h.images (hx.nodup_iff.mpr hnd))).trans (hy.map _)

/-- What is emitted in a scope of its own is not emitted in the enclosing one. -/
theorem nested (h : Renews xs ys out r r1 { b with block := [] } b1) :
    b1.block = out ∧ Renews xs ys [] r r1 b { b1 with block := b.block } :=
  ⟨h.block, h.toEmits.nested.2, h.toExtends, h.taken, h.keeps, h.given, h.images⟩

end Renews

theorem binding_ok (h : binding x r b = .ok (y, r') b') :
    ∃ t, r.source.get? x = some t ∧ r' = r.bind x (.var y t) ∧ Renews [x] [y] [] r r' b b' := by
  obtain ⟨r1, r2, b1, hget, h⟩ := pass_bind_ok h
  cases hget
  cases ht : r.source.get? x with
  | none =>
    rw [ht] at h
    cases h
  | some t =>
    rw [ht] at h
    cases h
    refine ⟨t, rfl, rfl, ?_, .bind ht, .one x _, fun z hz => ?_, fun z hz => ?_, fun _ => ?_⟩
    · refine ⟨(List.append_nil _).symm, fun z hz => ?_, rfl, Nat.le_succ _⟩
      exact NameMap.get?_insert_of_ne b.env t fun e => hz (e ▸ List.mem_cons_self)
    · rw [bind_renames, if_neg (by simpa using hz)]
    · cases List.mem_singleton.mp hz
      exact ⟨_, List.mem_cons_self, t, ht, by rw [bind_renames, if_pos rfl], NameMap.get?_insert_self b.env _ t⟩
    · rw [List.map_singleton, image?_bind_self]
      exact .refl _

theorem bindings_ok {xs ys : List VarName} (hnd : xs.Nodup) (h : xs.mapM binding r b = .ok (ys, r') b') :
    Takes xs ys r r' ∧ Renews xs ys [] r r' b b' := by
  induction xs generalizing ys r b with
  | nil =>
    cases h
    exact ⟨⟨rfl, .nil, fun p hp => absurd hp List.not_mem_nil, fun _ _ => rfl, id⟩, .refl _ _⟩
  | cons x xs ih =>
    rw [List.mapM_cons] at h
    obtain ⟨y, r1, b1, hy, h⟩ := pass_bind_ok h
    obtain ⟨zs, r2, b2, hz, h⟩ := pass_bind_ok h
    obtain ⟨rfl, rfl, rfl⟩ := pass_pure_ok h
    obtain ⟨t, -, rfl, hone⟩ := binding_ok hy
    obtain ⟨hx, hnd⟩ := List.nodup_cons.mp hnd
    obtain ⟨htake, hrest⟩ := ih hnd hz
    have hall := hone.append hrest
    refine ⟨⟨?_, hall.taken.nodup, fun p hp => ?_, hall.keeps, fun hr => ?_⟩, hall⟩
    · rw [List.length_cons, List.length_cons, htake.length]
    · rcases List.mem_cons.mp hp with rfl | hp
      · exact ⟨t, by rw [htake.keeps x hx, bind_renames, if_pos rfl]⟩
      · exact htake.renames p hp
    · exact htake.atomic (bind_atomic hr x rfl)

theorem expr_ok (h : pass.expr e r b = .ok (e', r') b') : e' = r.subst e ∧ r' = r ∧ b' = b := by
  cases h
  exact ⟨rfl, rfl, rfl⟩

theorem side_ok
    (h : pass.side m pick r b = .ok (es, r') b') : es = m.values.map (fun p => r.subst (pick p)) ∧ r' = r ∧ b' = b := by
  unfold Pass.side at h
  generalize m.values = vs at h
  induction vs generalizing es r' b' with
  | nil =>
    cases h
    exact ⟨rfl, rfl, rfl⟩
  | cons v vs ih =>
    rw [List.mapM_cons] at h
    obtain ⟨e, r1, b1, he, h⟩ := pass_bind_ok h
    obtain ⟨es', r2, b2, hes, h⟩ := pass_bind_ok h
    obtain ⟨rfl, rfl, rfl⟩ := pass_pure_ok h
    obtain ⟨rfl, rfl, rfl⟩ := expr_ok he
    obtain ⟨rfl, rfl, rfl⟩ := ih hes
    exact ⟨rfl, rfl, rfl⟩

/-- A block and one side of the merge that follows it, in a scope of their own. -/
theorem scope_copy {ss ss' : List Stmt}
    (ih : ∀ {r r' : Renaming} {b b' : Builder}, pass.stmts ss r b = .ok ((), r') b' →
      ∃ out, Stmt.blockCopy ss r out r' ∧ Renews (Stmt.blockBinds ss) (Stmt.blockBinds out) out r r' b b')
    (h : PassM.nested (do pass.stmts ss; pass.side m pick) r b = .ok ((ss', es), r') b') :
    Stmt.blockCopy ss r ss' r' ∧ es = m.values.map (fun p => r'.subst (pick p)) ∧
      Renews (Stmt.blockBinds ss) (Stmt.blockBinds ss') [] r r' b b' := by
  obtain ⟨b1, hin, rfl, rfl⟩ := pass_nested_ok h
  obtain ⟨_, r1, b2, hss, hside⟩ := pass_bind_ok hin
  obtain ⟨rfl, rfl, rfl⟩ := side_ok hside
  obtain ⟨out, hc, hnew⟩ := ih hss
  obtain ⟨rfl, hnew⟩ := hnew.nested
  exact ⟨hc, rfl, hnew⟩

mutual

/-- What the copying pass makes of a statement. -/
theorem stmt_copy : ∀ {s s' : Stmt} {r r' : Renaming} {b b' : Builder}, pass.stmt s r b = .ok (s', r') b' →
    s.Copy r s' r' ∧ Renews s.binds s'.binds [] r r' b b'
  | .assign target value, s', r, r', b, b', h => by
    rw [Pass.stmt] at h
    obtain ⟨v, r1, b1, hv, h⟩ := pass_bind_ok h
    cases hv
    obtain ⟨t, r2, b2, ht, h⟩ := pass_bind_ok h
    obtain ⟨rfl, rfl, rfl⟩ := pass_pure_ok h
    cases target with
    | var x u =>
      obtain ⟨y, r3, b3, hy, ht⟩ := pass_bind_ok ht
      obtain ⟨rfl, rfl, rfl⟩ := pass_pure_ok ht
      obtain ⟨u', -, rfl, hnew⟩ := binding_ok hy
      exact ⟨⟨y, u', rfl, rfl⟩, hnew⟩
    | index a i u =>
      cases ht
      exact ⟨⟨rfl, rfl⟩, .refl _ _⟩
    | _ =>
      cases ht
      rw [Stmt.binds_assign rfl, Stmt.binds_assign (subst_isTarget r rfl)]
      exact ⟨⟨rfl, rfl⟩, .refl _ _⟩
  | .ret value, s', r, r', b, b', h => by
    rw [Pass.stmt] at h
    obtain ⟨v, r1, b1, hv, h⟩ := pass_bind_ok h
    cases hv
    obtain ⟨rfl, rfl, rfl⟩ := pass_pure_ok h
    exact ⟨⟨rfl, rfl⟩, .refl _ _⟩
  | .ite c yes no m, s', r, r', b, b', h => by
    rw [Pass.stmt] at h
    obtain ⟨c', r1, b1, hc, h⟩ := pass_bind_ok h
    cases hc
    obtain ⟨⟨yes', lefts⟩, r1, b1, hyes, h⟩ := pass_bind_ok h
    obtain ⟨⟨no', rights⟩, r2, b2, hno, h⟩ := pass_bind_ok h
    obtain ⟨ys, r3, b3, hys, h⟩ := pass_bind_ok h
    obtain ⟨rfl, rfl, rfl⟩ := pass_pure_ok h
    obtain ⟨hcy, rfl, hy⟩ := scope_copy (fun h => stmts_copy h) hyes
    obtain ⟨hcn, rfl, hn⟩ := scope_copy (fun h => stmts_copy h) hno
    obtain ⟨ht, hm⟩ := bindings_ok m.keys_nodup hys
    have hk := Merge.keys_copy_perm ht.length ht.nodup r1 r2
    exact ⟨⟨_, _, _, _, ys, hcy, hcn, ht, rfl⟩, ((hy.append hn).append hm).perm (.refl _) (hk.append_left _).symm⟩
  | .whileLoop c body m, s', r, r', b, b', h => by
    rw [Pass.stmt] at h
    obtain ⟨entries, r1, b1, hentries, h⟩ := pass_bind_ok h
    obtain ⟨ys, r2, b2, hys, h⟩ := pass_bind_ok h
    obtain ⟨c', r3, b3, hc, h⟩ := pass_bind_ok h
    obtain ⟨⟨body', backs⟩, r4, b4, hbody, h⟩ := pass_bind_ok h
    obtain ⟨rfl, rfl, rfl⟩ := pass_pure_ok h
    obtain ⟨rfl, rfl, rfl⟩ := side_ok hentries
    obtain ⟨rfl, rfl, rfl⟩ := expr_ok hc
    obtain ⟨ht, hm⟩ := bindings_ok m.keys_nodup hys
    obtain ⟨hcb, rfl, hb⟩ := scope_copy (fun h => stmts_copy h) hbody
    have hk := Merge.keys_copy_perm ht.length ht.nodup r1 r4
    exact ⟨⟨ys, _, _, ht, hcb, rfl⟩, (hm.append hb).perm (.refl _) (hk.append_right _).symm⟩
  | .forLoop c body m, s', r, r', b, b', h => by
    rw [Pass.stmt] at h
    obtain ⟨start, r1, b1, hstart, h⟩ := pass_bind_ok h
    obtain ⟨stop, r2, b2, hstop, h⟩ := pass_bind_ok h
    obtain ⟨step, r3, b3, hstep, h⟩ := pass_bind_ok h
    obtain ⟨entries, r4, b4, hentries, h⟩ := pass_bind_ok h
    obtain ⟨ys, r5, b5, hys, h⟩ := pass_bind_ok h
    obtain ⟨y, r6, b6, hy, h⟩ := pass_bind_ok h
    obtain ⟨⟨body', backs⟩, r7, b7, hbody, h⟩ := pass_bind_ok h
    obtain ⟨rfl, rfl, rfl⟩ := pass_pure_ok h
    obtain ⟨rfl, rfl, rfl⟩ := expr_ok hstart
    obtain ⟨rfl, rfl, rfl⟩ := expr_ok hstop
    obtain ⟨rfl, rfl, rfl⟩ := expr_ok hstep
    obtain ⟨rfl, rfl, rfl⟩ := side_ok hentries
    obtain ⟨ht, hm⟩ := bindings_ok m.keys_nodup hys
    obtain ⟨u, -, rfl, hv⟩ := binding_ok hy
    obtain ⟨hcb, rfl, hb⟩ := scope_copy (fun h => stmts_copy h) hbody
    have hk := Merge.keys_copy_perm ht.length ht.nodup r4 r7
    refine ⟨⟨ys, _, y, u, _, ht, hcb, rfl⟩, ((hm.append hv).append hb).perm ?_ ?_⟩
    · exact List.perm_append_comm.append_right _
    · exact (List.perm_append_comm.append_right _).trans ((hk.append_right _).cons y).symm

/-- What the copying pass emits is a copy. -/
theorem stmts_copy : ∀ {ss : List Stmt} {r r' : Renaming} {b b' : Builder}, pass.stmts ss r b = .ok ((), r') b' →
    ∃ out, Stmt.blockCopy ss r out r' ∧ Renews (Stmt.blockBinds ss) (Stmt.blockBinds out) out r r' b b'
  | [], r, r', b, b', h => by
    cases h
    exact ⟨[], ⟨rfl, rfl⟩, .refl r b⟩
  | s :: ss, r, r', b, b', h => by
    rw [Pass.stmts] at h
    obtain ⟨t, r1, b1, hs, h⟩ := pass_bind_ok h
    obtain ⟨_, r2, b2, he, h⟩ := pass_bind_ok h
    obtain ⟨hemit, rfl⟩ := pass_lift_ok he
    obtain ⟨hcs, hone⟩ := stmt_copy hs
    obtain ⟨ts, hct, hrest⟩ := stmts_copy h
    have hemitted : Renews s.binds t.binds [t] r r1 b b2 := by
      cases hemit
      have hblock : b1.block ++ [t] = b.block ++ [t] := by rw [hone.block, List.append_nil]
      exact { hone with block := hblock }
    exact ⟨t :: ts, ⟨t, _, ts, hcs, hct, rfl⟩, hemitted.append hrest⟩

end

/-- A block is copied into a scope of its own. -/
theorem block_copy {ss out : Block} (h : pass.block ss r b = .ok (out, r') b') :
    Stmt.blockCopy ss r out r' ∧ Renews (Stmt.blockBinds ss) (Stmt.blockBinds out) [] r r' b b' := by
  obtain ⟨⟨out', u⟩, r1, b1, hn, h⟩ := pass_bind_ok h
  obtain ⟨rfl, rfl, rfl⟩ := pass_pure_ok h
  obtain ⟨b2, hss, rfl, rfl⟩ := pass_nested_ok hn
  obtain ⟨out, hc, hnew⟩ := stmts_copy hss
  obtain ⟨rfl, hnew⟩ := hnew.nested
  exact ⟨hc, hnew⟩

end Renaming

end ArrayIR
