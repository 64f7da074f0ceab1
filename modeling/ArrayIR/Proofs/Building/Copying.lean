/-
  ArrayIR.Proofs.Building.Copying — copies of well-formed code are well-formed.

  A pass appends code, and holds on to code that it will put inside a statement before
  that is appended. `Prepares` counts both: the names that have been taken, what the
  code defines, and when the checks of its statements pass. Where one step follows
  another the numbers of names keep what they define apart.

  The copying pass never fails on code that passes the checks and uses names at their
  declared types (`BlockReady`), and neither does a check of the copy
  (`Renaming.stmts_prepare`). The arithmetic of scalars is always there to be emitted
  (`Build.prim_prepares`).
-/

import ArrayIR.Proofs.Building.Neat
import ArrayIR.Proofs.Integers

namespace ArrayIR

/-! ## Code that is ready to be copied -/

variable {x : VarName} {s : Stmt} {e : Expr} {m : Merge}

namespace Stmt

/-- A name that stands as an expression of its own has its declared type. -/
def Typed (env : TypeEnv) (s : Stmt) : Prop := ∀ x t, .var x t ∈ s.exprs → env.get? x = some t

/-- The statement passes the check by itself, and uses names at their types. -/
def Ready (env : TypeEnv) (s : Stmt) : Prop := s.Sound env ∧ s.Typed env

def BlockReady (env : TypeEnv) (ss : List Stmt) : Prop := ∀ p ∈ blockParts ss, p.Ready env

variable {env env' : TypeEnv} {ss ts : List Stmt}

theorem blockSound_append : BlockSound env (ss ++ ts) ↔ BlockSound env ss ∧ BlockSound env ts := by
  rw [BlockSound, blockParts_append, List.forall_mem_append]
  rfl

theorem blockParts_singleton (s : Stmt) : blockParts [s] = s.parts := by
  rw [blockParts, blockParts, List.append_nil]

/-- Only the declarations of the names that the code binds matter. -/
theorem blockSound_congr (henv : ∀ x ∈ blockBinds ss, env'.get? x = env.get? x) :
    BlockSound env' ss ↔ BlockSound env ss := by
  refine forall₂_congr fun s hs => and_congr_left fun _ => forall₂_congr fun d hd => ?_
  rw [Definition.Declared, henv d.name (mem_blockBinds hs hd)]
  rfl

theorem BlockSound.declared (h : BlockSound env ss) (hx : x ∈ blockBinds ss) : ∃ t, env.get? x = some t := by
  obtain ⟨d, hd, rfl⟩ := List.mem_map.mp ((blockParts_names ss).mem_iff.mpr hx)
  obtain ⟨s, hs, hd⟩ := List.mem_flatMap.mp hd
  obtain ⟨t, ht, -⟩ := (h s hs).1 d hd
  exact ⟨t, ht⟩

theorem Ready.mono (h : s.Ready env) (henv : ∀ x t, env.get? x = some t → env'.get? x = some t) : s.Ready env' := by
  obtain ⟨⟨hdefs, hshape⟩, htyped⟩ := h
  refine ⟨⟨fun d hd => ?_, hshape⟩, fun x t hx => henv x t (htyped x t hx)⟩
  obtain ⟨t, ht, htys⟩ := hdefs d hd
  exact ⟨t, henv _ t ht, htys⟩

theorem BlockReady.sound (h : BlockReady env ss) : BlockSound env ss := fun p hp => (h p hp).1

theorem exprs_subset_subterms (he : e ∈ s.exprs) : e ∈ s.subterms := by
  have hself := e.self_mem_subterms
  cases s <;> simp only [exprs, subterms, List.mem_append, List.mem_cons, List.not_mem_nil,
    List.mem_flatMap] at he ⊢ <;> grind

mutual

theorem mem_subterms_of_part : ∀ {s p : Stmt}, p ∈ s.parts → ∀ e ∈ p.exprs, e ∈ s.subterms
  | assign target value, p, hp, e, he | ret value, p, hp, e, he => by
    cases List.mem_singleton.mp hp
    exact exprs_subset_subterms he
  | ite cond yes no m, p, hp, e, he => by
    rw [parts, List.mem_cons, List.mem_append] at hp
    rcases hp with rfl | hp | hp
    · exact exprs_subset_subterms he
    · exact List.mem_append_left _ (List.mem_append_right _ (mem_blockSubterms_of_part hp e he))
    · exact List.mem_append_right _ (mem_blockSubterms_of_part hp e he)
  | whileLoop cond body m, p, hp, e, he | forLoop c body m, p, hp, e, he => by
    rw [parts, List.mem_cons] at hp
    rcases hp with rfl | hp
    · exact exprs_subset_subterms he
    · exact List.mem_append_right _ (mem_blockSubterms_of_part hp e he)

theorem mem_blockSubterms_of_part : ∀ {ss : List Stmt} {p : Stmt}, p ∈ blockParts ss →
    ∀ e ∈ p.exprs, e ∈ blockSubterms ss
  | [], _, hp, _, _ => absurd hp List.not_mem_nil
  | s :: ss, p, hp, e, he => by
    rcases List.mem_append.mp hp with hp | hp
    · exact List.mem_append_left _ (mem_subterms_of_part hp e he)
    · exact List.mem_append_right _ (mem_blockSubterms_of_part hp e he)

end

/-- Code that passes the checks is ready if every name is used at its type. -/
theorem BlockSound.ready (h : BlockSound env ss) (htyped : ∀ x t, .var x t ∈ blockSubterms ss → env.get? x = some t) :
    BlockReady env ss := fun p hp =>
  ⟨h p hp, fun x t hx => htyped x t (mem_blockSubterms_of_part hp _ hx)⟩

/-- The statement without its blocks. -/
def shell : Stmt → Stmt
  | assign target value => assign target value
  | ret value => ret value
  | ite cond _ _ m => ite cond [] [] m
  | whileLoop cond _ m => whileLoop cond [] m
  | forLoop c _ m => forLoop c [] m

theorem mem_parts {p : Stmt} : p ∈ s.parts ↔ p = s ∨ p ∈ blockParts s.blocks.flatten := by
  cases s <;> simp [parts, blocks, blockParts, blockParts_append]

theorem sound_shell (s : Stmt) : s.shell.Sound env ↔ s.Sound env := by cases s <;> exact Iff.rfl

theorem parts_shell (s : Stmt) : s.shell.parts = [s.shell] := by cases s <;> rfl

theorem blockSound_shell (s : Stmt) : BlockSound env [s] ↔ BlockSound env (s.shell :: s.blocks.flatten) := by
  cases s <;> simp [BlockSound, blockParts, parts, shell, blocks, blockParts_append, Sound, definitions, Shaped]

theorem blockBinds_shell (s : Stmt) : (blockBinds [s]).Perm (blockBinds (s.shell :: s.blocks.flatten)) := by
  cases s with
  | ite cond yes no m =>
    simp only [blockBinds, binds, shell, blocks, List.flatten_cons, List.flatten_nil, List.append_nil, List.nil_append,
      blockBinds_append]
    exact List.perm_append_comm
  | assign target value => exact .refl _
  | ret value => exact .refl _
  | whileLoop cond body m => simp [blockBinds, binds, shell, blocks]
  | forLoop c body m => simp [blockBinds, binds, shell, blocks]

/-- What the check asks of a counted loop: the type of its counter, integer bounds, and the declarations of its
merge. -/
theorem blockSound_for {c : Counter} : BlockSound env [forLoop c [] m] ↔
    env.get? c.var = some c.start.ty ∧ (∀ e ∈ [c.start, c.stop, c.step], e.ty = .scalar .i32 ∨ e.ty = .i64) ∧
      ∀ d ∈ m.definitions, d.Declared env := by
  rw [BlockSound, blockParts, parts, blockParts, List.append_nil, List.forall_mem_singleton, Sound, definitions,
    List.forall_mem_cons, Shaped, and_assoc]
  refine and_congr ?_ and_comm
  simp [Definition.Declared]

theorem blockBinds_perm (h : ss.Perm ts) : (blockBinds ss).Perm (blockBinds ts) := by
  have heq : ∀ ss : List Stmt, blockBinds ss = ss.flatMap binds := by
    intro ss
    induction ss with
    | nil => rfl
    | cons s ss ih => rw [blockBinds, ih, List.flatMap_cons]
  rw [heq, heq]
  exact h.flatMap_right _

theorem blockSound_iff : BlockSound env ss ↔ ∀ s ∈ ss, ∀ p ∈ s.parts, p.Sound env := by
  induction ss with
  | nil => simp [BlockSound, blockParts]
  | cons s ss ih => rw [BlockSound, blockParts, List.forall_mem_append, List.forall_mem_cons, ← ih, BlockSound]

theorem blockSound_perm (h : ss.Perm ts) : BlockSound env ss ↔ BlockSound env ts := by
  rw [blockSound_iff, blockSound_iff]
  exact forall_congr' fun s => by rw [h.mem_iff]

end Stmt

/-! ## What has been prepared -/

/-- From the one moment to the other names `N` have been taken and declared, and `ahead` has been appended. It
and `out`, which is still to be appended, define names among them and among the names `H` declared before;
their statements pass the check just if `W` holds. -/
structure Prepares (H N : List VarName) (W : Prop) (ahead out : Block) (b b' : Builder) : Prop
    extends Emits N ahead b b', Names H N (Stmt.blockBinds (ahead ++ out)) b.session.nextName b'.session.nextName where
  sound : Stmt.BlockSound b'.env (ahead ++ out) ↔ W

/-- What the declarations say still holds, and their names are not taken again. -/
def Builder.Continues (b : Builder) (env : TypeEnv) : Prop :=
    ∀ x t, env.get? x = some t → b.env.get? x = some t ∧ b.Old x

namespace Prepares

variable {H H' N N' : List VarName} {W W' : Prop} {ahead ahead' out out' : Block} {b b1 b2 : Builder}

theorem env_of_old (h : Prepares H N W ahead out b b1) (hx : b.Old x) : b1.env.get? x = b.env.get? x :=
  h.env x (h.taken.not_mem_of_older hx)

theorem old (h : Prepares H N W ahead out b b1) (hx : b.Old x) : b1.Old x := hx.mono h.next

theorem continues (h : Prepares H N W ahead out b b1) {env : TypeEnv} (hb : b.Continues env) : b1.Continues env := by
  intro x t hx
  obtain ⟨ht, hold⟩ := hb x t hx
  exact ⟨(h.env_of_old hold).trans ht, h.old hold⟩

/-- Code over names that are declared already. -/
theorem held (hnd : (Stmt.blockBinds out).Nodup) (hsound : Stmt.BlockSound b.env out ↔ W) :
    Prepares (Stmt.blockBinds out) [] W [] out b b where
  toEmits := .refl b
  taken := .nil _ _
  nodup := hnd
  bound _ hx := .inl hx
  sound := hsound

/-- Code over names that have just been taken. -/
theorem fresh (h : Emits N [] b b1) (hN : Taken N b.session.nextName b1.session.nextName)
    (hbinds : (Stmt.blockBinds out).Perm N) (hsound : Stmt.BlockSound b1.env out) : Prepares [] N True [] out b b1 where
  toEmits := h
  taken := hN
  nodup := hbinds.nodup_iff.mpr hN.nodup
  bound _ hx := .inr (hbinds.mem_iff.mp hx)
  sound := iff_true_intro hsound

theorem ofWrites (h : Writes H N out b b1) : Prepares H N True out [] b b1 where
  toEmits := h.toEmits
  toNames := (List.append_nil out).symm ▸ h.toNames
  sound := iff_true_intro ((List.append_nil out).symm ▸ h.neat.sound)

theorem weaken (h : Prepares H N W ahead out b b1) (hH : ∀ x ∈ H, x ∈ H') (hW : W ↔ W') :
    Prepares H' N W' ahead out b b1 :=
  { h with bound := fun x hx => (h.bound x hx).imp_left (hH x), sound := h.sound.trans hW }

/-- The code is given up, and only the names have been taken. -/
theorem discard (h : Prepares H N W [] out b b1) : Prepares [] N True [] [] b b1 :=
    .ofWrites (.silent h.toEmits h.taken)

/-- Only what the code defines and what its checks ask for matters. -/
theorem replace (h : Prepares H N W ahead out b b1) (hbinds : (Stmt.blockBinds out').Perm (Stmt.blockBinds out))
    (hsound : Stmt.BlockSound b1.env out' ↔ Stmt.BlockSound b1.env out) : Prepares H N W ahead out' b b1 := by
  have hall : (Stmt.blockBinds (ahead ++ out')).Perm (Stmt.blockBinds (ahead ++ out)) := by
    rw [Stmt.blockBinds_append, Stmt.blockBinds_append]
    exact hbinds.append_left _
  refine { toEmits := h.toEmits, taken := h.taken, nodup := hall.nodup_iff.mpr h.nodup, bound := ?_, sound := ?_ }
  · exact fun x hx => h.bound x (hall.mem_iff.mp hx)
  · rw [← h.sound, Stmt.blockSound_append, Stmt.blockSound_append, hsound]

/-- Code is put inside the statement that it has been prepared for. -/
theorem enclose (h : Prepares H N W ahead out b b1) (hout : out.Perm (s.shell :: s.blocks.flatten)) :
    Prepares H N W ahead [s] b b1 :=
  h.replace ((Stmt.blockBinds_shell s).trans (Stmt.blockBinds_perm hout).symm)
    ((Stmt.blockSound_shell s).trans (Stmt.blockSound_perm hout).symm)

theorem append (h : Prepares H N W ahead out b b1) (h' : Prepares H' N' W' ahead' out' b1 b2) (hH : ∀ x ∈ H, b.Old x)
    (hH' : ∀ x ∈ H', b.Old x) (hd : ∀ x ∈ H, x ∉ H') :
    Prepares (H ++ H') (N ++ N') (W ∧ W') (ahead ++ ahead') (out ++ out') b b2 := by
  have hnames := h.toNames.append h'.toNames h.next h'.next hH hH' hd
  have hkept := h.toNames.apart h'.taken h.next hH
  have hperm : (Stmt.blockBinds ((ahead ++ ahead') ++ (out ++ out'))).Perm
      (Stmt.blockBinds (ahead ++ out) ++ Stmt.blockBinds (ahead' ++ out')) := by
    simp only [Stmt.blockBinds_append, List.append_assoc]
    refine .append_left _ ?_
    rw [← List.append_assoc, ← List.append_assoc]
    exact .append_right _ List.perm_append_comm
  refine { toEmits := h.toEmits.append h'.toEmits, taken := hnames.taken, nodup := hperm.nodup_iff.mpr hnames.nodup,
           bound := fun x hx => hnames.bound x (hperm.mem_iff.mp hx), sound := ?_ }
  rw [← h.sound, ← h'.sound, ← Stmt.blockSound_congr fun x hx => h'.env x (hkept x hx)]
  simp only [Stmt.blockSound_append]
  exact and_and_and_comm

/-- Of two steps that hold no names the second may follow the first at once. -/
theorem andThen (h : Prepares [] N True ahead out b b1) (h' : Prepares [] N' True ahead' out' b1 b2) :
    Prepares [] (N ++ N') True (ahead ++ ahead') (out ++ out') b b2 := by
  have hboth := h.append h' (by simp) (by simp) (by simp)
  rwa [and_self] at hboth

/-- What was held back is appended. -/
theorem emit (h : Prepares H N W ahead out b b1) :
    Prepares H N W (ahead ++ out) [] b { b1 with block := b1.block ++ out } where
  block := by rw [h.block, List.append_assoc]
  env := h.env
  session := h.session
  next := h.next
  toNames := (List.append_nil (ahead ++ out)).symm ▸ h.toNames
  sound := (List.append_nil (ahead ++ out)).symm ▸ h.sound

/-- What is appended in a scope of its own is held back in the enclosing one. -/
theorem nested (h : Prepares H N W ahead [] { b with block := [] } b1) :
    b1.block = ahead ∧ Prepares H N W [] ahead b { b1 with block := b.block } := by
  refine ⟨h.block, { toEmits := h.toEmits.nested.2, toNames := ?_, sound := ?_ }⟩
  · exact List.append_nil ahead ▸ h.toNames
  · exact List.append_nil ahead ▸ h.sound

end Prepares

/-! ## Arithmetic -/

namespace Build

theorem cast_total {s : ScalarTy} (h : e.ty = .scalar s) (t : ScalarTy) (b : Builder) :
    ∃ e' b', cast e t b = .ok e' b' := by
  have htemp : ∃ e' b', temp (.cast e (.scalar t)) "cast" b = .ok e' b' := ⟨_, _, rfl⟩
  unfold cast
  rw [h]
  by_cases hst : s = t
  · simp only [Ty.scalar?, if_pos hst]
    exact ⟨_, _, rfl⟩
  · simp only [Ty.scalar?, if_neg hst]
    split
    · exact ⟨_, _, rfl⟩
    · exact ⟨_, _, rfl⟩
    · exact htemp

theorem castAll_total {ps : List (Expr × ScalarTy)} (h : ∀ p ∈ ps, ∃ s, p.1.ty = .scalar s) (b : Builder) :
    ∃ es b', castAll ps b = .ok es b' := by
  induction ps generalizing b with
  | nil => exact ⟨[], b, rfl⟩
  | cons p ps ih =>
    obtain ⟨⟨s, hs⟩, h⟩ := List.forall_mem_cons.mp h
    obtain ⟨e, b1, he⟩ := cast_total hs p.2 b
    obtain ⟨es, b2, hes⟩ := ih h b1
    exact ⟨e :: es, b2, (state_bind_of_ok he).trans (state_bind_of_ok hes)⟩

theorem primOf_total (p : Prim) {t : ScalarTy} (ht : t.isInt = true) (name : String) (args : List Expr) (b : Builder) :
    ∃ e b', primOf p t name args b = .ok e b' := by
  unfold primOf
  cases folded? p args with
  | none => exact ⟨_, _, rfl⟩
  | some i => exact ⟨_, _, congrFun (literal_of_isInt ht i) b⟩

/-- A primitive of integers is emitted whatever their widths are. -/
theorem prim_prepares {p : Prim} (hp : p.kind = .arith) {x y : Expr} {s t : ScalarTy}
    (hx : x.ty = .scalar s ∧ s.isInt = true) (hy : y.ty = .scalar t ∧ t.isInt = true) (name : String) (b : Builder) :
    ∃ e b' N out, prim p [x, y] name b = .ok e b' ∧
      (e.ty = .scalar (p.resultTy (p.operandTys [s, t])) ∧ (p.resultTy (p.operandTys [s, t])).isInt = true) ∧
      Prepares [] N True out [] b b' := by
  obtain ⟨hx, hs⟩ := hx
  obtain ⟨hy, ht⟩ := hy
  have hint : (p.resultTy (p.operandTys [s, t])).isInt = true := by
    unfold Prim.resultTy Prim.operandTys Prim.operandTy
    rw [hp]
    cases s <;> cases t <;> first | rfl | exact absurd hs (by decide) | exact absurd ht (by decide)
  have hcast : ∀ q ∈ [x, y].zip (p.operandTys [s, t]), ∃ u, q.1.ty = .scalar u := by
    intro q hq
    have hmem := (List.of_mem_zip hq).1
    simp only [List.mem_cons, List.not_mem_nil, or_false] at hmem
    rcases hmem with h | h
    · exact ⟨s, h ▸ hx⟩
    · exact ⟨t, h ▸ hy⟩
  obtain ⟨es, b1, hes⟩ := castAll_total hcast b
  obtain ⟨e, b2, he⟩ := primOf_total p hint name es b1
  have hrun : prim p [x, y] name b = .ok e b2 := by
    rw [prim_eq (.cons hx (.cons hy .nil)), state_bind_of_ok hes, he]
  have htidy := Tidy.prim [x, y] name p b
  rw [hrun] at htidy
  obtain ⟨N, out, hwrites⟩ := htidy
  exact ⟨e, b2, N, out, hrun, ⟨(primOf_ok he).1, hint⟩, .ofWrites hwrites⟩

end Build

/-! ## Copies -/

namespace Renaming

variable {r r' : Renaming} {b b' : Builder}

/-- The expressions of a statement that is ready keep their types. -/
theorem Typed.subst_ready (hr : r.Typed) (hs : s.Ready r.source) (he : e ∈ s.exprs) : (r.subst e).ty = e.ty :=
  hr.subst_ty fun x t hx => hs.2 x t (hx ▸ he)

/-- A name that is declared gets a name of the same type. -/
theorem binding_total {t : Ty} (h : r.source.get? x = some t) (b : Builder) :
    ∃ y b', binding x r b = .ok (y, r.bind x (.var y t)) b' ∧ b'.env.get? y = some t ∧
      Renews [x] [y] [] r (r.bind x (.var y t)) b b' := by
  let y := numbered x b.session.nextName
  have hrun : binding x r b = .ok (y, r.bind x (.var y t))
      { b with session := (b.session.fresh x).2, env := b.env.insert y t } := by
    have hget : (get : PassM Renaming Renaming) r b = .ok (r, r) b := rfl
    refine (pass_bind_of_ok hget).trans ?_
    rw [h]
    rfl
  obtain ⟨-, -, -, hnew⟩ := binding_ok hrun
  exact ⟨y, _, hrun, NameMap.get?_insert_self b.env y t, hnew⟩

/-- Names and those that they get are declared with the same types. -/
def SameTypes (source env : TypeEnv) (xs ys : List VarName) : Prop :=
  ∀ p ∈ xs.zip ys, ∃ t, source.get? p.1 = some t ∧ env.get? p.2 = some t

variable {xs ys : List VarName}

theorem SameTypes.congr {source env env' : TypeEnv} (h : SameTypes source env xs ys)
    (henv : ∀ y ∈ ys, env'.get? y = env.get? y) : SameTypes source env' xs ys := by
  intro p hp
  rw [henv p.2 (List.of_mem_zip hp).2]
  exact h p hp

theorem Renews.sameTypes {out : Block} (h : Renews xs ys out r r' b b') (ht : Takes xs ys r r') :
    SameTypes r.source b'.env xs ys := by
  intro p hp
  obtain ⟨u, hu⟩ := ht.renames p hp
  obtain ⟨y, -, t, hsource, hr, henv⟩ := h.given p.1 (List.of_mem_zip hp).1
  cases hu.symm.trans hr
  exact ⟨_, hsource, henv⟩

theorem bindings_total (h : ∀ x ∈ xs, ∃ t, r.source.get? x = some t) (b : Builder) :
    ∃ ys r' b', xs.mapM binding r b = .ok (ys, r') b' := by
  induction xs generalizing r b with
  | nil => exact ⟨[], r, b, rfl⟩
  | cons x xs ih =>
    obtain ⟨⟨t, ht⟩, h⟩ := List.forall_mem_cons.mp h
    obtain ⟨y, b1, hy, -⟩ := binding_total ht b
    obtain ⟨ys, r', b', hys⟩ := ih (r := r.bind x (.var y t)) h b1
    refine ⟨y :: ys, r', b', ?_⟩
    rw [List.mapM_cons]
    exact (pass_bind_of_ok hy).trans (pass_bind_of_ok hys)

/-- A copy of a merge defines the new names, with the types of the old ones. -/
theorem copy_declared {r1 r2 : Renaming} {source env : TypeEnv} (hlen : ys.length = m.keys.length) (hnd : ys.Nodup)
    (hnames : SameTypes source env m.keys ys) (hm : ∀ d ∈ m.definitions, d.Declared source)
    (h1 : ∀ p ∈ m.values, (r1.subst p.1).ty = p.1.ty)
    (h2 : ∀ p ∈ m.values, (r2.subst p.2).ty = p.2.ty) : ∀ d ∈ (m.copy ys r1 r2).definitions, d.Declared env := by
  have hentries := Merge.copyEntries_aligned (R := fun x y => ∃ t, source.get? x = some t ∧
    env.get? y = some t) hlen hnames r1 r2
  intro d hd
  obtain ⟨⟨y, left, right⟩, hq, rfl⟩ := List.mem_map.mp hd
  obtain ⟨p, hp, ⟨t, ht, ht'⟩, hsides⟩ := forall₂_mem_left hentries.flip
    ((Merge.copy_perm hlen hnd r1 r2).mem_iff.mp hq)
  obtain ⟨u, hu, htys⟩ := hm ⟨p.1, [p.2.1.ty, p.2.2.ty]⟩ (List.mem_map_of_mem hp)
  have hp : p.2 ∈ m.values := List.mem_map_of_mem hp
  obtain rfl : t = u := Option.some.inj (ht.symm.trans hu)
  cases hsides
  rw [← h1 p.2 hp, ← h2 p.2 hp] at htys
  exact ⟨t, ht', htys⟩

theorem side_eq (m : Merge) (pick : Expr × Expr → Expr) (r : Renaming) (b : Builder) :
    pass.side m pick r b = .ok (m.values.map fun p => r.subst (pick p), r) b := by
  unfold Pass.side
  induction m.values with
  | nil => rfl
  | cons v vs ih =>
    rw [List.mapM_cons]
    exact (pass_bind_of_ok (a := r.subst (pick v)) rfl).trans (pass_bind_of_ok ih)

/-- A block and one side of the merge that follows it, in a scope of their own. -/
theorem scope_prepares {ss : List Stmt} (pick : Expr × Expr → Expr)
    (ih : ∃ out r' b' N, pass.stmts ss r { b with block := [] } = .ok ((), r') b' ∧ Extends r r' ∧
      Prepares [] N True out [] { b with block := [] } b') :
    ∃ out r' b' N, PassM.nested (do pass.stmts ss; pass.side m pick) r b =
        .ok ((out, m.values.map fun p => r'.subst (pick p)), r') b' ∧ Extends r r' ∧
          Prepares [] N True [] out b b' := by
  obtain ⟨out, r', b', N, hrun, hext, hprep⟩ := ih
  obtain ⟨rfl, hprep⟩ := hprep.nested
  exact ⟨_, r', _, N, pass_nested_of_ok ((pass_bind_of_ok hrun).trans (side_eq m pick r' b')), hext, hprep⟩

/-- The names of a merge get names of the same types. -/
theorem names_total (hm : ∀ d ∈ m.definitions, d.Declared r.source) (b : Builder) :
    ∃ ys r' b', m.keys.mapM binding r b = .ok (ys, r') b' ∧ Takes m.keys ys r r' ∧ Renews m.keys ys [] r r' b b' := by
  have hkeys : ∀ x ∈ m.keys, ∃ t, r.source.get? x = some t := by
    intro x hx
    rw [← m.map_definitions] at hx
    obtain ⟨d, hd, rfl⟩ := List.mem_map.mp hx
    obtain ⟨t, ht, -⟩ := hm d hd
    exact ⟨t, ht⟩
  obtain ⟨ys, r', b', hrun⟩ := bindings_total hkeys b
  exact ⟨ys, r', b', hrun, bindings_ok m.keys_nodup hrun⟩

mutual

/-- A statement that is ready can be copied, and the copy passes the checks. -/
theorem stmt_prepares : ∀ {s : Stmt} {r : Renaming} (b : Builder), (∀ p ∈ s.parts, p.Ready r.source) → r.Typed →
    ∃ s' r' b' N, pass.stmt s r b = .ok (s', r') b' ∧ Extends r r' ∧ Prepares [] N True [] [s'] b b'
  | .assign target value, r, b, hs, hr => by
    have hready := hs _ List.mem_cons_self
    have hvalue := hr.subst_ready hready (List.mem_cons_of_mem _ List.mem_cons_self)
    rcases hready.1.2 with ⟨x, u, rfl⟩ | ⟨a, i, u, rfl⟩
    · obtain ⟨t, ht, htys⟩ := hready.1.1 ⟨x, _⟩ List.mem_cons_self
      obtain ⟨y, b', hrun, hdecl, hnew⟩ := binding_total (x := x) ht b
      refine ⟨.assign (.var y u) (r.subst value), r.bind x (.var y t), b', [y], ?_, .bind ht,
        .fresh hnew.toEmits hnew.taken (.refl _) ?_⟩
      · have htarget : target (.var x u) r b = .ok (.var y u, r.bind x (.var y t)) b' := pass_bind_of_ok hrun
        exact (pass_bind_of_ok rfl).trans (pass_bind_of_ok htarget)
      · intro p hp
        rw [List.mem_singleton.mp hp]
        refine ⟨fun d hd => ?_, .inl ⟨y, u, rfl⟩⟩
        rw [List.mem_singleton.mp hd, hvalue]
        exact ⟨t, hdecl, htys⟩
    · refine ⟨.assign (r.subst (.index a i u)) (r.subst value), r, b, [], rfl, .refl r,
        .fresh (.refl b) (.nil _ _) ?_ ?_⟩
      · exact .refl _
      · intro p hp
        rw [List.mem_singleton.mp hp]
        exact ⟨fun d hd => absurd hd List.not_mem_nil, .inr ⟨_, _, _, rfl⟩⟩
  | .ret value, r, b, hs, hr => by
    refine ⟨.ret (r.subst value), r, b, [], rfl, .refl r, .fresh (.refl b) (.nil _ _) (.refl _) ?_⟩
    intro p hp
    rw [List.mem_singleton.mp hp]
    exact ⟨fun d hd => absurd hd List.not_mem_nil, trivial⟩
  | .ite c yes no m, r, b, hs, hr => by
    rw [Stmt.parts, List.forall_mem_cons, List.forall_mem_append] at hs
    obtain ⟨hready, hyes, hno⟩ := hs
    obtain ⟨yes', r1, b1, N1, hrun1, hext1, hprep1⟩ :=
      scope_prepares (m := m) Prod.fst (stmts_prepare { b with block := [] } hyes hr)
    have hr1 := hext1.typed hr
    have hready1 := hext1.source.symm ▸ hready
    obtain ⟨no', r2, b2, N2, hrun2, hext2, hprep2⟩ :=
      scope_prepares (m := m) Prod.snd (stmts_prepare { b1 with block := [] } (hext1.source.symm ▸ hno) hr1)
    have hr2 := hext2.typed hr1
    have hready2 := hext2.source.symm ▸ hready1
    obtain ⟨ys, r3, b3, hrun3, htakes, hnew⟩ := names_total hready2.1.1 b2
    have hdecl := copy_declared htakes.length htakes.nodup (hnew.sameTypes htakes) hready2.1.1
      (fun p hp => hr1.subst_ready hready1 (List.mem_cons_of_mem _ (Merge.fst_mem_exprs p hp)))
      fun p hp => hr2.subst_ready hready2 (List.mem_cons_of_mem _ (Merge.snd_mem_exprs p hp))
    have hheader : Prepares [] ys True [] [.ite (r.subst c) [] [] (m.copy ys r1 r2)] b2 b3 := by
      refine .fresh hnew.toEmits hnew.taken ?_ fun p hp => ?_
      · simpa [Stmt.blockBinds, Stmt.binds] using Merge.keys_copy_perm htakes.length htakes.nodup r1 r2
      · rw [List.mem_singleton.mp hp]
        exact ⟨hdecl, (hr.subst_ready hready List.mem_cons_self).trans hready.1.2⟩
    refine ⟨.ite (r.subst c) yes' no' (m.copy ys r1 r2), r3, b3, _, ?_, (hext1.trans hext2).trans hnew.toExtends,
      ((hprep1.andThen hprep2).andThen hheader).enclose ?_⟩
    · rw [Pass.stmt]
      exact (pass_bind_of_ok rfl).trans ((pass_bind_of_ok hrun1).trans
        ((pass_bind_of_ok hrun2).trans (pass_bind_of_ok hrun3)))
    · simpa [Stmt.shell, Stmt.blocks] using List.perm_append_singleton _ (yes' ++ no')
  | .whileLoop c body m, r, b, hs, hr => by
    rw [Stmt.parts, List.forall_mem_cons] at hs
    obtain ⟨hready, hbody⟩ := hs
    obtain ⟨ys, r1, b1, hrun1, htakes, hnew⟩ := names_total hready.1.1 b
    have hext1 := hnew.toExtends
    have hr1 := hext1.typed hr
    have hready1 := hext1.source.symm ▸ hready
    obtain ⟨body', r2, b2, N2, hrun2, hext2, hprep2⟩ :=
      scope_prepares (m := m) Prod.snd (stmts_prepare { b1 with block := [] } (hext1.source.symm ▸ hbody) hr1)
    have hr2 := hext2.typed hr1
    have hready2 := hext2.source.symm ▸ hready1
    have hdecl := copy_declared htakes.length htakes.nodup (hnew.sameTypes htakes) hready.1.1
      (fun p hp => hr.subst_ready hready (List.mem_cons_of_mem _ (Merge.fst_mem_exprs p hp)))
      fun p hp => hr2.subst_ready hready2 (List.mem_cons_of_mem _ (Merge.snd_mem_exprs p hp))
    have hheader : Prepares [] ys True [] [.whileLoop (r1.subst c) [] (m.copy ys r r2)] b b1 := by
      refine .fresh hnew.toEmits hnew.taken ?_ fun p hp => ?_
      · simpa [Stmt.blockBinds, Stmt.binds] using Merge.keys_copy_perm htakes.length htakes.nodup r r2
      · rw [List.mem_singleton.mp hp]
        exact ⟨hdecl, (hr1.subst_ready hready1 List.mem_cons_self).trans hready.1.2⟩
    refine ⟨.whileLoop (r1.subst c) body' (m.copy ys r r2), r2, b2, _, ?_, hext1.trans hext2,
      (hheader.andThen hprep2).enclose ?_⟩
    · rw [Pass.stmt]
      exact (pass_bind_of_ok (side_eq m Prod.fst r b)).trans ((pass_bind_of_ok hrun1).trans ((pass_bind_of_ok rfl).trans
        (pass_bind_of_ok hrun2)))
    · simp [Stmt.shell, Stmt.blocks]
  | .forLoop c body m, r, b, hs, hr => by
    rw [Stmt.parts, List.forall_mem_cons] at hs
    obtain ⟨hready, hbody⟩ := hs
    obtain ⟨⟨t, ht, htys⟩, hm⟩ := List.forall_mem_cons.mp hready.1.1
    obtain ⟨ys, r1, b1, hrun1, htakes, hnew1⟩ := names_total hm b
    obtain ⟨y, b2, hrun2, hy, hnew2⟩ := binding_total (x := c.var) (hnew1.source.symm ▸ ht) b1
    have hnew := hnew1.append hnew2
    have hext2 := hnew.toExtends
    obtain ⟨body', r3, b3, N3, hrun3, hext3, hprep3⟩ :=
      scope_prepares (m := m) Prod.snd (stmts_prepare { b2 with block := [] }
        (hext2.source.symm ▸ hbody) (hext2.typed hr))
    have hext := hext2.trans hext3
    have hbound : ∀ e ∈ [c.start, c.stop, c.step], (r.subst e).ty = e.ty := fun e he =>
      hr.subst_ready hready (List.mem_append_left m.exprs he)
    have hside : ∀ e ∈ m.exprs, e ∈ (Stmt.forLoop c body m).exprs :=
      fun e he => List.mem_append_right [c.start, c.stop, c.step] he
    have hsame := (hnew1.sameTypes htakes).congr fun z hz => hnew2.env z (hnew1.taken.disjoint hnew2.taken z hz)
    have hdecl := copy_declared htakes.length htakes.nodup hsame hm
      (fun p hp => hr.subst_ready hready (hside _ (Merge.fst_mem_exprs p hp)))
      fun p hp => (hext.typed hr).subst_ready (hext.source.symm ▸ hready) (hside _ (Merge.snd_mem_exprs p hp))
    have hheader : Prepares [] (ys ++ [y]) True []
        [.forLoop ⟨y, r.subst c.start, r.subst c.stop, r.subst c.step⟩ [] (m.copy ys r r3)] b b2 := by
      refine .fresh hnew.toEmits hnew.taken ?_ ?_
      · have hkeys := Merge.keys_copy_perm htakes.length htakes.nodup r r3
        simpa [Stmt.blockBinds, Stmt.binds] using (hkeys.cons y).trans (List.perm_append_singleton y ys).symm
      · refine Stmt.blockSound_for.mpr ⟨?_, ?_, hdecl⟩
        · rw [hbound _ List.mem_cons_self, hy, htys _ List.mem_cons_self]
        · intro e' (he' : e' ∈ [c.start, c.stop, c.step].map r.subst)
          obtain ⟨e, he, rfl⟩ := List.mem_map.mp he'
          rw [hbound e he]
          exact hready.1.2 e he
    refine ⟨.forLoop ⟨y, r.subst c.start, r.subst c.stop, r.subst c.step⟩ body' (m.copy ys r r3), r3, b3, _, ?_, hext,
      (hheader.andThen hprep3).enclose ?_⟩
    · rw [Pass.stmt]
      exact (pass_bind_of_ok rfl).trans ((pass_bind_of_ok rfl).trans ((pass_bind_of_ok rfl).trans
        ((pass_bind_of_ok (side_eq m Prod.fst r b)).trans ((pass_bind_of_ok hrun1).trans ((pass_bind_of_ok hrun2).trans
          (pass_bind_of_ok hrun3))))))
    · simp [Stmt.shell, Stmt.blocks]

theorem stmts_prepare : ∀ {ss : List Stmt} {r : Renaming} (b : Builder), Stmt.BlockReady r.source ss → r.Typed →
    ∃ out r' b' N, pass.stmts ss r b = .ok ((), r') b' ∧ Extends r r' ∧ Prepares [] N True out [] b b'
  | [], r, b, hss, hr => ⟨[], r, b, [], rfl, .refl r, .ofWrites (.refl b)⟩
  | s :: ss, r, b, hss, hr => by
    rw [Stmt.BlockReady, Stmt.blockParts, List.forall_mem_append] at hss
    obtain ⟨s', r1, b1, N1, hrun1, hext1, hprep1⟩ := stmt_prepares b hss.1 hr
    have hready : Stmt.BlockReady r1.source ss := hext1.source.symm ▸ hss.2
    obtain ⟨out, r2, b2, N2, hrun2, hext2, hprep2⟩ :=
      stmts_prepare { b1 with block := b1.block ++ [s'] } hready (hext1.typed hr)
    refine ⟨s' :: out, r2, b2, N1 ++ N2, ?_, hext1.trans hext2, hprep1.emit.andThen hprep2⟩
    rw [Pass.stmts]
    exact (pass_bind_of_ok hrun1).trans ((pass_bind_of_ok rfl).trans hrun2)

end

/-- A block is copied into a scope of its own. -/
theorem block_prepares {ss : List Stmt} (hss : Stmt.BlockReady r.source ss) (hr : r.Typed) (b : Builder) :
    ∃ out r' b' N, pass.block ss r b = .ok (out, r') b' ∧ Extends r r' ∧ Prepares [] N True [] out b b' := by
  obtain ⟨out, r', b', N, hrun, hext, hprep⟩ := stmts_prepare { b with block := [] } hss hr
  obtain ⟨rfl, hprep⟩ := hprep.nested
  exact ⟨_, r', _, N, pass_bind_of_ok (pass_nested_of_ok hrun), hext, hprep⟩

end Renaming

end ArrayIR
