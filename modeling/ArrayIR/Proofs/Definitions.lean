/-
  ArrayIR.Proofs.Definitions — which functions pass the well-formedness check.

  The check walks through a function and threads the names defined so far. What it
  decides does not depend on that walk: list the statements of the function, at any
  depth (`Func.statements`), and what each of them defines, together with the types
  that the declaration has to agree with (`Func.definitions`). A function passes if no
  name is listed twice, every name is declared as listed, and each statement by itself
  is of the right shape.

  For each function of the check there is one statement of what its success means
  (`define_iff`, …, `block_iff`). In these the names are threaded as in the check, and
  `Fills` splits where one part of the code follows another.
-/

import ArrayIR.Proofs.Scope

namespace ArrayIR

/-! ## What is defined, and where -/

/-- A name that is defined, with the types that its declared type has to be. -/
structure Definition where
  name : VarName
  tys : List Ty

/-- The name is declared, with each of the types. -/
def Definition.Declared (env : TypeEnv) (d : Definition) : Prop := ∃ t, env.get? d.name = some t ∧ ∀ u ∈ d.tys, u = t

/-- A merge defines its names, with the types of both sides. -/
def Merge.definitions (m : Merge) : List Definition := m.toList.map fun (x, l, r) => ⟨x, [l.ty, r.ty]⟩

namespace Stmt

/-- What a statement defines by itself: its blocks are left out. -/
def definitions : Stmt → List Definition
  | assign (.var x t) value => [⟨x, [t, value.ty]⟩]
  | assign _ _ | ret _ => []
  | ite _ _ _ m | whileLoop _ _ m => m.definitions
  | forLoop c _ m => ⟨c.var, [c.start.ty]⟩ :: m.definitions

/-- What a statement has to be like by itself, apart from what it defines. -/
def Shaped : Stmt → Prop
  | assign target _ => (∃ x t, target = .var x t) ∨ ∃ a i t, target = .index a i t
  | ret _ => True
  | ite cond _ _ _ | whileLoop cond _ _ => cond.ty = .bool
  | forLoop c _ _ => ∀ e ∈ [c.start, c.stop, c.step], e.ty = .scalar .i32 ∨ e.ty = .i64

mutual

/-- The statement and those of its blocks, at any depth. -/
def parts : Stmt → List Stmt
  | assign target value => [assign target value]
  | ret value => [ret value]
  | ite cond yes no m => ite cond yes no m :: (blockParts yes ++ blockParts no)
  | whileLoop cond body m => whileLoop cond body m :: blockParts body
  | forLoop c body m => forLoop c body m :: blockParts body

def blockParts : List Stmt → List Stmt
  | [] => []
  | s :: ss => s.parts ++ blockParts ss

end

end Stmt

namespace Func

/-- The statements of a function, at any depth. -/
def statements (f : Func) : List Stmt := Stmt.blockParts f.body

/-- What a function defines: its parameters, and what its statements define. -/
def definitions (f : Func) : List Definition :=
  (f.params.zip f.paramTys).map (fun (x, t) => ⟨x, [t]⟩) ++ f.statements.flatMap Stmt.definitions

end Func

/-! ## Names -/

section Names

/-- The names of the definitions are those that a merge joins. -/
theorem Merge.map_definitions (m : Merge) : m.definitions.map (·.name) = m.keys := by
  simp [definitions, NameMap.keys, NameMap.toList, Function.comp_def]

namespace Stmt

mutual

/-- Apart from the order, the definitions of a statement and its blocks are of the names it binds. -/
theorem parts_names : ∀ s : Stmt, ((s.parts.flatMap definitions).map (·.name)).Perm s.binds
  | assign target value => by cases target <;> exact .refl _
  | ret value => .refl _
  | ite cond yes no m => by
    have hboth := (blockParts_names yes).append (blockParts_names no)
    simp only [parts, List.flatMap_cons, List.flatMap_append, List.map_append, definitions,
      Merge.map_definitions, binds]
    exact List.perm_append_comm.trans (hboth.append_right _)
  | whileLoop cond body m => by
    simp only [parts, List.flatMap_cons, List.map_append, definitions, Merge.map_definitions, binds]
    exact (blockParts_names body).append_left _
  | forLoop c body m => by
    simp only [parts, List.flatMap_cons, List.map_append, definitions, List.map_cons, Merge.map_definitions, binds,
      List.cons_append]
    exact ((blockParts_names body).append_left _).cons _

theorem blockParts_names : ∀ ss : List Stmt, (((blockParts ss).flatMap definitions).map (·.name)).Perm (blockBinds ss)
  | [] => .refl _
  | s :: ss => by
    simp only [blockParts, List.flatMap_append, List.map_append, blockBinds]
    exact (parts_names s).append (blockParts_names ss)

end

theorem blockParts_append (ss ts : List Stmt) : blockParts (ss ++ ts) = blockParts ss ++ blockParts ts := by
  induction ss with
  | nil => rw [List.nil_append, blockParts, List.nil_append]
  | cons s ss ih => rw [List.cons_append, blockParts, blockParts, ih, List.append_assoc]

/-- What the check asks of a statement by itself. -/
def Sound (env : TypeEnv) (s : Stmt) : Prop := (∀ d ∈ s.definitions, d.Declared env) ∧ s.Shaped

/-- What the check asks of the statements of a block, at any depth. -/
def BlockSound (env : TypeEnv) (ss : List Stmt) : Prop := ∀ s ∈ blockParts ss, s.Sound env

end Stmt

/-- So are the definitions of a function, with the names of its parameters. -/
theorem Func.definitions_names (f : Func) : (f.definitions.map (·.name)).Perm (f.inputs ++ Stmt.blockBinds f.body) := by
  have hparams : ((f.params.zip f.paramTys).map fun (x, t) => (⟨x, [t]⟩ : Definition)).map (·.name) = f.inputs := by
    rw [List.map_map]
    rfl
  rw [definitions, List.map_append, hparams]
  exact (Stmt.blockParts_names f.body).append_left _

end Names

/-! ## What the check decides -/

theorem except_bind_iff {ε α β : Type} {x : Except ε α} {f : α → Except ε β} {b : β} :
    (x >>= f) = .ok b ↔ ∃ a, x = .ok a ∧ f a = .ok b := by
  refine ⟨except_bind_ok, ?_⟩
  rintro ⟨a, rfl, h⟩
  exact h

namespace WellFormed

variable {env : TypeEnv} {D D' : Defined} {x : VarName} {t : Ty} {e start : Expr} {m : Merge}

/-- The names `xs` have been defined one after the other, on top of those before, and no name is there twice. -/
def Fills (D : Defined) (xs : List VarName) (D' : Defined) : Prop := D' = xs.reverse ++ D ∧ D'.Nodup

theorem fills_nil (hD : D.Nodup) : Fills D [] D' ↔ D = D' := by
  constructor
  · intro h
    exact h.1.symm
  · rintro rfl
    exact ⟨rfl, hD⟩

theorem fills_append {xs ys : List VarName} : Fills D (xs ++ ys) D' ↔ ∃ D1, Fills D xs D1 ∧ Fills D1 ys D' := by
  constructor
  · rintro ⟨rfl, hnd⟩
    rw [List.reverse_append, List.append_assoc] at hnd ⊢
    exact ⟨xs.reverse ++ D, ⟨rfl, (List.nodup_append.mp hnd).2.1⟩, rfl, hnd⟩
  · rintro ⟨D1, ⟨rfl, -⟩, rfl, hnd⟩
    exact ⟨by simp, hnd⟩

theorem once_iff (hD : D.Nodup) : once D x = .ok D' ↔ Fills D [x] D' := by
  unfold once Fills
  by_cases hx : x ∈ D
  · rw [if_pos hx]
    constructor
    · intro h
      cases h
    · rintro ⟨rfl, hnd⟩
      exact absurd hx (List.nodup_cons.mp hnd).1
  · rw [if_neg hx]
    constructor
    · intro h
      cases h
      exact ⟨rfl, List.nodup_cons.mpr ⟨hx, hD⟩⟩
    · rintro ⟨rfl, -⟩
      rfl

theorem declared_iff : declared env x = .ok t ↔ env.get? x = some t := by
  unfold declared
  cases env.get? x with
  | none => exact ⟨nofun, nofun⟩
  | some u => rw [Except.ok.injEq, Option.some.injEq]

theorem define_iff (hD : D.Nodup) : define env D x t = .ok D' ↔ Fills D [x] D' ∧ env.get? x = some t := by
  rw [define, except_bind_iff]
  simp only [except_bind_iff, once_iff hD, declared_iff]
  constructor
  · rintro ⟨D1, hD1, u, hu, h⟩
    split at h
    · cases h
      rename_i hut
      exact ⟨hD1, hut ▸ hu⟩
    · cases h
  · rintro ⟨hD', ht⟩
    exact ⟨D', hD', t, ht, if_pos rfl⟩

theorem mergeEntries_iff {es : List (VarName × Expr × Expr)} (hD : D.Nodup) :
    mergeEntries env D es = .ok D' ↔
      Fills D (es.map (·.1)) D' ∧ ∀ d ∈ es.map (fun (x, l, r) => (⟨x, [l.ty, r.ty]⟩ : Definition)), d.Declared env := by
  induction es generalizing D with
  | nil =>
    rw [mergeEntries, List.map_nil, fills_nil hD]
    simp
  | cons entry es ih =>
    obtain ⟨x, l, r⟩ := entry
    rw [mergeEntries, except_bind_iff, List.map_cons, List.map_cons, ← List.singleton_append,
      fills_append, List.forall_mem_cons]
    constructor
    · rintro ⟨t, ht, h⟩
      split at h
      · rename_i hsides
        obtain ⟨D1, h1, h⟩ := except_bind_ok h
        have hD1 := (once_iff hD).mp h1
        obtain ⟨hD', hes⟩ := (ih hD1.2).mp h
        refine ⟨⟨D1, hD1, hD'⟩, ⟨t, declared_iff.mp ht, ?_⟩, hes⟩
        simpa using hsides
      · cases h
    · rintro ⟨⟨D1, hD1, hD'⟩, ⟨t, ht, hsides⟩, hes⟩
      have htys : l.ty = t ∧ r.ty = t := by simpa using hsides
      refine ⟨t, declared_iff.mpr ht, ?_⟩
      rw [if_pos htys, except_bind_iff]
      exact ⟨D1, (once_iff hD).mpr hD1, (ih hD1.2).mpr ⟨hD', hes⟩⟩

theorem merge_iff (hD : D.Nodup) : merge env D m = .ok D' ↔ Fills D m.keys D' ∧ ∀ d ∈ m.definitions, d.Declared env :=
  mergeEntries_iff hD

theorem condition_iff : condition e = .ok () ↔ e.ty = .bool := by
  unfold condition
  split <;> simp_all

theorem isInt_iff : t.isInt = true ↔ t = .scalar .i32 ∨ t = .i64 := by
  cases t with
  | scalar elt => cases elt <;> decide
  | _ => simp [Ty.isInt]

theorem bound_iff : bound start e = .ok () ↔ e.ty = .scalar .i32 ∨ e.ty = .i64 := by
  rw [← isInt_iff]
  unfold bound
  split <;> simp_all

theorem bounds_iff {c : Counter} : (∀ e ∈ [c.start, c.stop, c.step], e.ty = .scalar .i32 ∨ e.ty = .i64) ↔
    bound c.start c.start = .ok () ∧ bound c.start c.stop = .ok () ∧ bound c.start c.step = .ok () := by
  simp [bound_iff]

theorem assign_iff {target value : Expr} (hD : D.Nodup) :
    stmt env (.assign target value) D = .ok D' ↔
      Fills D (Stmt.assign target value).binds D' ∧ (Stmt.assign target value).Sound env := by
  cases target with
  | var x t =>
    have hsound : (Stmt.assign (.var x t) value).Sound env ↔ t = value.ty ∧ env.get? x = some value.ty := by
      simp only [Stmt.Sound, Stmt.definitions, Stmt.Shaped, List.forall_mem_singleton,
        Definition.Declared, List.forall_mem_cons]
      constructor
      · rintro ⟨⟨u, hu, rfl, rfl⟩, -⟩
        exact ⟨rfl, hu⟩
      · rintro ⟨rfl, hx⟩
        exact ⟨⟨_, hx, rfl, rfl⟩, .inl ⟨x, _, rfl⟩⟩
    rw [hsound, stmt, Stmt.binds]
    split
    · rename_i ht
      rw [define_iff hD]
      exact and_congr_right fun _ => (and_iff_right ht).symm
    · rename_i ht
      exact ⟨nofun, fun h => absurd h.2.1 ht⟩
  | index a i t =>
    have hsound : (Stmt.assign (.index a i t) value).Sound env :=
      ⟨fun d hd => absurd hd List.not_mem_nil, .inr ⟨a, i, t, rfl⟩⟩
    rw [and_iff_left hsound]
    exact Iff.trans (by rw [stmt, Except.ok.injEq]) (fills_nil hD).symm
  | _ =>
    refine ⟨nofun, fun h => ?_⟩
    rcases h.2.2 with ⟨_, _, h⟩ | ⟨_, _, _, h⟩ <;> cases h

mutual

theorem stmt_iff : ∀ {s : Stmt} {D D' : Defined}, D.Nodup →
    (stmt env s D = .ok D' ↔ Fills D s.binds D' ∧ ∀ p ∈ s.parts, p.Sound env)
  | .assign target value, D, D', hD => by
    rw [assign_iff hD, Stmt.parts, List.forall_mem_singleton]
  | .ret value, D, D', hD => by
    rw [stmt, Stmt.binds, fills_nil hD, Stmt.parts, List.forall_mem_singleton, Except.ok.injEq]
    exact (and_iff_left ⟨fun d hd => absurd hd List.not_mem_nil, trivial⟩).symm
  | .ite cond yes no m, D, D', hD => by
    rw [stmt, Stmt.parts, Stmt.binds, List.forall_mem_cons, List.forall_mem_append, Stmt.Sound,
      Stmt.Shaped, Stmt.definitions]
    simp only [except_bind_iff, fills_append]
    constructor
    · rintro ⟨_, hcond, D1, hyes, D2, hno, hm⟩
      obtain ⟨hD1, hyes⟩ := (block_iff hD).mp hyes
      obtain ⟨hD2, hno⟩ := (block_iff hD1.2).mp hno
      obtain ⟨hD', hm⟩ := (merge_iff hD2.2).mp hm
      exact ⟨⟨D2, ⟨D1, hD1, hD2⟩, hD'⟩, ⟨hm, condition_iff.mp hcond⟩, hyes, hno⟩
    · rintro ⟨⟨D2, ⟨D1, hD1, hD2⟩, hD'⟩, ⟨hm, hcond⟩, hyes, hno⟩
      exact ⟨(), condition_iff.mpr hcond, D1, (block_iff hD).mpr ⟨hD1, hyes⟩, D2, (block_iff hD1.2).mpr ⟨hD2, hno⟩,
        (merge_iff hD2.2).mpr ⟨hD', hm⟩⟩
  | .whileLoop cond body m, D, D', hD => by
    rw [stmt, Stmt.parts, Stmt.binds, List.forall_mem_cons, Stmt.Sound, Stmt.Shaped, Stmt.definitions]
    simp only [except_bind_iff, fills_append]
    constructor
    · rintro ⟨D1, hm, _, hcond, hbody⟩
      obtain ⟨hD1, hm⟩ := (merge_iff hD).mp hm
      obtain ⟨hD', hbody⟩ := (block_iff hD1.2).mp hbody
      exact ⟨⟨D1, hD1, hD'⟩, ⟨hm, condition_iff.mp hcond⟩, hbody⟩
    · rintro ⟨⟨D1, hD1, hD'⟩, ⟨hm, hcond⟩, hbody⟩
      exact ⟨D1, (merge_iff hD).mpr ⟨hD1, hm⟩, (), condition_iff.mpr hcond, (block_iff hD1.2).mpr ⟨hD', hbody⟩⟩
  | .forLoop c body m, D, D', hD => by
    rw [stmt, Stmt.parts, Stmt.binds, List.forall_mem_cons, Stmt.Sound, Stmt.Shaped, Stmt.definitions, bounds_iff,
      List.forall_mem_cons, ← List.singleton_append, fills_append]
    simp only [except_bind_iff, fills_append]
    have hcounter : (⟨c.var, [c.start.ty]⟩ : Definition).Declared env ↔ env.get? c.var = some c.start.ty := by
      simp [Definition.Declared]
    rw [hcounter]
    constructor
    · rintro ⟨_, h1, _, h2, _, h3, D1, hv, D2, hm, hbody⟩
      obtain ⟨hD1, hv⟩ := (define_iff hD).mp hv
      obtain ⟨hD2, hm⟩ := (merge_iff hD1.2).mp hm
      obtain ⟨hD', hbody⟩ := (block_iff hD2.2).mp hbody
      exact ⟨⟨D1, hD1, D2, hD2, hD'⟩, ⟨⟨hv, hm⟩, h1, h2, h3⟩, hbody⟩
    · rintro ⟨⟨D1, hD1, D2, hD2, hD'⟩, ⟨⟨hv, hm⟩, h1, h2, h3⟩, hbody⟩
      exact ⟨(), h1, (), h2, (), h3, D1, (define_iff hD).mpr ⟨hD1, hv⟩, D2, (merge_iff hD1.2).mpr ⟨hD2, hm⟩,
        (block_iff hD2.2).mpr ⟨hD', hbody⟩⟩

/-- A block passes if it defines its names once, and all its statements are sound. -/
theorem block_iff : ∀ {ss : List Stmt} {D D' : Defined}, D.Nodup →
    (block env ss D = .ok D' ↔ Fills D (Stmt.blockBinds ss) D' ∧ Stmt.BlockSound env ss)
  | [], D, D', hD => by
    rw [block, Stmt.blockBinds, fills_nil hD, Except.ok.injEq]
    exact (and_iff_left fun s hs => absurd hs List.not_mem_nil).symm
  | s :: ss, D, D', hD => by
    rw [block, except_bind_iff, Stmt.blockBinds, fills_append, Stmt.BlockSound, Stmt.blockParts, List.forall_mem_append]
    constructor
    · rintro ⟨D1, hs, hss⟩
      obtain ⟨hD1, hs⟩ := (stmt_iff hD).mp hs
      obtain ⟨hD', hss⟩ := (block_iff hD1.2).mp hss
      exact ⟨⟨D1, hD1, hD'⟩, hs, hss⟩
    · rintro ⟨⟨D1, hD1, hD'⟩, hs, hss⟩
      exact ⟨D1, (stmt_iff hD).mpr ⟨hD1, hs⟩, (block_iff hD1.2).mpr ⟨hD', hss⟩⟩

end

theorem params_iff {ps : List (VarName × Ty)} (hD : D.Nodup) :
    params env ps D = .ok D' ↔ Fills D (ps.map (·.1)) D' ∧ ∀ p ∈ ps, env.get? p.1 = some p.2 := by
  induction ps generalizing D with
  | nil =>
    rw [params, List.map_nil, fills_nil hD]
    simp
  | cons p ps ih =>
    rw [params, except_bind_iff, List.map_cons, ← List.singleton_append, fills_append, List.forall_mem_cons]
    constructor
    · rintro ⟨D1, hp, hps⟩
      obtain ⟨hD1, hp⟩ := (define_iff hD).mp hp
      obtain ⟨hD', hps⟩ := (ih hD1.2).mp hps
      exact ⟨⟨D1, hD1, hD'⟩, hp, hps⟩
    · rintro ⟨⟨D1, hD1, hD'⟩, hp, hps⟩
      exact ⟨D1, (define_iff hD).mpr ⟨hD1, hp⟩, (ih hD1.2).mpr ⟨hD', hps⟩⟩

/-- The check of a whole function, by its names and its statements. -/
theorem function_iff {f : Func} : f.verify = .ok () ↔
    (f.inputs ++ Stmt.blockBinds f.body).Nodup ∧ (∀ p ∈ f.params.zip f.paramTys, f.env.get? p.1 = some p.2) ∧
      Stmt.BlockSound f.env f.body := by
  have hfills : ∀ D', Fills [] (f.inputs ++ Stmt.blockBinds f.body) D' ↔
      D' = (f.inputs ++ Stmt.blockBinds f.body).reverse ∧ (f.inputs ++ Stmt.blockBinds f.body).Nodup := by
    intro D'
    rw [Fills, List.append_nil]
    refine and_congr_right fun h => ?_
    rw [h]
    exact (List.reverse_perm _).nodup_iff
  rw [Func.verify, except_bind_iff]
  simp only [except_bind_iff]
  constructor
  · rintro ⟨D1, hparams, D2, hbody, -⟩
    obtain ⟨hD1, hparams⟩ := (params_iff .nil).mp hparams
    obtain ⟨hD2, hbody⟩ := (block_iff hD1.2).mp hbody
    exact ⟨((hfills D2).mp (fills_append.mpr ⟨D1, hD1, hD2⟩)).2, hparams, hbody⟩
  · rintro ⟨hnd, hparams, hbody⟩
    obtain ⟨D1, hD1, hD2⟩ := fills_append.mp ((hfills _).mpr ⟨rfl, hnd⟩)
    exact ⟨D1, (params_iff .nil).mpr ⟨hD1, hparams⟩, _, (block_iff hD1.2).mpr ⟨hD2, hbody⟩, rfl⟩

end WellFormed

/-- The check accepts exactly the functions that define no name twice, declare every name with the types of its
definition, and whose statements are all of the right shape. -/
theorem Func.verify_ok_iff (f : Func) : f.verify = .ok () ↔
    (f.definitions.map (·.name)).Nodup ∧
      (∀ d ∈ f.definitions, ∃ t, f.env.get? d.name = some t ∧ ∀ u ∈ d.tys, u = t) ∧ ∀ s ∈ f.statements, s.Shaped := by
  rw [WellFormed.function_iff, f.definitions_names.nodup_iff, definitions, List.forall_mem_append]
  refine and_congr_right fun _ => ?_
  have hparams : (∀ p ∈ f.params.zip f.paramTys, f.env.get? p.1 = some p.2) ↔
      ∀ d ∈ (f.params.zip f.paramTys).map (fun (x, t) => (⟨x, [t]⟩ : Definition)), d.Declared f.env := by
    rw [List.forall_mem_map]
    simp [Definition.Declared]
  have hbody : Stmt.BlockSound f.env f.body ↔
      (∀ d ∈ f.statements.flatMap Stmt.definitions, d.Declared f.env) ∧ ∀ s ∈ f.statements, s.Shaped := by
    rw [List.forall_mem_flatMap]
    exact ⟨fun h => ⟨fun s hs => (h s hs).1, fun s hs => (h s hs).2⟩, fun h s hs => ⟨h.1 s hs, h.2 s hs⟩⟩
  rw [hparams, hbody, and_assoc]
  rfl

/-! ## The types of what is defined -/

namespace Stmt

mutual

theorem subterms_of_parts : ∀ {s p : Stmt}, p ∈ s.parts → p.subterms ⊆ s.subterms
  | assign _ _, _, h | ret _, _, h => by
    rw [parts, List.mem_singleton] at h
    exact h ▸ List.Subset.refl _
  | ite c yes no m, p, h => by
    simp only [parts, List.mem_cons, List.mem_append] at h
    rcases h with rfl | h | h
    · exact List.Subset.refl _
    · exact fun e he => List.mem_append_left _ (List.mem_append_right _ (subterms_of_blockParts h he))
    · exact fun e he => List.mem_append_right _ (subterms_of_blockParts h he)
  | whileLoop c body m, p, h | forLoop c body m, p, h => by
    rcases List.mem_cons.mp h with rfl | h
    · exact List.Subset.refl _
    · exact fun e he => List.mem_append_right _ (subterms_of_blockParts h he)

theorem subterms_of_blockParts : ∀ {ss : List Stmt} {p : Stmt}, p ∈ blockParts ss → p.subterms ⊆ blockSubterms ss
  | [], _, h => absurd h List.not_mem_nil
  | _ :: _, _, h => (List.mem_append.mp h).elim (fun h _ he => List.mem_append_left _ (subterms_of_parts h he))
      fun h _ he => List.mem_append_right _ (subterms_of_blockParts h he)

end

/-- What is defined has the type of an expression. -/
theorem ty_of_definition {s : Stmt} {d : Definition} (hd : d ∈ s.definitions) : ∃ e ∈ s.subterms, e.ty ∈ d.tys := by
  have hmerge : ∀ {m : Merge}, d ∈ m.definitions → ∃ e ∈ m.exprs.flatMap Expr.subterms, e.ty ∈ d.tys := by
    intro m hd
    obtain ⟨⟨x, l, r⟩, hm, rfl⟩ := List.mem_map.mp hd
    have hl : l ∈ m.exprs := List.mem_flatMap.mpr ⟨(l, r), List.mem_map.mpr ⟨_, hm, rfl⟩, List.mem_cons_self⟩
    exact ⟨l, List.mem_flatMap.mpr ⟨l, hl, l.self_mem_subterms⟩, List.mem_cons_self⟩
  cases s with
  | assign target value =>
    cases target with
    | var x t =>
      rw [List.mem_singleton.mp hd]
      exact ⟨value, List.mem_append_right _ value.self_mem_subterms, List.mem_cons_of_mem _ List.mem_cons_self⟩
    | _ => exact absurd hd List.not_mem_nil
  | ret value => exact absurd hd List.not_mem_nil
  | ite c yes no m | whileLoop c body m =>
    obtain ⟨e, he, hty⟩ := hmerge hd
    exact ⟨e, by simp only [subterms, List.mem_append]; tauto, hty⟩
  | forLoop c body m =>
    rcases List.mem_cons.mp hd with rfl | hd
    · exact ⟨c.start, by simp [subterms, Expr.self_mem_subterms], List.mem_cons_self⟩
    · obtain ⟨e, he, hty⟩ := hmerge hd
      exact ⟨e, by simp only [subterms, List.mem_append]; tauto, hty⟩

end Stmt

/-- The declared type of a name that is bound is that of an expression. -/
theorem Func.ty_of_binds {f : Func} (h : f.verify = .ok ()) {x : VarName} (hx : x ∈ Stmt.blockBinds f.body) {t : Ty}
    (ht : f.env.get? x = some t) : ∃ e ∈ f.subterms, e.ty = t := by
  obtain ⟨-, -, hsound⟩ := WellFormed.function_iff.mp h
  obtain ⟨d, hd, rfl⟩ := List.mem_map.mp ((Stmt.blockParts_names f.body).mem_iff.mpr hx)
  obtain ⟨p, hp, hd⟩ := List.mem_flatMap.mp hd
  obtain ⟨u, hu, htys⟩ := (hsound p hp).1 d hd
  obtain ⟨e, he, hty⟩ := Stmt.ty_of_definition hd
  exact ⟨e, Stmt.subterms_of_blockParts hp he, (htys _ hty).trans (Option.some.inj (hu.symm.trans ht))⟩

end ArrayIR
