/-
  ArrayIR.Proofs.Building.Neat — what the builder emits defines the names it has declared, and no others.

  Every step of building takes names from the session, declares them, and appends code
  that defines some of them. The numbers of names are taken once, so code appended
  later never defines a name again nor changes how it is declared; and each step
  declares a name with the type of its value. That much holds between any two moments
  (`Neatly`), whether the steps in between have succeeded or failed.

  A loop that carries an accumulator is not made of such steps: the accumulator and its
  next value are declared ahead of the loop, and are defined by its merge and at the end
  of its body. So `Writes` also lists names that are held, that is, declared before and
  defined now. Once the whole loop is emitted nothing is held any more
  (`Writes.claim`).
-/

import ArrayIR.Proofs.Building.Inference
import ArrayIR.Proofs.Definitions
import ArrayIR.Proofs.Emission

namespace ArrayIR

/-! ## Code that is sound in its environment -/

namespace Stmt

/-- A counted loop runs over 64-bit integers. -/
def Counts : Stmt → Prop
  | forLoop c _ _ => ∀ e ∈ [c.start, c.stop, c.step], e.ty = .i64
  | _ => True

/-- What the builder sees to in all the statements that it emits. -/
def BlockNeat (env : TypeEnv) (ss : List Stmt) : Prop := ∀ s ∈ blockParts ss, s.Sound env ∧ s.Counts

variable {env env' : TypeEnv} {ss ts : List Stmt}

theorem BlockNeat.sound (h : BlockNeat env ss) : BlockSound env ss := fun s hs => (h s hs).1

theorem blockNeat_append : BlockNeat env (ss ++ ts) ↔ BlockNeat env ss ∧ BlockNeat env ts := by
  rw [BlockNeat, blockParts_append, List.forall_mem_append]
  rfl

theorem mem_blockBinds {s : Stmt} {d : Definition} (hs : s ∈ blockParts ss) (hd : d ∈ s.definitions) :
    d.name ∈ blockBinds ss :=
  (blockParts_names ss).mem_iff.mp (List.mem_map_of_mem (List.mem_flatMap.mpr ⟨s, hs, hd⟩))

/-- Only the declarations of the names that the code binds matter. -/
theorem BlockNeat.congr (h : BlockNeat env ss) (henv : ∀ x ∈ blockBinds ss, env'.get? x = env.get? x) :
    BlockNeat env' ss := by
  intro s hs
  obtain ⟨⟨hdefs, hshape⟩, hcounts⟩ := h s hs
  refine ⟨⟨fun d hd => ?_, hshape⟩, hcounts⟩
  rw [Definition.Declared, henv d.name (mem_blockBinds hs hd)]
  exact hdefs d hd

end Stmt

/-! ## What has been written -/

/-- The name does not have the number `n`, nor one after it. -/
def Older (n : Nat) (x : String) : Prop := ∀ a i, x = numbered a i → i < n

theorem Older.mono {n m : Nat} {x : String} (h : Older n x) (hm : n ≤ m) : Older m x := fun a i hi =>
  Nat.lt_of_lt_of_le (h a i hi) hm

theorem Taken.not_mem_of_older {N : List VarName} {n m : Nat} {x : VarName} (h : Taken N n m)
    (hx : Older n x) : x ∉ N := by
  intro hm
  obtain ⟨a, i, hi, hge, -⟩ := h.number x hm
  have := hx a i hi
  omega

/-- The name does not have a number that is still to be taken. -/
def Builder.Old (b : Builder) (x : VarName) : Prop := Older b.session.nextName x

theorem Builder.old_numbered {b : Builder} {n : Nat} (h : n < b.session.nextName) (a : String) :
    b.Old (numbered a n) := by
  intro c i hi
  rw [← numbered_inj hi]
  exact h

/-- Names `N` have been taken, with numbers from `n` on and below `m`. Those in `B`, which is what code defines,
are different, and they are among them or among the names `H` declared before. -/
structure Names (H N B : List VarName) (n m : Nat) : Prop where
  taken : Taken N n m
  nodup : B.Nodup
  bound : ∀ x ∈ B, x ∈ H ∨ x ∈ N

namespace Names

variable {H H' N N' B B' : List VarName} {n m k : Nat}

/-- What is defined is not taken later. -/
theorem apart (h : Names H N B n m) (h' : Taken N' m k) (hn : n ≤ m) (hH : ∀ x ∈ H, Older n x) : ∀ x ∈ B, x ∉ N' := by
  intro x hx
  rcases h.bound x hx with hx | hx
  · exact h'.not_mem_of_older ((hH x hx).mono hn)
  · exact h.taken.disjoint h' x hx

theorem append (h : Names H N B n m) (h' : Names H' N' B' m k) (hn : n ≤ m) (hm : m ≤ k) (hH : ∀ x ∈ H, Older n x)
    (hH' : ∀ x ∈ H', Older n x) (hd : ∀ x ∈ H, x ∉ H') : Names (H ++ H') (N ++ N') (B ++ B') n k := by
  -- a name that is defined twice would be held twice, or taken after it was declared
  have hapart : ∀ x ∈ B, x ∉ B' := by
    intro x hx hx'
    rcases h'.bound x hx' with hheld | htaken
    · rcases h.bound x hx with hx | hx
      · exact hd x hx hheld
      · exact h.taken.not_mem_of_older (hH' x hheld) hx
    · exact h.apart h'.taken hn hH x hx htaken
  refine ⟨h.taken.append h'.taken hn hm, ?_, fun x hx => ?_⟩
  · exact List.nodup_append.mpr ⟨h.nodup, h'.nodup, fun x hx y hy e => hapart x hx (e ▸ hy)⟩
  · simp only [List.mem_append] at hx ⊢
    rcases hx with hx | hx
    · exact (h.bound x hx).imp .inl .inl
    · exact (h'.bound x hx).imp .inr .inr

end Names

/-- From the one moment to the other names `N` have been taken and declared, and code has been appended that
defines names among them, and among the names `H` declared before. -/
structure Writes (H N : List VarName) (out : Block) (b b' : Builder) : Prop
    extends Emits N out b b', Names H N (Stmt.blockBinds out) b.session.nextName b'.session.nextName where
  neat : Stmt.BlockNeat b'.env out

namespace Writes

variable {H H' N N' : List VarName} {out out' code : Block} {b b₁ b₂ : Builder}

/-- A name declared before is declared as it was. -/
theorem env_of_old (h : Writes H N out b b₁) {x : VarName} (hx : b.Old x) : b₁.env.get? x = b.env.get? x :=
  h.env x (h.taken.not_mem_of_older hx)

theorem old (h : Writes H N out b b₁) {x : VarName} (hx : b.Old x) : b₁.Old x := hx.mono h.next

/-- Nothing has been appended. -/
theorem silent (h : Emits N [] b b₁) (hN : Taken N b.session.nextName b₁.session.nextName) : Writes [] N [] b b₁ where
  toEmits := h
  taken := hN
  nodup := .nil
  bound _ hx := absurd hx List.not_mem_nil
  neat _ hs := absurd hs List.not_mem_nil

theorem refl (b : Builder) : Writes [] [] [] b b := silent (.refl b) (.nil _ _)

theorem append (h : Writes H N out b b₁) (h' : Writes H' N' out' b₁ b₂) (hH : ∀ x ∈ H, b.Old x)
    (hH' : ∀ x ∈ H', b.Old x) (hd : ∀ x ∈ H, x ∉ H') : Writes (H ++ H') (N ++ N') (out ++ out') b b₂ where
  toEmits := h.toEmits.append h'.toEmits
  toNames := Stmt.blockBinds_append out out' ▸ h.toNames.append h'.toNames h.next h'.next hH hH' hd
  neat := Stmt.blockNeat_append.mpr ⟨h.neat.congr fun x hx => h'.env x
    (h.toNames.apart h'.taken h.next hH x hx), h'.neat⟩

/-- What was held has been taken just before. -/
theorem claim (h : Writes [] N [] b b₁) (h' : Writes H N' out b₁ b₂) (hH : ∀ x ∈ H, x ∈ N) :
    Writes [] (N ++ N') out b b₂ where
  toEmits := h.toEmits.append h'.toEmits
  taken := h.taken.append h'.taken h.next h'.next
  nodup := h'.nodup
  bound x hx := .inr (List.mem_append.mpr ((h'.bound x hx).imp_left (hH x)))
  neat := h'.neat

/-- Code in a scope of its own is not appended to the enclosing one. -/
theorem nested (h : Writes H N code { b with block := [] } b₁) : Writes [] N [] b { b₁ with block := b.block } :=
  silent h.toEmits.nested.2 h.taken

/-- A counted loop around such code. The merge defines names that are held as well. -/
theorem loop {m : Merge} {start stop step : Expr}
    (h : Writes H N code ⟨(b.session.fresh "i").2, b.env.insert (numbered "i" b.session.nextName) .i64, []⟩ b₁)
    (hH : ∀ x ∈ H, b.Old x) (hkeys : ∀ x ∈ m.keys, b.Old x ∧ x ∉ H) (hm : ∀ d ∈ m.definitions, d.Declared b.env)
    (hbounds : ∀ e ∈ [start, stop, step], e.ty = .i64) :
    Writes (H ++ m.keys) (numbered "i" b.session.nextName :: N)
      [.forLoop ⟨numbered "i" b.session.nextName, start, stop, step⟩ code m] b
      { b₁ with block := b.block ++ [.forLoop ⟨numbered "i" b.session.nextName, start, stop, step⟩ code m] } := by
  let v := numbered "i" b.session.nextName
  have hv : ¬ b.Old v := fun h => Nat.lt_irrefl _ (h "i" _ rfl)
  have holdN : ∀ x, b.Old x → x ∉ N := fun x hx => h.taken.not_mem_of_older (hx.mono (Nat.le_succ _))
  have hvN : v ∉ N := (Taken.one "i" _).disjoint h.taken v (List.mem_singleton_self v)
  have henv : ∀ x, b.Old x → b₁.env.get? x = b.env.get? x := by
    intro x hx
    rw [h.env x (holdN x hx)]
    exact NameMap.get?_insert_of_ne b.env _ fun (e : x = v) => hv (e ▸ hx)
  have hcounter : b₁.env.get? v = some .i64 := by
    rw [h.env v hvN]
    exact NameMap.get?_insert_self b.env v _
  refine { block := rfl, env := ?_, session := ?_, next := ?_, taken := ?_, nodup := ?_, bound := ?_, neat := ?_ }
  · intro x hx
    rw [List.mem_cons, not_or] at hx
    show b₁.env.get? x = _
    rw [h.env x hx.2]
    exact NameMap.get?_insert_of_ne b.env _ hx.1
  · exact h.session
  · exact Nat.le_of_succ_le h.next
  · exact (Taken.one "i" _).append h.taken (Nat.le_succ _) h.next
  · rw [Stmt.blockBinds_singleton, Stmt.binds]
    refine List.nodup_cons.mpr ⟨fun hm => ?_, List.nodup_append.mpr ⟨m.keys_nodup, h.nodup, fun x hx y hy e => ?_⟩⟩
    · rcases List.mem_append.mp hm with hx | hx
      · exact hv (hkeys v hx).1
      · exact (h.bound v hx).elim (fun hx => hv (hH v hx)) hvN
    · subst e
      exact (h.bound x hy).elim (hkeys x hx).2 (holdN x (hkeys x hx).1)
  · intro x hx
    rw [Stmt.blockBinds_singleton, Stmt.binds] at hx
    rcases List.mem_cons.mp hx with rfl | hx
    · exact .inr List.mem_cons_self
    · rcases List.mem_append.mp hx with hx | hx
      · exact .inl (List.mem_append_right _ hx)
      · exact (h.bound x hx).imp (List.mem_append_left _) (List.mem_cons_of_mem _)
  · intro s hs
    rw [Stmt.blockParts, Stmt.parts, Stmt.blockParts, List.append_nil] at hs
    rcases List.mem_cons.mp hs with rfl | hs
    · refine ⟨⟨fun d hd => ?_, fun e he => .inr (hbounds e he)⟩, hbounds⟩
      rcases List.mem_cons.mp hd with rfl | hd
      · exact ⟨.i64, hcounter, by simpa using hbounds start⟩
      · have hkey : d.name ∈ m.keys := m.map_definitions ▸ List.mem_map_of_mem hd
        rw [Definition.Declared, henv _ (hkeys _ hkey).1]
        exact hm d hd
    · exact h.neat s hs

end Writes

/-- From the one moment to the other the builder has only added, and has defined names that were new. -/
def Neatly (b b' : Builder) : Prop := ∃ N out, Writes [] N out b b'

namespace Neatly

variable {b b₁ b₂ : Builder}

theorem refl (b : Builder) : Neatly b b := ⟨[], [], .refl b⟩

theorem trans (h : Neatly b b₁) (h' : Neatly b₁ b₂) : Neatly b b₂ := by
  obtain ⟨N, out, h⟩ := h
  obtain ⟨N', out', h'⟩ := h'
  exact ⟨N ++ N', out ++ out', h.append h' (by simp) (by simp) (by simp)⟩

/-- A fresh name, declared. -/
theorem declare (b : Builder) (name : String) (t : Ty) :
    Writes [] [numbered name b.session.nextName] [] b
      { b with session := (b.session.fresh name).2, env := b.env.insert (numbered name b.session.nextName) t } := by
  refine .silent ⟨(List.append_nil _).symm, fun x hx => ?_, rfl, Nat.le_succ _⟩ (.one name _)
  exact NameMap.get?_insert_of_ne b.env t fun e => hx (e ▸ List.mem_singleton_self _)

/-- A definition of a name that has been declared. -/
theorem define {x : VarName} {value : Expr} (h : b.env.get? x = some value.ty) :
    Writes [x] [] [.assign (.var x value.ty) value] b
      { b with block := b.block ++ [.assign (.var x value.ty) value] } where
  block := rfl
  env _ _ := rfl
  session := rfl
  next := Nat.le_refl _
  taken := .nil _ _
  nodup := List.pairwise_singleton _ _
  bound _ hy := .inl hy
  neat := by
    intro s hs
    rw [List.mem_singleton.mp hs]
    refine ⟨⟨fun d hd => ?_, .inl ⟨x, _, rfl⟩⟩, trivial⟩
    rw [List.mem_singleton.mp hd]
    exact ⟨value.ty, h, by simp⟩

/-- A store, which defines nothing. -/
theorem store (b : Builder) (array idx value : Expr) (region : Ty) :
    Writes [] [] [.assign (.index array idx region) value] b
      { b with block := b.block ++ [.assign (.index array idx region) value] } where
  block := rfl
  env _ _ := rfl
  session := rfl
  next := Nat.le_refl _
  taken := .nil _ _
  nodup := .nil
  bound := by simp [Stmt.blockBinds, Stmt.binds]
  neat := by
    intro s hs
    rw [List.mem_singleton.mp hs]
    exact ⟨⟨fun d hd => absurd hd List.not_mem_nil, .inr ⟨_, _, _, rfl⟩⟩, trivial⟩

end Neatly

/-! ## Computations -/

/-- How a computation ends: with a result as `P` says, or with a failure in a builder as `R` says. -/
def Finishes {α : Type} (R : Builder → Prop) (P : α → Builder → Prop) : EStateM.Result Fault Builder α → Prop
  | .ok a b => P a b
  | .error _ b => R b

section Finishes

variable {α β : Type} {R : Builder → Prop} {P : α → Builder → Prop} {Q : β → Builder → Prop} {b b₁ : Builder}

theorem Finishes.bind {x : Build α} {f : α → Build β} (h : Finishes R P (x b))
    (next : ∀ a b₁, P a b₁ → Finishes R Q (f a b₁)) :
    Finishes R Q ((x >>= f) b) := by
  change Finishes R Q (EStateM.bind x f b)
  unfold EStateM.bind
  cases hx : x b with
  | error e b₁ =>
    rw [hx] at h
    exact h
  | ok a b₁ =>
    rw [hx] at h
    exact next a b₁ h

theorem Finishes.mono {R' : Builder → Prop} {P' : α → Builder → Prop}
    {r : EStateM.Result Fault Builder α} (h : Finishes R P r) (hR : ∀ b, R b → R' b)
    (hP : ∀ a b, r = .ok a b → P a b → P' a b) : Finishes R' P' r := by
  cases r with
  | error e b => exact hR b h
  | ok a b => exact hP a b rfl h

/-- Wherever it starts, the computation adds neatly to the builder, also if it fails. -/
def Tidy {α : Type} (x : Build α) : Prop := ∀ b, Finishes (Neatly b) (fun _ => Neatly b) (x b)

/-- So it does after others. -/
theorem Tidy.after {x : Build α} (h : Tidy x) (hb : Neatly b b₁) : Finishes (Neatly b) (fun _ => Neatly b) (x b₁) :=
  (h b₁).mono (fun _ => hb.trans) fun _ _ _ => hb.trans

theorem Tidy.bind {x : Build α} {f : α → Build β} (h : Tidy x) (next : ∀ a, Tidy (f a)) : Tidy (x >>= f) :=
  fun b => (h b).bind fun a _ hb => (next a).after hb

end Finishes

namespace Build

variable {b b₁ : Builder}

theorem temp_tidy (value : Expr) (name : String) : Tidy (temp value name) := by
  intro b
  have hdeclare := Neatly.declare b name value.ty
  have hdefine := Neatly.define (b := { b with
    session := (b.session.fresh name).2, env := b.env.insert (numbered name b.session.nextName) value.ty })
    (NameMap.get?_insert_self b.env _ value.ty)
  exact ⟨_, _, hdeclare.claim hdefine fun _ => id⟩

theorem lookupFn_tidy (fn : FnName) : Tidy (lookupFn fn) := by
  intro b
  show Finishes _ _ ((liftM (b.session.lookup fn) : Build Func) b)
  cases b.session.lookup fn <;> exact .refl b

end Build

/-- What the steps of building do: they add neatly, whatever they are given. -/
def tidy : Laying where
  World := Unit
  Below _ _ := True
  Sees _ _ := True
  Invocable _ _ := True
  Lays _ P x := ∀ b, Finishes (Neatly b) (fun a b' => Neatly b b' ∧ P () a) (x b)
  below_refl _ := trivial
  below_trans _ _ := trivial
  sees_mono _ _ := trivial
  sees_child _ _ := trivial
  sees_made _ _ _ _ := trivial
  invocable_mono _ _ := trivial
  captured _ _ _ _ := trivial
  pure_lays h b := ⟨.refl b, h () trivial⟩
  throw_lays _ b := .refl b
  bind_lays hx hf b := (hx b).bind fun a b₁ ⟨hb, ha⟩ =>
    (hf () a trivial ha b₁).mono (fun _ => hb.trans) fun _ _ _ h => h.imp_left hb.trans
  mono_lays hx h b := (hx b).mono (fun _ => id) fun a _ _ hp => hp.imp_right (h () a trivial)
  lookupFn_lays fn b := (Build.lookupFn_tidy fn b).mono (fun _ => id) fun _ _ _ hb => ⟨hb, trivial⟩
  callee_lays {_ e} _ b := by
    unfold Build.callee
    cases e.ty.callee? with
    | none => exact .refl b
    | some p => exact (Build.lookupFn_tidy p.1 b).mono (fun _ => id) fun _ _ _ hb => ⟨hb, fun _ _ _ _ => trivial⟩
  freshVar_lays t name b := ⟨⟨_, _, Neatly.declare b name t⟩, _, rfl⟩
  temp_lays name _ b := ⟨Build.temp_tidy _ name b, trivial, rfl⟩
  store_lays _ _ b := ⟨⟨_, _, Neatly.store b _ _ _ _⟩, trivial⟩

theorem Tidy.of_lays {α : Type} {P : Unit → α → Prop} {x : Build α} (h : tidy.Lays () P x) : Tidy x :=
  fun b => (h b).mono (fun _ => id) fun _ _ _ => And.left

theorem Tidy.lays {α : Type} {x : Build α} (h : Tidy x) : tidy.Lays () (fun _ _ => True) x :=
  fun b => (h b).mono (fun _ => id) fun _ _ _ hb => ⟨hb, trivial⟩

namespace Tidy

variable {α : Type} (e f c x y : Expr) (es : List Expr) (o : Option Expr) (axis : Nat) (name : String)

theorem pure (a : α) : Tidy (Pure.pure a : Build α) := fun b => .refl b

theorem fail (e : Error) : Tidy (ArrayIR.fail e : Build α) := fun b => .refl b

theorem lift (x : Except Error α) : Tidy (liftM x : Build α) :=
    .of_lays (.lift (P := fun _ _ => True) fun _ _ _ _ => trivial)

theorem mapM {β : Type} {g : α → Build β} (h : ∀ a, Tidy (g a)) (as : List α) : Tidy (as.mapM g) :=
  .of_lays (.mapM (Q := fun _ _ => True) (fun _ => id) fun a _ _ _ => (h a).lays)

theorem cast (t : ScalarTy) : Tidy (Build.cast e t) := .of_lays (Laying.cast_lays (L := tidy) trivial t)

theorem coerce (t : Ty) (context : String) : Tidy (Build.coerce e t context) :=
  .of_lays (Laying.coerce_lays (L := tidy) trivial t context)

theorem castAll (ps : List (Expr × ScalarTy)) : Tidy (Build.castAll ps) :=
  .of_lays (Laying.castAll_lays (L := tidy) fun _ _ => trivial)

theorem prim (p : Prim) : Tidy (Build.prim p es name) :=
    .of_lays (Laying.prim_lays (L := tidy) (fun _ _ => trivial) p name)

theorem prod : Tidy (Build.prod es name) := .of_lays (Laying.prod_lays (L := tidy) (fun _ _ => trivial) name)

theorem proj (i : Nat) : Tidy (Build.proj e i) := .of_lays (Laying.proj_lays (L := tidy) trivial i)

theorem index : Tidy (Build.index x e name) := .of_lays (Laying.index_lays (L := tidy) trivial trivial name)

theorem attr (field : Field) : Tidy (Build.attr e field) := .of_lays (Laying.attr_lays (L := tidy) trivial field)

theorem attrAlong (field : Field) (axis : Option Nat) : Tidy (Build.attrAlong e field axis) :=
  .of_lays (Laying.attrAlong_lays (L := tidy) trivial field axis)

theorem shape (axis : Option Nat) : Tidy (Build.shape e axis) := attrAlong e .shape axis

theorem extents (rank : Nat) : Tidy (Build.extents e rank) := .of_lays (Laying.extents_lays (L := tidy) trivial rank)

theorem rowMajorStrides (elt : ScalarTy) : Tidy (Build.rowMajorStrides elt es) :=
  .of_lays (Laying.rowMajorStrides_lays (L := tidy) elt fun _ _ => trivial)

theorem allocShaped (elt : ScalarTy) : Tidy (Build.allocShaped elt es name) :=
  .of_lays (Laying.allocShaped_lays (L := tidy) elt (fun _ _ => trivial) name)

theorem setIndex : Tidy (Build.setIndex x y e) := .of_lays (Laying.setIndex_lays (L := tidy) trivial trivial trivial)

theorem callee : Tidy (Build.callee e) := .of_lays (tidy.callee_lays trivial)

theorem call : Tidy (Build.call f es name) := .of_lays (Laying.call_lays (L := tidy) trivial (fun _ _ => trivial) name)

theorem ofCall : Tidy (Shape.ofCall f es) := .of_lays (Laying.ofCall_lays (L := tidy) trivial fun _ _ => trivial)

theorem allocResult (inner outer : List Expr) : Tidy (Build.allocResult f inner outer name) :=
  .of_lays (Laying.allocResult_lays (L := tidy) trivial (fun _ _ => trivial) (fun _ _ => trivial) name)

end Tidy

namespace Build

variable {b b₁ : Builder}

theorem scalar_ty (i : Int64) (t : ScalarTy) : (Expr.scalar i t).ty = .scalar t := by cases t <;> rfl

/-- A cast value has the type it was cast to. -/
theorem cast_ty {value e : Expr} {t : ScalarTy} (h : cast value t b = .ok e b₁) : e.ty = .scalar t := by
  obtain ⟨-, out, hcasts, -⟩ := cast_ok h
  cases hcasts with
  | same hty => exact hty
  | int _ => exact scalar_ty _ t
  | bool _ => exact scalar_ty _ t
  | temp y => rfl

theorem coerce_ty {value e : Expr} {t : Ty} {context : String}
    (h : coerce value t context b = .ok e b₁) : e.ty = t := by
  unfold coerce at h
  by_cases hty : value.ty = t
  · rw [if_pos hty] at h
    cases h
    exact hty
  · rw [if_neg hty] at h
    cases hv : value.ty with
    | scalar s =>
      rw [hv] at h
      cases t with
      | scalar u => exact cast_ty h
      | _ => cases h
    | _ =>
      rw [hv] at h
      cases h

/-- What the moment before a loop says about the names in its body. -/
structure Precedes (b b₁ : Builder) : Prop where
  old : ∀ x, b.Old x → b₁.Old x
  env : ∀ x, b.Old x → b₁.env.get? x = b.env.get? x

theorem precedes_of_writes {H N : List VarName} {out : Block} (h : Writes H N out b b₁) : Precedes b b₁ :=
  ⟨fun _ => h.old, fun _ => h.env_of_old⟩

theorem Precedes.trans {b₂ : Builder} (h : Precedes b b₁) (h' : Precedes b₁ b₂) : Precedes b b₂ :=
  ⟨fun x hx => h'.old x (h.old x hx), fun x hx => (h'.env x (h.old x hx)).trans (h.env x hx)⟩

section Loop

variable {α : Type} {start stop step : Expr} {m : Merge} {body : Expr → Build α} {H : List VarName}

/-- A counted loop whose bounds are cast already, around a body that may define names which are held. -/
theorem counted_finishes (hbounds : ∀ e ∈ [start, stop, step], e.ty = .i64) (hH : ∀ x ∈ H, b.Old x)
    (hkeys : ∀ x ∈ m.keys, b.Old x ∧ x ∉ H) (hm : ∀ d ∈ m.definitions, d.Declared b.env)
    (hbody : ∀ i b₁, Precedes b b₁ → Finishes (Neatly b₁) (fun _ b₂ => ∃ N out, Writes H N out b₁ b₂) (body i b₁)) :
    Finishes (Neatly b) (fun _ b' => ∃ N out, Writes (H ++ m.keys) N out b b') ((do
      let var ← freshName "i"
      let counter ← declare var .i64
      let (block, a) ← nested (body counter)
      emit (.forLoop ⟨var, start, stop, step⟩ block m)
      return a : Build α) b) := by
  let v := numbered "i" b.session.nextName
  let b₁ : Builder := { b with session := (b.session.fresh "i").2, env := b.env.insert v .i64 }
  have hdeclare := Neatly.declare b "i" .i64
  have hprecedes := precedes_of_writes hdeclare
  have hinner := hbody (.var v .i64) { b₁ with block := [] } ⟨hprecedes.old, hprecedes.env⟩
  show Finishes _ _ (EStateM.bind (nested (body (.var v .i64))) (fun p => do
    emit (.forLoop ⟨v, start, stop, step⟩ p.1 m)
    return p.2) b₁)
  unfold EStateM.bind nested
  cases hr : body (.var v .i64) { b₁ with block := [] } with
  | error e b₂ =>
    rw [hr] at hinner
    obtain ⟨N, code, hcode⟩ := hinner
    exact Neatly.trans ⟨_, _, hdeclare⟩ ⟨N, [], hcode.nested⟩
  | ok a b₂ =>
    rw [hr] at hinner
    obtain ⟨N, code, hcode⟩ := hinner
    obtain rfl : b₂.block = code := hcode.block
    exact ⟨_, _, hcode.loop hH hkeys hm hbounds⟩

theorem forLoop_finishes (hH : ∀ x ∈ H, b.Old x) (hkeys : ∀ x ∈ m.keys, b.Old x ∧ x ∉ H)
    (hm : ∀ d ∈ m.definitions, d.Declared b.env)
    (hbody : ∀ i b₁, Precedes b b₁ → Finishes (Neatly b₁) (fun _ b₂ => ∃ N out, Writes H N out b₁ b₂) (body i b₁)) :
    Finishes (Neatly b) (fun _ b' => ∃ N out, Writes (H ++ m.keys) N out b b') (forLoop start stop step m body b) := by
  have hcast : ∀ (e : Expr) {b₁ : Builder}, Neatly b b₁ →
      Finishes (Neatly b) (fun e' b₂ => Neatly b b₂ ∧ e'.ty = .i64) (cast e .i64 b₁) := fun e _ hb =>
    ((Tidy.cast e .i64).after hb).mono (fun _ => id) fun _ _ hok hb' => ⟨hb', cast_ty hok⟩
  refine (hcast start (.refl b)).bind fun start b₁ ⟨hb1, hstart⟩ => (hcast stop hb1).bind fun stop b₂ ⟨hb2, hstop⟩ => ?_
  refine (hcast step hb2).bind fun step b3 ⟨⟨N, out, hwrites⟩, hstep⟩ => ?_
  have hprecedes := precedes_of_writes hwrites
  have hbounds : ∀ e ∈ [start, stop, step], e.ty = .i64 := by simp [hstart, hstop, hstep]
  have hold : ∀ x ∈ H, b3.Old x := fun x hx => hprecedes.old x (hH x hx)
  have hmerge : ∀ d ∈ m.definitions, d.Declared b3.env := by
    intro d hd
    have hkey : d.name ∈ m.keys := m.map_definitions ▸ List.mem_map_of_mem hd
    rw [Definition.Declared, hprecedes.env _ (hkeys _ hkey).1]
    exact hm d hd
  refine (counted_finishes hbounds hold (fun x hx => ⟨hprecedes.old x (hkeys x hx).1, (hkeys x hx).2⟩)
    hmerge fun i b4 hb4 =>
    hbody i b4 (hprecedes.trans hb4)).mono (fun _ h => Neatly.trans ⟨N, out, hwrites⟩ h)
      fun _ b4 _ ⟨N', out', hloop⟩ => ?_
  refine ⟨_, _, hwrites.append hloop (by simp) (fun x hx => ?_) (by simp)⟩
  exact (List.mem_append.mp hx).elim (hH x) fun hx => (hkeys x hx).1

end Loop

theorem loop_tidy {start stop : Expr} {body : Expr → Build Unit} (hbody : ∀ i, Tidy (body i)) :
    Tidy (forLoop start stop (.int64 1) .empty body) := by
  intro b
  exact forLoop_finishes (H := []) (by simp) (by simp [NameMap.keys, NameMap.empty])
    (by simp [Merge.definitions, NameMap.toList, NameMap.empty]) fun i b₁ _ => hbody i b₁

/-- The next value of an accumulator, defined under the name that is held for it. -/
theorem next_finishes {x : VarName} {t : Ty} {next : Build Expr} (hnext : Tidy next) (hx : b.Old x)
    (ht : b.env.get? x = some t) :
    Finishes (Neatly b) (fun _ b' => ∃ N out, Writes [x] N out b b') ((do
      let next ← coerce (← next) t "accumulator"
      assign (.var x t) next : Build Unit) b) := by
  refine (hnext b).bind fun e b₁ hb1 => ?_
  refine (((Tidy.coerce e t _).after hb1).mono (fun _ => id)
    fun e' b₂ hok hb2 => (⟨hb2, coerce_ty hok⟩ : Neatly b b₂ ∧ e'.ty = t)).bind ?_
  rintro e' b₂ ⟨⟨N, out, hwrites⟩, rfl⟩
  have hdeclared : b₂.env.get? x = some e'.ty := (hwrites.env_of_old hx).trans ht
  exact ⟨_, _, hwrites.append (Neatly.define hdeclared) (by simp) (by simpa using hx) (by simp)⟩

/-- The loop around an accumulator `x` whose next value is `y`. -/
theorem accumulator_finishes {x y : VarName} {start stop init : Expr} {body : Expr → Expr → Build Expr}
    (hbody : ∀ acc i, Tidy (body acc i)) (hyx : y ≠ x) (hx : b.Old x) (hy : b.Old y)
    (hxty : b.env.get? x = some init.ty) (hyty : b.env.get? y = some init.ty) :
    Finishes (Neatly b) (fun _ b' => ∃ N out, Writes [y, x] N out b b')
      (forLoop start stop (.int64 1) (NameMap.empty.insert x (init, .var y init.ty)) (fun i => do
        let next ← coerce (← body (.var x init.ty) i) init.ty "accumulator"
        assign (.var y init.ty) next) b) := by
  refine forLoop_finishes (H := [y]) (by simpa using hy) (fun z hz => ?_) (fun d hd => ?_) fun i b₁ hb1 =>
    next_finishes (hbody _ i) (hb1.old y hy) ((hb1.env y hy).trans hyty)
  · obtain rfl : z = x := List.mem_singleton.mp hz
    exact ⟨hx, by simpa using hyx.symm⟩
  · obtain rfl : d = ⟨x, [init.ty, init.ty]⟩ := List.mem_singleton.mp hd
    exact ⟨init.ty, hxty, by simp⟩

theorem accumulate_tidy {start stop init : Expr} {body : Expr → Expr → Build Expr}
    (hbody : ∀ acc i, Tidy (body acc i)) :
    Tidy (accumulate start stop init body) := by
  intro b
  let n := b.session.nextName
  let x := numbered "acc" n
  let y := numbered "acc_after" (n + 1)
  let b₁ : Builder := { b with session := (b.session.fresh "acc").2, env := b.env.insert x init.ty }
  let b₂ : Builder := { b₁ with session := (b₁.session.fresh "acc_after").2, env := b₁.env.insert y init.ty }
  have hyx : y ≠ x := fun e => Nat.succ_ne_self n (numbered_inj e)
  have hnames : Writes [] [x, y] [] b b₂ :=
    (Neatly.declare b "acc" init.ty).append (Neatly.declare b₁ "acc_after" init.ty) (by simp) (by simp) (by simp)
  have hx : b₂.Old x := b₂.old_numbered (n := n) (Nat.lt_add_of_pos_right Nat.two_pos) "acc"
  have hy : b₂.Old y := b₂.old_numbered (n := n + 1) (Nat.lt_succ_self _) "acc_after"
  have hxty : b₂.env.get? x = some init.ty :=
    (NameMap.get?_insert_of_ne b₁.env _ hyx.symm).trans (NameMap.get?_insert_self b.env _ _)
  have hyty : b₂.env.get? y = some init.ty := NameMap.get?_insert_self b₁.env _ _
  show Finishes _ _ (EStateM.bind _ (fun _ => pure (Expr.var x init.ty)) b₂)
  refine Finishes.bind ((accumulator_finishes hbody hyx hx hy hxty hyty).mono (fun _ h => Neatly.trans ⟨_, _, hnames⟩ h)
    fun _ b' _ ⟨N, out, hwrites⟩ => ?_) (P := fun _ => Neatly b) fun _ _ h => h
  exact ⟨_, _, hnames.claim hwrites (by simp [or_comm])⟩

end Build

theorem tidy_loops : tidy.Loops where
  loop _ _ hbody := (Build.loop_tidy fun i => .of_lays (hbody () i trivial trivial)).lays
  accumulate _ _ _ hbody := (Build.accumulate_tidy fun acc i => .of_lays (hbody () acc i trivial trivial trivial)).lays

namespace Tidy

/-! ## Adverbs -/

variable (f c e x y : Expr) (es : List Expr) (o : Option Expr) (axis : Nat)

theorem sliceAlong : Tidy (Adverb.sliceAlong Build.domain x axis e) :=
  .of_lays ((Laying.expressions tidy_loops).sliceAlong trivial axis trivial)

theorem commonExtent : Tidy (Adverb.commonExtent Build.domain es axis) :=
  .of_lays ((Laying.expressions tidy_loops).commonExtent (fun _ _ => trivial) axis)

theorem applyAt : Tidy (Adverb.applyAt Build.domain f es axis e) :=
  .of_lays ((Laying.expressions tidy_loops).applyAt trivial (fun _ _ => trivial) axis trivial)

theorem seed : Tidy (Adverb.seed Build.domain f c o es axis) :=
  .of_lays ((Laying.expressions tidy_loops).seed trivial trivial (fun _ _ => trivial) (fun _ _ => trivial) axis)

theorem map : Tidy (Adverb.map Build.domain f es axis) :=
  .of_lays ((Laying.expressions tidy_loops).map trivial (fun _ _ => trivial) axis)

theorem reduce : Tidy (Adverb.reduce Build.domain f c o es axis) :=
  .of_lays ((Laying.expressions tidy_loops).reduce trivial trivial (fun _ _ => trivial) (fun _ _ => trivial) axis)

theorem scan : Tidy (Adverb.scan Build.domain f c e o es axis) :=
  .of_lays ((Laying.expressions tidy_loops).scan trivial trivial trivial (fun _ _ => trivial) (fun _ _ => trivial) axis)

theorem allPairs : Tidy (Adverb.allPairs Build.domain f x y axis) :=
  .of_lays ((Laying.expressions tidy_loops).allPairs trivial trivial trivial axis)

end Tidy

end ArrayIR
