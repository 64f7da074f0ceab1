/-
  ArrayIR.Proofs.Copy — code copied under other names simulates the code it copies.

  `Copy` says what a copy of a statement is: the statement with every name it binds
  replaced by a new one, and every name it reads by what the name stands for. The
  copying pass produces such copies (`Renaming.stmts_copy`), and a copy simulates
  what it copies (`Copy.block_sim`) if the names of either are distinct from each
  other and from those in use, and if the merges can be evaluated in any order: the
  entries of a merge are held in the order of their names, so those of its copy are
  in another one.
-/

import ArrayIR.Proofs.Quiet
import ArrayIR.Proofs.Scope

namespace ArrayIR

/-! ## What names stand for -/

variable {x : VarName} {zs : List VarName} {e : Expr} {side : Expr × Expr → Expr} {α : Type}
  {R : VarName → VarName → Prop}

namespace Renaming

/-- From `r` to `r'` the names `xs` have come to stand for names among `ys`, and the other names stand
for what they did. -/
structure Rebinds (xs ys : List VarName) (r r' : Renaming) : Prop where
  keeps : ∀ x, x ∉ xs → r'.renames.get? x = r.renames.get? x
  images : ∀ x ∈ xs, ∃ y ∈ ys, r'.image? x = some y
  atomic : r.Atomic → r'.Atomic

namespace Rebinds

variable {xs ys xs' ys' : List VarName} {r r₁ r₂ : Renaming}

theorem nil (r : Renaming) : Rebinds [] [] r r := ⟨fun _ _ => rfl, fun _ h => absurd h List.not_mem_nil, id⟩

theorem append (h : Rebinds xs ys r r₁) (h' : Rebinds xs' ys' r₁ r₂) : Rebinds (xs ++ xs') (ys ++ ys') r r₂ where
  keeps x hx := by
    rw [List.mem_append, not_or] at hx
    rw [h'.keeps x hx.2, h.keeps x hx.1]
  images x hx := by
    by_cases hx' : x ∈ xs'
    · obtain ⟨y, hy, e⟩ := h'.images x hx'
      exact ⟨y, List.mem_append_right _ hy, e⟩
    · obtain ⟨y, hy, e⟩ := h.images x ((List.mem_append.mp hx).resolve_right hx')
      refine ⟨y, List.mem_append_left _ hy, ?_⟩
      rw [image?, h'.keeps x hx']
      exact e
  atomic hr := h'.atomic (h.atomic hr)

theorem perm (h : Rebinds xs ys r r₁) (hx : xs.Perm xs') (hy : ys.Perm ys') : Rebinds xs' ys' r r₁ where
  keeps x hn := h.keeps x fun hm => hn (hx.mem_iff.mp hm)
  images x hm := by
    obtain ⟨y, hy', e⟩ := h.images x (hx.mem_iff.mpr hm)
    exact ⟨y, hy.mem_iff.mp hy', e⟩
  atomic := h.atomic

theorem image?_eq (h : Rebinds xs ys r r₁) (hx : x ∉ xs) : r₁.image? x = r.image? x := by
  rw [image?, image?, h.keeps x hx]

end Rebinds

/-- No name in `Z` stands for one of `ys`. -/
def Avoids (r : Renaming) (Z : VarName → Prop) (ys : List VarName) : Prop :=
  ∀ y ∈ ys, ∀ x, Z x → r.image? x ≠ some y

variable {Z : VarName → Prop} {r' : Renaming}

theorem Avoids.left {r : Renaming} {ys : List VarName} (h : r.Avoids Z (ys ++ zs)) :
    r.Avoids Z ys := fun y hy => h y (List.mem_append_left _ hy)

theorem Avoids.right {r : Renaming} {ys : List VarName} (h : r.Avoids Z (ys ++ zs)) :
    r.Avoids Z zs := fun y hy => h y (List.mem_append_right _ hy)

/-- Names that have come to stand for some of a list of distinct names stand for none of the others. -/
theorem Rebinds.avoids {xs ys : List VarName} {r r₁ : Renaming} (h : Rebinds xs ys r r₁) (ha : r.Avoids Z (ys ++ zs))
    (hnd : (ys ++ zs).Nodup) : r₁.Avoids (fun x => x ∈ xs ∨ Z x) zs := by
  intro y hy x hx
  by_cases hxs : x ∈ xs
  · obtain ⟨z, hz, e⟩ := h.images x hxs
    rw [e]
    intro he
    cases he
    exact (List.nodup_append.mp hnd).2.2 y hz y hy rfl
  · rw [h.image?_eq hxs]
    exact ha.right y hy x (hx.resolve_left hxs)

theorem bind_renames (r : Renaming) (x : VarName) (e : Expr) (z : VarName) :
    (r.bind x e).renames.get? z = if z = x then some e else r.renames.get? z :=
  NameMap.get?_insert r.renames x e z

theorem image?_bind_self (r : Renaming) (x y : VarName) (t : Ty) : (r.bind x (.var y t)).image? x = some y := by
  rw [image?, bind_renames, if_pos rfl]
  rfl

theorem bind_atomic {r : Renaming} (hr : r.Atomic) (x : VarName) (he : e.isAtom = true) : (r.bind x e).Atomic := by
  intro z e' h
  rw [bind_renames] at h
  split at h
  · cases h
    exact he
  · exact hr z e' h

theorem rebinds_bind (r : Renaming) (x y : VarName) (t : Ty) : Rebinds [x] [y] r (r.bind x (.var y t)) where
  keeps z hz := by rw [bind_renames, if_neg (by simpa using hz)]
  images z hz := by
    rw [List.mem_singleton] at hz
    subst hz
    exact ⟨y, List.mem_cons_self, image?_bind_self r z y t⟩
  atomic hr := bind_atomic hr x rfl

/-- The names `xs` have been given the distinct names `ys`, in order. -/
structure Takes (xs ys : List VarName) (r r' : Renaming) : Prop where
  length : ys.length = xs.length
  nodup : ys.Nodup
  renames : ∀ p ∈ xs.zip ys, ∃ t, r'.renames.get? p.1 = some (.var p.2 t)
  keeps : ∀ x, x ∉ xs → r'.renames.get? x = r.renames.get? x
  atomic : r.Atomic → r'.Atomic

theorem Takes.image {xs ys : List VarName} {r : Renaming} (h : Takes xs ys r r') :
    ∀ p ∈ xs.zip ys, r'.image? p.1 = some p.2 := by
  intro p hp
  obtain ⟨t, ht⟩ := h.renames p hp
  rw [image?, ht]
  rfl

theorem mem_zip_left {β : Type} {xs : List α} {ys : List β} (h : ys.length = xs.length) {x : α} (hx : x ∈ xs) :
    ∃ y ∈ ys, (x, y) ∈ xs.zip ys := by
  induction xs generalizing ys with
  | nil => exact absurd hx List.not_mem_nil
  | cons a xs ih =>
    cases ys with
    | nil => cases h
    | cons b ys =>
      rcases List.mem_cons.mp hx with rfl | hx
      · exact ⟨b, List.mem_cons_self, List.mem_cons_self⟩
      · obtain ⟨y, hy, hm⟩ := ih (Nat.succ.inj h) hx
        exact ⟨y, List.mem_cons_of_mem _ hy, List.mem_cons_of_mem _ hm⟩

theorem Takes.rebinds {xs ys : List VarName} {r : Renaming} (h : Takes xs ys r r') : Rebinds xs ys r r' where
  keeps := h.keeps
  images x hx := by
    obtain ⟨y, hy, hm⟩ := mem_zip_left h.length hx
    exact ⟨y, hy, h.image _ hm⟩
  atomic := h.atomic

end Renaming

/-! ## Distinct names -/

/-- The names `xs` that code binds, and the names `ys` that its copy binds, are distinct from each other
and from the names in use: those in `V`, and what these stand for. -/
structure Hygiene (V : List VarName) (r : Renaming) (xs ys : List VarName) : Prop where
  source : ∀ x ∈ xs, x ∉ V
  sourceNodup : xs.Nodup
  target : r.Avoids (· ∈ V) ys
  targetNodup : ys.Nodup
  atomic : r.Atomic

namespace Hygiene

variable {V V' : List VarName} {r r₁ : Renaming} {xs ys xs1 ys1 xs2 ys2 : List VarName}

theorem perm (h : Hygiene V r xs ys) (hx : xs.Perm xs1) (hy : ys.Perm ys1) : Hygiene V r xs1 ys1 where
  source x hm := h.source x (hx.mem_iff.mpr hm)
  sourceNodup := hx.nodup h.sourceNodup
  target y hm := h.target y (hy.mem_iff.mpr hm)
  targetNodup := hy.nodup h.targetNodup
  atomic := h.atomic

theorem left (h : Hygiene V r (xs1 ++ xs2) (ys1 ++ ys2)) : Hygiene V r xs1 ys1 where
  source x hm := h.source x (List.mem_append_left _ hm)
  sourceNodup := (List.nodup_append.mp h.sourceNodup).1
  target := h.target.left
  targetNodup := (List.nodup_append.mp h.targetNodup).1
  atomic := h.atomic

/-- After the first of two pieces of code, its names are in use as well. -/
theorem next (h : Hygiene V r (xs1 ++ xs2) (ys1 ++ ys2)) (hr : Renaming.Rebinds xs1 ys1 r r₁)
    (hV : ∀ x ∈ V', x ∈ V ∨ x ∈ xs1) : Hygiene V' r₁ xs2 ys2 where
  source x hm hx := by
    rcases hV x hx with hx | hx
    · exact h.source x (List.mem_append_right _ hm) hx
    · exact (List.nodup_append.mp h.sourceNodup).2.2 x hx x hm rfl
  sourceNodup := (List.nodup_append.mp h.sourceNodup).2.1
  target y hm x hx := hr.avoids h.target h.targetNodup y hm x (hV x hx).symm
  targetNodup := (List.nodup_append.mp h.targetNodup).2.1
  atomic := hr.atomic h.atomic

theorem right (h : Hygiene V r (xs1 ++ xs2) (ys1 ++ ys2)) : Hygiene V r xs2 ys2 where
  source x hm := h.source x (List.mem_append_right _ hm)
  sourceNodup := (List.nodup_append.mp h.sourceNodup).2.1
  target := h.target.right
  targetNodup := (List.nodup_append.mp h.targetNodup).2.1
  atomic := h.atomic

/-- Names in use stand for what they did. -/
theorem keeps (h : Hygiene V r xs ys) (hr : Renaming.Rebinds xs ys r r₁) (hx : x ∈ V) :
    r₁.renames.get? x = r.renames.get? x := hr.keeps x fun hm => h.source x hm hx

end Hygiene

/-! ## Copies -/

/-- The merge of the names `ys` whose left and right sides are those of `m` under two renamings. -/
def Merge.copy (m : Merge) (ys : List VarName) (r₁ r₂ : Renaming) : Merge :=
  Pass.joined ys (m.values.map fun p => r₁.subst p.1) (m.values.map fun p => r₂.subst p.2)

namespace Stmt

mutual

/-- `s'` is a copy of the statement, made with names standing for what `r` says; afterwards they stand
for what `r'` says. -/
def Copy : Stmt → Renaming → Stmt → Renaming → Prop
  | assign (.var x t) value, r, s', r' =>
    ∃ y u, s' = assign (.var y t) (r.subst value) ∧ r' = r.bind x (.var y u)
  | assign target value, r, s', r' => s' = assign (r.subst target) (r.subst value) ∧ r' = r
  | ret value, r, s', r' => s' = ret (r.subst value) ∧ r' = r
  | ite c yes no m, r, s', r' =>
    ∃ yes' r₁ no' r₂ ys, blockCopy yes r yes' r₁ ∧ blockCopy no r₁ no' r₂ ∧ Renaming.Takes m.keys ys r₂ r' ∧
      s' = ite (r.subst c) yes' no' (m.copy ys r₁ r₂)
  | whileLoop c body m, r, s', r' =>
    ∃ ys r₁ body', Renaming.Takes m.keys ys r r₁ ∧ blockCopy body r₁ body' r' ∧
      s' = whileLoop (r₁.subst c) body' (m.copy ys r r')
  | forLoop c body m, r, s', r' =>
    ∃ ys r₁ y u body', Renaming.Takes m.keys ys r r₁ ∧ blockCopy body (r₁.bind c.var (.var y u)) body' r' ∧
      s' = forLoop ⟨y, r.subst c.start, r.subst c.stop, r.subst c.step⟩ body' (m.copy ys r r')

def blockCopy : List Stmt → Renaming → List Stmt → Renaming → Prop
  | [], r, ss', r' => ss' = [] ∧ r' = r
  | s :: ss, r, ss', r' => ∃ t r₁ ts, s.Copy r t r₁ ∧ blockCopy ss r₁ ts r' ∧ ss' = t :: ts

end

end Stmt

namespace Merge

theorem length_values (m : Merge) : m.values.length = m.keys.length := by
  rw [NameMap.values, NameMap.keys, List.length_map, List.length_map]

/-- The entries of a copied merge, in the order of the names that the new ones stand for. -/
def copyEntries (m : Merge) (ys : List VarName) (r₁ r₂ : Renaming) : List (VarName × Expr × Expr) :=
  ys.zip ((m.values.map fun p => r₁.subst p.1).zip (m.values.map fun p => r₂.subst p.2))

variable {m : Merge} {ys : List VarName}

theorem map_fst_copyEntries (h : ys.length = m.keys.length) (r₁ r₂ : Renaming) :
    (m.copyEntries ys r₁ r₂).map (·.1) = ys := by
  refine List.map_fst_zip ?_
  rw [List.length_zip, List.length_map, List.length_map, length_values, h]
  omega

theorem copy_perm (h : ys.length = m.keys.length) (hnd : ys.Nodup)
    (r₁ r₂ : Renaming) : (m.copy ys r₁ r₂).toList.Perm (m.copyEntries ys r₁ r₂) := by
  show (NameMap.ofList (m.copyEntries ys r₁ r₂)).toList.Perm _
  exact NameMap.toList_ofList_perm ((map_fst_copyEntries h r₁ r₂).symm ▸ hnd)

theorem keys_copy_perm (h : ys.length = m.keys.length) (hnd : ys.Nodup)
    (r₁ r₂ : Renaming) : (m.copy ys r₁ r₂).keys.Perm ys := by
  have := (copy_perm h hnd r₁ r₂).map (·.1)
  rwa [map_fst_copyEntries h] at this

theorem copyEntries_aligned (h : ys.length = m.keys.length) (hR : ∀ p ∈ m.keys.zip ys, R p.1 p.2) (r₁ r₂ : Renaming) :
    List.Forall₂ (fun p q => R p.1 q.1 ∧ q.2 = (r₁.subst p.2.1, r₂.subst p.2.2)) m.toList
      (m.copyEntries ys r₁ r₂) := by
  unfold copyEntries NameMap.values
  unfold NameMap.keys at h hR
  unfold NameMap.toList
  generalize m.entries = es at h hR
  induction es generalizing ys with
  | nil =>
    rw [List.eq_nil_of_length_eq_zero h]
    exact .nil
  | cons e es ih =>
    cases ys with
    | nil => cases h
    | cons y ys =>
      have h' : ys.length = (es.map (·.1)).length := Nat.succ.inj h
      exact .cons ⟨hR (e.1, y) List.mem_cons_self, rfl⟩ (ih h' fun p hp => hR p (List.mem_cons_of_mem _ hp))

end Merge

/-- What cannot be assigned to cannot be assigned to under other names. -/
theorem Renaming.subst_isTarget (r : Renaming) (h : e.isTarget = false) : (r.subst e).isTarget = false := by
  rw [subst_eq r (fun x t he => by subst he; cases h)]
  cases e with
  | var x t => cases h
  | index a i t => cases h
  | reduce f c init args axis t => cases init <;> rfl
  | scan f c e init args axis t => cases init <;> rfl
  | _ => rfl

namespace Stmt

open Renaming

theorem binds_assign {t v : Expr} (h : t.isTarget = false) : (assign t v).binds = [] := by
  cases t with
  | var x u => cases h
  | _ => rfl

mutual

theorem Copy.rebinds : ∀ {s s' : Stmt} {r r' : Renaming}, s.Copy r s' r' → Rebinds s.binds s'.binds r r'
  | assign target value, s', r, r', h => by
    cases target with
    | var x t =>
      obtain ⟨y, u, rfl, rfl⟩ := h
      exact rebinds_bind r x y u
    | index a i t =>
      obtain ⟨rfl, rfl⟩ := h
      exact .nil r'
    | _ =>
      obtain ⟨rfl, rfl⟩ := h
      rw [binds_assign rfl, binds_assign (subst_isTarget r' rfl)]
      exact .nil r'
  | ret _, s', r, r', h => by
    obtain ⟨rfl, rfl⟩ := h
    exact .nil r'
  | ite c yes no m, s', r, r', h => by
    obtain ⟨yes', r₁, no', r₂, ys, hy, hn, ht, rfl⟩ := h
    exact (hy.rebinds.append hn.rebinds).append (ht.rebinds.perm (.refl _)
      (Merge.keys_copy_perm ht.length ht.nodup _ _).symm)
  | whileLoop c body m, s', r, r', h => by
    obtain ⟨ys, r₁, body', ht, hb, rfl⟩ := h
    exact (ht.rebinds.perm (.refl _) (Merge.keys_copy_perm ht.length ht.nodup _ _).symm).append hb.rebinds
  | forLoop c body m, s', r, r', h => by
    obtain ⟨ys, r₁, y, u, body', ht, hb, rfl⟩ := h
    have hm := ht.rebinds.perm (.refl _) (Merge.keys_copy_perm ht.length ht.nodup r r').symm
    exact (hm.append ((rebinds_bind r₁ c.var y u).append hb.rebinds)).perm List.perm_middle List.perm_middle

theorem blockCopy.rebinds : ∀ {ss ss' : List Stmt} {r r' : Renaming}, blockCopy ss r ss' r' →
    Rebinds (blockBinds ss) (blockBinds ss') r r'
  | [], ss', r, r', h => by
    obtain ⟨rfl, rfl⟩ := h
    exact .nil r'
  | s :: ss, ss', r, r', h => by
    obtain ⟨t, r₁, ts, hs, hss, rfl⟩ := h
    exact hs.rebinds.append hss.rebinds

end

mutual

/-- A copy returns where the statement does. -/
theorem Copy.returns : ∀ {s s' : Stmt} {r r' : Renaming}, s.Copy r s' r' → s'.returns = s.returns
  | assign target value, s', r, r', h => by
    cases target with
    | var x t =>
      obtain ⟨y, u, rfl, -⟩ := h
      rfl
    | _ =>
      obtain ⟨rfl, -⟩ := h
      rfl
  | ret _, s', r, r', h => by
    obtain ⟨rfl, -⟩ := h
    rfl
  | ite c yes no m, s', r, r', h => by
    obtain ⟨yes', r₁, no', r₂, ys, hy, hn, -, rfl⟩ := h
    rw [Stmt.returns, Stmt.returns, hy.returns, hn.returns]
  | whileLoop c body m, s', r, r', h => by
    obtain ⟨ys, r₁, body', -, hb, rfl⟩ := h
    exact hb.returns
  | forLoop c body m, s', r, r', h => by
    obtain ⟨ys, r₁, y, u, body', -, hb, rfl⟩ := h
    exact hb.returns

theorem blockCopy.returns : ∀ {ss ss' : List Stmt} {r r' : Renaming}, blockCopy ss r ss' r' →
    blockReturns ss' = blockReturns ss
  | [], ss', r, r', h => by
    obtain ⟨rfl, -⟩ := h
    rfl
  | s :: ss, ss', r, r', h => by
    obtain ⟨t, r₁, ts, hs, hss, rfl⟩ := h
    rw [blockReturns, blockReturns, hs.returns, hss.returns]

end

end Stmt

/-! ## Names of control flow -/

/-- Beside `ks` the names `W` are among `V`, stand for what they did, and for none of `ys`. -/
def Renaming.Passes (r r' : Renaming) (V W ks ys : List VarName) : Prop :=
  ∀ x ∈ W, x ∉ ks → x ∈ V ∧ r'.renames.get? x = r.renames.get? x ∧ ∀ y ∈ ys, r.image? x ≠ some y

namespace Hygiene

variable {V ys : List VarName} {r r₁ r₂ r' : Renaming} {m : Merge}

/-- The names of two branches, and those that get past the merge after either of them. -/
theorem ite {c c' : Expr} {yes no yes' no' : List Stmt}
    (h : Hygiene V r (Stmt.ite c yes no m).binds (Stmt.ite c' yes' no' (m.copy ys r₁ r₂)).binds)
    (hyes : Stmt.blockCopy yes r yes' r₁) (hno : Stmt.blockCopy no r₁ no' r₂) (ht : Renaming.Takes m.keys ys r₂ r') :
    Hygiene V r (Stmt.blockBinds yes) (Stmt.blockBinds yes') ∧ Hygiene V r₁ (Stmt.blockBinds no) (Stmt.blockBinds no') ∧
      (∀ V1, Stmt.blockAfter yes V = some V1 → ∃ W, (Stmt.ite c yes no m).after V = some W ∧
        r₁.Passes r' V1 W m.keys ys) ∧
      ∀ V2, Stmt.blockAfter no V = some V2 → ∃ W, (Stmt.ite c yes no m).after V = some W ∧
        r₂.Passes r' V2 W m.keys ys := by
  have hkeys := Merge.keys_copy_perm ht.length ht.nodup r₁ r₂
  have hy : Hygiene V r (Stmt.blockBinds yes ++ (Stmt.blockBinds no ++ m.keys))
      (Stmt.blockBinds yes' ++ (Stmt.blockBinds no' ++ ys)) :=
    h.perm (by rw [Stmt.binds, List.append_assoc])
      (by rw [Stmt.binds, List.append_assoc]; exact .append_left _ (.append_left _ hkeys))
  have hyn : Hygiene V r₁ (Stmt.blockBinds no ++ m.keys) (Stmt.blockBinds no' ++ ys) :=
    hy.next hyes.rebinds fun x hx => .inl hx
  have left : ∀ {V1 W : List VarName}, Stmt.blockAfter yes V = some V1 → (∀ x ∈ W, x ∉ m.keys → x ∈ V1) →
      r₁.Passes r' V1 W m.keys ys := by
    intro V1 W h1 hW x hx hn
    have hy1 := hy.next hyes.rebinds (Stmt.blockAfter_mem h1).2
    have hx1 := hW x hx hn
    exact ⟨hx1, hy1.keeps (hno.rebinds.append ht.rebinds) hx1, fun y hy => hy1.right.target y hy x hx1⟩
  have right : ∀ {V2 W : List VarName}, Stmt.blockAfter no V = some V2 → (∀ x ∈ W, x ∉ m.keys → x ∈ V2) →
      r₂.Passes r' V2 W m.keys ys := by
    intro V2 W h2 hW x hx hn
    have hy2 := hyn.next hno.rebinds (Stmt.blockAfter_mem h2).2
    have hx2 := hW x hx hn
    exact ⟨hx2, hy2.keeps ht.rebinds hx2, fun y hy => hy2.target y hy x hx2⟩
  refine ⟨hy.left, hyn.left, fun V1 h1 => ?_, fun V2 h2 => ?_⟩
  · cases h2 : Stmt.blockAfter no V <;> rw [Stmt.after, h1, h2]
    · exact ⟨_, rfl, left h1 fun x hx hn => (List.mem_append.mp hx).resolve_left hn⟩
    · exact ⟨_, rfl, left h1 fun x hx hn => (List.mem_filter.mp ((List.mem_append.mp hx).resolve_left hn)).1⟩
  · cases h1 : Stmt.blockAfter yes V <;> rw [Stmt.after, h1, h2]
    · exact ⟨_, rfl, right h2 fun x hx hn => (List.mem_append.mp hx).resolve_left hn⟩
    · exact ⟨_, rfl, right h2 fun x hx hn => of_decide_eq_true
        (List.mem_filter.mp ((List.mem_append.mp hx).resolve_left hn)).2⟩

/-- The names of a loop, whose body binds `cs` first: those of its body, and those that get past the merge on entry and
from one iteration to the next. -/
theorem loop {cs : List VarName} {body body' : List Stmt}
    (h : Hygiene V r (m.keys ++ (cs ++ Stmt.blockBinds body)) (ys ++ (zs ++ Stmt.blockBinds body')))
    (ht : Renaming.Takes m.keys ys r r₁) (hc : Renaming.Rebinds cs zs r₁ r₂) (hb : Stmt.blockCopy body r₂ body' r') :
    Hygiene (m.keys ++ V) r₁ cs zs ∧ Hygiene (cs ++ (m.keys ++ V)) r₂ (Stmt.blockBinds body) (Stmt.blockBinds body') ∧
      r.Passes r₁ V (m.keys ++ V) m.keys ys ∧
      (∀ W, Stmt.blockAfter body (cs ++ (m.keys ++ V)) = some W → r'.Passes r₁ W (m.keys ++ V) m.keys ys) ∧
      ∀ x ∈ m.keys ++ V, r'.renames.get? x = r₁.renames.get? x := by
  have hy : Hygiene (m.keys ++ V) r₁ (cs ++ Stmt.blockBinds body) (zs ++ Stmt.blockBinds body') :=
    h.next ht.rebinds fun x hx => (List.mem_append.mp hx).symm
  have hkeep : ∀ x ∈ m.keys ++ V, r'.renames.get? x = r₁.renames.get? x :=
    fun x hx => hy.keeps (hc.append hb.rebinds) hx
  refine ⟨hy.left, hy.next hc fun x hx => (List.mem_append.mp hx).symm, fun x hx hn => ?_,
    fun W hW x hx hn => ?_, hkeep⟩
  · have hxV := (List.mem_append.mp hx).resolve_left hn
    exact ⟨hxV, ht.keeps x hn, fun y hym => h.left.target y hym x hxV⟩
  · refine ⟨(Stmt.blockAfter_mem hW).1 x (List.mem_append_right _ hx), (hkeep x hx).symm, fun y hym => ?_⟩
    rw [Renaming.image?, hkeep x hx, ← Renaming.image?, ht.rebinds.image?_eq hn]
    exact h.left.target y hym x ((List.mem_append.mp hx).resolve_left hn)

end Hygiene

/-! ## Merges that can be evaluated in any order -/

/-- The order of evaluation does not matter: there is one entry at most, or the sides are quiet. -/
def Merge.Commutes (call : Caller) (m : Merge) : Prop :=
  m.toList.length ≤ 1 ∨ ∀ e ∈ m.exprs, Eval.Quiet call e

mutual

/-- All merges of the statement can be evaluated in any order. -/
def Stmt.Commutes (call : Caller) : Stmt → Prop
  | .assign _ _ | .ret _ => True
  | .ite _ yes no m => m.Commutes call ∧ blockCommutes call yes ∧ blockCommutes call no
  | .whileLoop _ body m | .forLoop _ body m => m.Commutes call ∧ blockCommutes call body

def Stmt.blockCommutes (call : Caller) : List Stmt → Prop
  | [] => True
  | s :: ss => s.Commutes call ∧ blockCommutes call ss

end

theorem perm_eq_of_length_le_one {xs ys : List α} (h : xs.Perm ys) (hl : xs.length ≤ 1) : xs = ys := by
  match xs, hl with
  | [], _ => exact (List.nil_perm.mp h).symm
  | [x], _ => exact List.singleton_perm.mp h

namespace Eval

variable {k : Likeness} {call : Caller} {V : VarName → Prop} {r : Renaming}

theorem expr_copy (hcall : CallersAlike k call call) (hr : r.Atomic) (ha : k.Admits e) (he : ∀ x ∈ e.reads, V x) :
    Across k (.names k V r) (Likes k) (expr call · e) (expr call · (r.subst e)) :=
  fun _ _ _ hL => expr_inStep (fun _ => hcall) e ha hr (Link.names.readsAlike hL he)

variable {m' m : Merge} {ds : List (VarName × Expr × Expr)}

/-- One side of a merge and of its copy, evaluated each in its own order. -/
theorem mergeValues_copy (hcall : CallersAlike k call call) (hr : r.Atomic) (hside : ∀ p ∈ m.values, side p ∈ m.exprs)
    (ha : ∀ e ∈ m.exprs, k.Admits e) (hV : ∀ p ∈ m.values, ∀ x ∈ (side p).reads, V x) (hc : m.Commutes call)
    (hperm : m'.toList.Perm ds)
    (hal : List.Forall₂ (fun p q => R p.1 q.1 ∧ side q.2 = r.subst (side p.2)) m.toList ds) :
    Across k (.names k V r)
      (fun w vs us => ∃ us', us.Perm us' ∧ List.Forall₂ (fun p q => R p.1 q.1 ∧ Likes k w p.2 q.2) vs us' ∧
        vs.map (·.1) = m.toList.map (·.1) ∧ us'.map (·.1) = ds.map (·.1))
      (mergeValues call · side m.toList) (mergeValues call · side m'.toList) := by
  have hval : ∀ p ∈ m.toList, p.2 ∈ m.values := fun p hp => List.mem_map.mpr ⟨p, hp, rfl⟩
  have hexpr : ∀ p ∈ m.toList, Across k (.names k V r) (Likes k) (expr call · (side p.2))
      (expr call · (r.subst (side p.2))) := fun p hp =>
    expr_copy hcall hr (ha _ (hside _ (hval p hp))) (hV _ (hval p hp))
  have hal' : List.Forall₂ (fun p q => (R p.1 q.1 ∧ side q.2 = r.subst (side p.2)) ∧ p ∈ m.toList) m.toList ds :=
    List.forall₂_iff_zip.mpr ⟨hal.length_eq, fun hpq => ⟨(List.forall₂_iff_zip.mp hal).2 hpq, (List.of_mem_zip hpq).1⟩⟩
  rcases hc with hlen | hq
  · -- there is but one order
    have hlen' : m'.toList.length ≤ 1 := by rw [hperm.length_eq, ← hal.length_eq]; exact hlen
    rw [perm_eq_of_length_le_one hperm hlen']
    intro w L L' hL
    refine (mergeValues_across (R := R) (hal'.imp fun p q h => ⟨h.1.1, ?_⟩) hL).mono
      fun w' vs us _ h => ⟨us, .refl _, h.1, h.2.1, h.2.2⟩
    rw [h.1.2]
    exact hexpr p h.2
  · intro w L L' hL st st' hst
    show Outcome w _ (mergeValues call L side m.toList st) (mergeValues call L' side m'.toList st')
    rw [mergeValues_eq_inTurn, mergeValues_eq_inTurn]
    have hqp : List.Forall₂ (fun c d => R c.1 d.1 ∧ QuietPair k w st st' c d)
        (m.toList.map fun p => (p.1, expr call L (side p.2))) (ds.map fun q => (q.1, expr call L' (side q.2))) := by
      rw [List.forall₂_map_left_iff, List.forall₂_map_right_iff]
      refine hal'.imp fun p q h => ⟨h.1.1, ?_⟩
      have hm := hside _ (hval p h.2)
      have hreads := Link.names.readsAlike hL (hV _ (hval p h.2))
      rw [h.1.2]
      exact ⟨fun hle => hexpr p h.2 ((Link.names k V r).mono hle hL), fun s v t _ => hq _ hm L s v t,
        fun s v t hs => Quiet.subst hcall (hq _ hm) (ha _ hm) hr hreads (hst.right ▸ hs.size)⟩
    refine (inTurn_perm hst hqp (hperm.map _)).mono le_rfl fun w' vs _ us _ _ h => ⟨h.1, ?_⟩
    obtain ⟨us', hp, hf, hn, hn'⟩ := h.2
    rw [List.map_map] at hn hn'
    exact ⟨us', hp, hf, hn, hn'⟩

/-- Binding the names of a merge, and of its copy. -/
theorem bindMerge_copy (hcall : CallersAlike k call call) (hr : r.Atomic) (hside : ∀ p ∈ m.values, side p ∈ m.exprs)
    (ha : ∀ e ∈ m.exprs, k.Admits e) (hV : ∀ p ∈ m.values, ∀ x ∈ (side p).reads, V x) (hc : m.Commutes call)
    {r' : Renaming} (hperm : m'.toList.Perm ds) (hnd : (ds.map (·.1)).Nodup)
    (hal : List.Forall₂ (fun p q => r'.image? p.1 = some q.1 ∧ side q.2 = r.subst (side p.2)) m.toList ds)
    {V' : VarName → Prop}
    (hV' : ∀ x, V' x → x ∉ m.keys → V x ∧ r'.renames.get? x = r.renames.get? x ∧
      ∀ y ∈ ds.map (·.1), r.image? x ≠ some y) :
    Across k (.names k V r) (Link.names k V' r').holds (bindMerge call m side) (bindMerge call m' side) := by
  intro w L L' hL
  refine (mergeValues_copy hcall hr hside ha hV hc (R := fun x y => r'.image? x = some y) hperm hal hL).bind
    fun w1 vs us hle h => ?_
  obtain ⟨us', hp, hf, hn, hn'⟩ := h
  have hnd' : (us'.map (·.1)).Nodup := hn' ▸ hnd
  have hnd'' : (us.map (·.1)).Nodup := (hp.map _).nodup_iff.mpr hnd'
  rw [NameMap.insertAll_perm hp hnd'']
  refine .pure (Link.names.insertAll ((Link.names k V r).mono hle hL) hf ?_ hnd' fun x hx hm => ?_)
  · rw [hn]
    exact m.keys_nodup
  · rw [hn] at hm
    rw [hn']
    exact hV' x hx hm

end Eval

/-! ## Copies simulate -/

/-- The names defined at a point have values alike to those of what they stand for; `none` is for a point
that is never reached. -/
def Link.scope (k : Likeness) (r : Renaming) : Option (List VarName) → Link
  | some V => .names k (· ∈ V) r
  | none => .never

theorem Link.names.insert {k : Likeness} {w : Pairing} {L L' : Locals} {V V' : VarName → Prop} {r r' : Renaming}
    (h : (Link.names k V r).holds w L L') {y : VarName} {v u : Value} (hy : r'.image? x = some y) (hv : Likes k w v u)
    (hV : ∀ z, V' z → z ≠ x → V z ∧ r'.renames.get? z = r.renames.get? z ∧ r.image? z ≠ some y) :
    (Link.names k V' r').holds w (L.insert x v) (L'.insert y u) := by
  have hvs : List.Forall₂ (fun p q : VarName × Value => r'.image? p.1 = some q.1 ∧
      Likes k w p.2 q.2) [(x, v)] [(y, u)] :=
    .cons ⟨hy, hv⟩ .nil
  refine Link.names.insertAll h hvs (by simp) (by simp) fun z hz hn => ?_
  obtain ⟨h1, h2, h3⟩ := hV z hz (by simpa using hn)
  exact ⟨h1, h2, by simpa using h3⟩

theorem Merge.fst_mem_exprs {m : Merge} : ∀ p ∈ m.values, p.1 ∈ m.exprs :=
  fun p hp => List.mem_flatMap.mpr ⟨p, hp, by simp⟩

theorem Merge.snd_mem_exprs {m : Merge} : ∀ p ∈ m.values, p.2 ∈ m.exprs :=
  fun p hp => List.mem_flatMap.mpr ⟨p, hp, by simp⟩

theorem Stmt.sideWithin_some {m : Merge} {V : List VarName}
    (h : sideWithin m side (some V) = true) : ∀ p ∈ m.values, ∀ x ∈ (side p).reads, x ∈ V :=
  fun p hp => Expr.within_iff.mp (List.all_eq_true.mp h p hp)

namespace Eval

variable {k : Likeness} {call : Caller} {fuel : Nat}

/-- One side of a merge and of its copy, whose sides are made under two renamings. -/
theorem bindMerge_copied (hcall : CallersAlike k call call) {m : Merge} {ys : List VarName} {q r r₁ r₂ r' : Renaming}
    (hside : ∀ p, side (r₁.subst p.1, r₂.subst p.2) = r.subst (side p)) (hmem : ∀ p ∈ m.values, side p ∈ m.exprs)
    {V V' : List VarName} (hr : r.Atomic) (ht : Renaming.Takes m.keys ys q r') (ha : ∀ e ∈ m.exprs, k.Admits e)
    (hV : Stmt.sideWithin m side (some V) = true) (hc : m.Commutes call) (hV' : r.Passes r' V V' m.keys ys) :
    Across k (.names k (· ∈ V) r) (Link.names k (· ∈ V') r').holds (bindMerge call m side)
      (bindMerge call (m.copy ys r₁ r₂) side) := by
  have hal : List.Forall₂ (fun p q => r'.image? p.1 = some q.1 ∧ side q.2 = r.subst (side p.2)) m.toList
      (m.copyEntries ys r₁ r₂) :=
    (Merge.copyEntries_aligned (R := fun x y => r'.image? x = some y) ht.length ht.image r₁ r₂).imp
      fun p q h => ⟨h.1, by rw [h.2, hside]⟩
  have hkeys := Merge.map_fst_copyEntries ht.length r₁ r₂
  refine bindMerge_copy hcall hr hmem ha (Stmt.sideWithin_some hV) hc
    (Merge.copy_perm ht.length ht.nodup r₁ r₂) (hkeys.symm ▸ ht.nodup) hal fun x hx hn => ?_
  rw [hkeys]
  exact hV' x hx hn

mutual

/-- A copy of a statement simulates the statement. -/
theorem copy_stmt_sim (hcall : CallersAlike k call call) : ∀ {s s' : Stmt} {r r' : Renaming} {V : List VarName},
    s.Copy r s' r' → Hygiene V r s.binds s'.binds → s.wellScoped V = true → k.AdmitsStmt s → s.Commutes call →
      Sim k (.names k (· ∈ V) r) (fun _ _ => True) (stmt call fuel s) (stmt call fuel s') (.scope k r' (s.after V))
  | .assign target value, s', r, r', V, hcopy, hy, hs, ha, _ => by
    rw [Stmt.wellScoped, Bool.and_eq_true] at hs
    have hv := expr_copy hcall hy.atomic ha.1 (Expr.within_iff.mp hs.1)
    cases target with
    | var x t =>
      obtain ⟨y, u, rfl, rfl⟩ := hcopy
      refine .assignVar hv fun hL hab => Link.names.insert hL (Renaming.image?_bind_self r x y u) hab fun z hz hne => ?_
      have hzV : z ∈ V := (List.mem_cons.mp hz).resolve_left hne
      exact ⟨hzV, by rw [Renaming.bind_renames, if_neg hne], hy.target y List.mem_cons_self z hzV⟩
    | index a i t =>
      obtain ⟨rfl, rfl⟩ := hcopy
      obtain ⟨hk, hst, haa, hai⟩ := ha.2
      obtain ⟨hsa, hsi⟩ := Bool.and_eq_true_iff.mp hs.2
      exact .assignIndex hk hst hv (expr_copy hcall hy.atomic haa (Expr.within_iff.mp hsa))
        (expr_copy hcall hy.atomic hai (Expr.within_iff.mp hsi))
    | _ =>
      obtain ⟨rfl, rfl⟩ := hcopy
      exact .assignFails hv rfl (Renaming.subst_isTarget r' rfl)
  | .ret value, s', r, r', V, hcopy, hy, hs, ha, _ => by
    obtain ⟨rfl, rfl⟩ := hcopy
    exact .ret (expr_copy hcall hy.atomic ha (Expr.within_iff.mp hs))
  | .ite c yes no m, s', r, r', V, hcopy, hy, hs, ha, hc => by
    obtain ⟨yes', r₁, no', r₂, ys, hyes, hno, ht, rfl⟩ := hcopy
    simp only [Stmt.wellScoped, Bool.and_eq_true] at hs
    obtain ⟨⟨⟨⟨hsc, hsy⟩, hsn⟩, hsl⟩, hsr⟩ := hs
    obtain ⟨hac, ham, hay, han⟩ := ha
    obtain ⟨hyy, hyn, hleft, hright⟩ := hy.ite hyes hno ht
    have left : Across k (.scope k r₁ (Stmt.blockAfter yes V)) (Link.scope k r' ((Stmt.ite c yes no m).after V)).holds
        (bindMerge call m Prod.fst) (bindMerge call (m.copy ys r₁ r₂) Prod.fst) := by
      cases h1 : Stmt.blockAfter yes V with
      | none => exact fun _ _ _ h => h.elim
      | some V1 =>
        obtain ⟨W, hW, hpass⟩ := hleft V1 h1
        rw [hW]
        exact bindMerge_copied hcall (fun _ => rfl) Merge.fst_mem_exprs hyn.atomic ht ham (h1 ▸ hsl) hc.1 hpass
    have right : Across k (.scope k r₂ (Stmt.blockAfter no V)) (Link.scope k r' ((Stmt.ite c yes no m).after V)).holds
        (bindMerge call m Prod.snd) (bindMerge call (m.copy ys r₁ r₂) Prod.snd) := by
      cases h2 : Stmt.blockAfter no V with
      | none => exact fun _ _ _ h => h.elim
      | some V2 =>
        obtain ⟨W, hW, hpass⟩ := hright V2 h2
        rw [hW]
        exact bindMerge_copied hcall (fun _ => rfl) Merge.snd_mem_exprs
          (hno.rebinds.atomic hyn.atomic) ht ham (h2 ▸ hsr) hc.1 hpass
    have hsim2 : Sim k (.names k (· ∈ V) r) (fun _ _ => True) (block call fuel no) (block call fuel no')
        (.scope k r₂ (Stmt.blockAfter no V)) :=
      (copy_block_sim hcall hno hyn hsn han hc.2.2).mono
        (fun hL => Link.names.weaken hL fun x hx => ⟨hx, hyy.keeps hyes.rebinds hx⟩) id id
    exact (Sim.ite (expr_copy hcall hy.atomic hac (Expr.within_iff.mp hsc))
      (copy_block_sim hcall hyes hyy hsy hay hc.2.1) hsim2
      left right).mono id (fun _ b _ _ => by cases b <;> trivial) id
  | .whileLoop c body m, s', r, r', V, hcopy, hy, hs, ha, hc => by
    obtain ⟨ys, r₁, body', ht, hb, rfl⟩ := hcopy
    simp only [Stmt.wellScoped, Bool.and_eq_true] at hs
    obtain ⟨⟨⟨hse, hsc⟩, hsb⟩, hsr⟩ := hs
    obtain ⟨hac, ham, hab⟩ := ha
    have hkeys := Merge.keys_copy_perm ht.length ht.nodup r r'
    have hy' : Hygiene V r (m.keys ++ ([] ++ Stmt.blockBinds body)) (ys ++ ([] ++ Stmt.blockBinds body')) :=
      hy.perm (.refl _) (.append_right _ hkeys)
    obtain ⟨-, hyb, hfirst, hagain, hkeep⟩ := hy'.loop ht (.nil r₁) hb
    have hback : Across k (.scope k r' (Stmt.blockAfter body (m.keys ++ V))) (Link.names k (· ∈ m.keys ++ V) r₁).holds
        (bindMerge call m Prod.snd) (bindMerge call (m.copy ys r r') Prod.snd) := by
      cases hafter : Stmt.blockAfter body (m.keys ++ V) with
      | none => exact fun _ _ _ h => h.elim
      | some W =>
        exact bindMerge_copied hcall (fun _ => rfl) Merge.snd_mem_exprs
          (hb.rebinds.atomic hyb.atomic) ht ham (hafter ▸ hsr) hc.1 (hagain W hafter)
    refine (Sim.whileLoop (bindMerge_copied hcall (fun _ => rfl) Merge.fst_mem_exprs hy.atomic ht ham hse hc.1 hfirst)
      (expr_copy hcall hyb.atomic hac (Expr.within_iff.mp hsc)) (copy_block_sim hcall hb hyb hsb hab hc.2)
      hback).mono id (fun _ _ _ _ => IterateGuard.trivial _ _ _ _ _ _) fun hL => ?_
    exact Link.names.weaken hL fun x hx => ⟨hx, hkeep x hx⟩
  | .forLoop c body m, s', r, r', V, hcopy, hy, hs, ha, hc => by
    obtain ⟨ys, r₁, y, u, body', ht, hb, rfl⟩ := hcopy
    simp only [Stmt.wellScoped, Bool.and_eq_true] at hs
    obtain ⟨⟨⟨⟨⟨hs1, hs2⟩, hs3⟩, hse⟩, hsb⟩, hsr⟩ := hs
    obtain ⟨ha1, ha2, ha3, ham, hab⟩ := ha
    have hkeys := Merge.keys_copy_perm ht.length ht.nodup r r'
    have hbind := Renaming.rebinds_bind r₁ c.var y u
    have hy' : Hygiene V r (m.keys ++ ([c.var] ++ Stmt.blockBinds body)) (ys ++ ([y] ++ Stmt.blockBinds body')) :=
      hy.perm List.perm_middle.symm ((List.Perm.cons y (.append_right _ hkeys)).trans List.perm_middle.symm)
    obtain ⟨hyv, hyb, hfirst, hagain, hkeep⟩ := hy'.loop ht hbind hb
    have hback : Across k (.scope k r' (Stmt.blockAfter body (c.var :: (m.keys ++ V))))
        (Link.names k (· ∈ m.keys ++ V) r₁).holds (bindMerge call m Prod.snd)
        (bindMerge call (m.copy ys r r') Prod.snd) := by
      cases hafter : Stmt.blockAfter body (c.var :: (m.keys ++ V)) with
      | none => exact fun _ _ _ h => h.elim
      | some W =>
        exact bindMerge_copied hcall (fun _ => rfl) Merge.snd_mem_exprs
          (hb.rebinds.atomic hyb.atomic) ht ham (hafter ▸ hsr) hc.1 (hagain W hafter)
    have hheader : Across k (.names k (· ∈ V) r) (fun _ => Eq) (header call · c)
        (header call · ⟨y, r.subst c.start, r.subst c.stop, r.subst c.step⟩) := Sim.header
      (expr_copy hcall hy.atomic ha1 (Expr.within_iff.mp hs1)) (expr_copy hcall hy.atomic ha2 (Expr.within_iff.mp hs2))
      (expr_copy hcall hy.atomic ha3 (Expr.within_iff.mp hs3))
    refine (Sim.forLoop hheader
      (bindMerge_copied hcall (fun _ => rfl) Merge.fst_mem_exprs hy.atomic ht ham hse hc.1 hfirst)
      (fun i => ?_) hback).mono id (fun _ _ _ _ _ _ _ => RepeatGuard.trivial _ _ _ _ _ _ _ _) fun hL => ?_
    · intro w L st L' st' hst hL _
      refine copy_block_sim hcall hb hyb hsb hab hc.2 w _ st _ st' hst ?_ trivial
      refine Link.names.insert hL (Renaming.image?_bind_self r₁ c.var y u) rfl fun z hz hne => ?_
      have hzV := (List.mem_cons.mp hz).resolve_left hne
      exact ⟨hzV, by rw [Renaming.bind_renames, if_neg hne], hyv.target y List.mem_cons_self z hzV⟩
    · exact Link.names.weaken hL fun x hx => ⟨hx, hkeep x hx⟩

theorem copy_block_sim (hcall : CallersAlike k call call) : ∀ {ss ss' : List Stmt} {r r' : Renaming} {V : List VarName},
    Stmt.blockCopy ss r ss' r' → Hygiene V r (Stmt.blockBinds ss) (Stmt.blockBinds ss') →
    Stmt.blockWellScoped ss V = true → k.AdmitsBlock ss → Stmt.blockCommutes call ss →
      Sim k (.names k (· ∈ V) r) (fun _ _ => True) (block call fuel ss) (block call fuel ss')
        (.scope k r' (Stmt.blockAfter ss V))
  | [], ss', r, r', V, hcopy, _, _, _, _ => by
    obtain ⟨rfl, rfl⟩ := hcopy
    exact .nil id
  | s :: ss, ss', r, r', V, hcopy, hy, hs, ha, hc => by
    obtain ⟨t, r₁, ts, hst, hsst, rfl⟩ := hcopy
    rw [Stmt.blockWellScoped, Bool.and_eq_true] at hs
    have h1 := copy_stmt_sim hcall hst hy.left hs.1 ha.1 hc.1
    rw [Stmt.blockAfter]
    cases hafter : s.after V with
    | none =>
      rw [hafter] at h1
      have h2 : Sim k .never (fun _ _ => True) (block call fuel ss) (block call fuel ts) .never := .ofNever
      exact (h1.cons h2).mono id (fun _ => ⟨trivial, fun _ _ _ => trivial⟩) id
    | some V1 =>
      rw [hafter] at h1 hs
      have h2 := copy_block_sim hcall hsst (hy.next hst.rebinds (Stmt.after_mem hafter).2) hs.2 ha.2 hc.2
      exact (h1.cons h2).mono id (fun _ => ⟨trivial, fun _ _ _ => trivial⟩) id

end

end Eval

end ArrayIR
