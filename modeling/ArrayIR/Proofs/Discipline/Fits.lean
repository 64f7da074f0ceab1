/-
  ArrayIR.Proofs.Discipline.Fits — code that keeps to a rule.

  A rule says which nodes may stand in expressions, which expressions are conditions
  of `while` loops, which names a merge or a loop may bind, and which assignments
  there may be. Code fits a rule in a scope when all of it does, and every name it
  reads is in scope there. Scopes are lexical: what a branch defines is seen in the
  branch and on its side of the merge, what a loop's body defines and the counter are
  seen in the body and along the back edge, and the names of a merge are seen in the
  condition and the body of its loop and after the statement.

  In the scope of all names only the rule is left (`Stmt.blockFits_univ`).
-/

import ArrayIR.Proofs.Held
import Mathlib.Data.Set.Basic

namespace ArrayIR

/-- The names of `V` and those of `xs`. -/
def extend (V : Set VarName) (xs : List VarName) : Set VarName := {x | x ∈ V ∨ x ∈ xs}

section Extend

variable {V W : Set VarName} {xs ys : List VarName} {x : VarName}

@[simp] theorem mem_extend : x ∈ extend V xs ↔ x ∈ V ∨ x ∈ xs := Iff.rfl

@[simp] theorem extend_nil : extend V [] = V := by
  ext x
  simp

theorem extend_append : extend V (xs ++ ys) = extend (extend V xs) ys := by
  ext x
  simp [or_assoc]

theorem subset_extend : V ⊆ extend V xs := fun _ => .inl

theorem extend_mono (h : V ⊆ W) (hxs : ∀ x ∈ xs, x ∈ ys) : extend V xs ⊆ extend W ys :=
  fun x hx => hx.imp (fun hv => h hv) (hxs x)

theorem extend_univ : extend Set.univ xs = Set.univ := by
  ext x
  simp

end Extend

/-- What code has to keep to. -/
structure Rule where
  /-- The nodes of its expressions. -/
  node : Expr → Prop
  /-- The conditions of its `while` loops. -/
  cond : Expr → Prop := fun _ => True
  /-- The names bound by its merges, and as its loop counters. -/
  join : VarName → Prop := fun _ => True
  /-- The targets and values of its assignments. -/
  assign : Expr → Expr → Prop := fun _ _ => True

/-- What keeps to the first rule keeps to the second. -/
structure Rule.Implies (R R' : Rule) : Prop where
  node : ∀ d, R.node d → R'.node d
  cond : ∀ c, R.cond c → R'.cond c
  join : ∀ x, R.join x → R'.join x
  assign : ∀ t v, R.assign t v → R'.assign t v

/-! ## Expressions -/

namespace Expr

variable {P Q : Expr → Prop} {V W : Set VarName} {e c : Expr}

/-- New children, one for each, are the children of the node they are put in. -/
theorem children_withChildren {cs : List Expr} (h : cs.length = e.children.length) :
    (e.withChildren cs).children = cs := by
  have zero : ∀ {cs : List Expr}, cs.length = 0 → cs = [] := List.eq_nil_of_length_eq_zero
  cases e with
  | var x t => exact (zero h).symm
  | const k t => exact (zero h).symm
  | fnRef f t => exact (zero h).symm
  | prim p args t => rfl
  | call f args t => rfl
  | tuple items t => rfl
  | closure f vs t => rfl
  | index x i t => obtain ⟨a, b, rfl⟩ := List.length_eq_two.mp h; rfl
  | proj x i t => obtain ⟨a, rfl⟩ := List.length_eq_one_iff.mp h; rfl
  | attr x k t => obtain ⟨a, rfl⟩ := List.length_eq_one_iff.mp h; rfl
  | cast x t => obtain ⟨a, rfl⟩ := List.length_eq_one_iff.mp h; rfl
  | alloc k x t => obtain ⟨a, rfl⟩ := List.length_eq_one_iff.mp h; rfl
  | capture x i t => obtain ⟨a, rfl⟩ := List.length_eq_one_iff.mp h; rfl
  | slice x y z t => obtain ⟨a, b, c, rfl⟩ := List.length_eq_three.mp h; rfl
  | view d s r o n t =>
    match cs, h with
    | [_, _, _, _, _], _ => rfl
  | map f args axis t =>
    match cs, h with
    | _ :: _, _ => rfl
  | allPairs f args axis t =>
    match cs, h with
    | _ :: _, _ => rfl
  | tiledMap f args axes tile t =>
    match cs, h with
    | _ :: _, _ => rfl
  | reduce f c init args axis t =>
    cases init with
    | none =>
      match cs, h with
      | _ :: _ :: _, _ => rfl
    | some i =>
      match cs, h with
      | _ :: _ :: _ :: _, _ => rfl
  | scan f c g init args axis t =>
    cases init with
    | none =>
      match cs, h with
      | _ :: _ :: _ :: _, _ => rfl
    | some i =>
      match cs, h with
      | _ :: _ :: _ :: _ :: _, _ => rfl
  | tiledReduce f c init args axes tile t =>
    match cs, h with
    | _ :: _ :: _ :: _, _ => rfl

theorem withChildren_ne_var {cs : List Expr} (h : ∀ x t, e ≠ .var x t) (hlen : cs.length = e.children.length) :
    ∀ x t, e.withChildren cs ≠ .var x t := by
  intro x t he
  have hcs : cs = [] := by
    rw [← children_withChildren hlen, he]
    rfl
  have hnone : e.children = [] := List.eq_nil_of_length_eq_zero (by rw [← hlen, hcs]; rfl)
  rw [hcs, ← hnone, withChildren_children] at he
  exact h x t he

/-- All nodes are as they should be, and every name read is in scope. -/
def Fits (P : Expr → Prop) (V : Set VarName) (e : Expr) : Prop := (∀ d ∈ e.subterms, P d) ∧ ∀ x ∈ e.reads, x ∈ V

theorem Fits.node (h : e.Fits P V) : P e := h.1 e e.self_mem_subterms

theorem Fits.child (h : e.Fits P V) (hc : c ∈ e.children) : c.Fits P V :=
  ⟨fun d hd => h.1 d (subterms_of_child hc hd), fun x hx => h.2 x (reads_of_child hc hx)⟩

theorem Fits.mono (h : e.Fits P V) (hP : ∀ d, P d → Q d) (hV : V ⊆ W) : e.Fits Q W :=
  ⟨fun d hd => hP d (h.1 d hd), fun x hx => hV (h.2 x hx)⟩

theorem fits_var {x : VarName} {t : Ty} : (Expr.var x t).Fits P V ↔ P (.var x t) ∧ x ∈ V := by
  simp [Fits, subterms_eq, children]

/-- A node that is no name fits if it is as it should be and its children fit. -/
theorem fits_of_children (he : ∀ x t, e ≠ .var x t) (hn : P e) (hc : ∀ c ∈ e.children, c.Fits P V) : e.Fits P V := by
  constructor
  · intro d hd
    rw [subterms_eq] at hd
    rcases List.mem_cons.mp hd with rfl | hd
    · exact hn
    · obtain ⟨c, hm, hd⟩ := List.mem_flatMap.mp hd
      exact (hc c hm).1 d hd
  · intro x hx
    rcases mem_reads hx with ⟨t, rfl⟩ | ⟨c, hm, hx⟩
    · exact absurd rfl (he x t)
    · exact (hc c hm).2 x hx

theorem fits_univ (h : ∀ d ∈ e.subterms, P d) : e.Fits P Set.univ := ⟨h, fun _ _ => trivial⟩

end Expr

/-! ## Statements -/

namespace Stmt

/-- The names that are in scope after a statement and were not before it. -/
def defines : Stmt → List VarName
  | assign (.var x _) _ => [x]
  | assign _ _ | ret _ => []
  | ite _ _ _ m | whileLoop _ _ m | forLoop _ _ m => m.keys

def blockDefines (ss : List Stmt) : List VarName := ss.flatMap defines

@[simp] theorem blockDefines_nil : blockDefines [] = [] := rfl

@[simp] theorem blockDefines_cons (s : Stmt) (ss : List Stmt) :
    blockDefines (s :: ss) = s.defines ++ blockDefines ss := rfl

@[simp] theorem blockDefines_append (ss ts : List Stmt) :
    blockDefines (ss ++ ts) = blockDefines ss ++ blockDefines ts :=
  List.flatMap_append

variable {target value : Expr} {s : Stmt} {ss : List Stmt} {P : Expr → Prop} {J : VarName → Prop}

/-- Storing into a place defines no name. -/
theorem defines_assign (h : ∀ x t, target ≠ .var x t) :
    (assign target value).defines = [] ∧ (assign target value).binds = [] := by
  cases target with
  | var x t => exact absurd rfl (h x t)
  | _ => exact ⟨rfl, rfl⟩

theorem binds_of_defines {x : VarName} (h : x ∈ s.defines) : x ∈ s.binds := by
  cases s with
  | assign t v =>
    cases t with
    | var y ty => exact h
    | _ => exact absurd h List.not_mem_nil
  | ret v => exact absurd h List.not_mem_nil
  | ite c yes no m => exact List.mem_append_right _ h
  | whileLoop c body m => exact List.mem_append_left _ h
  | forLoop c body m => exact List.mem_cons_of_mem _ (List.mem_append_left _ h)

mutual

/-- The statement keeps to the rule, in the scope of the names `V`. -/
def Fits (R : Rule) : Stmt → Set VarName → Prop
  | assign (.var x t) value, V => R.node (.var x t) ∧ value.Fits R.node V ∧ R.assign (.var x t) value
  | assign target value, V => target.Fits R.node V ∧ value.Fits R.node V ∧ R.assign target value
  | ret value, V => value.Fits R.node V
  | ite c yes no m, V =>
    c.Fits R.node V ∧ blockFits R yes V ∧ blockFits R no V ∧ (∀ x ∈ m.keys, R.join x) ∧
      ∀ p ∈ m.values, p.1.Fits R.node (extend V (blockDefines yes)) ∧ p.2.Fits R.node (extend V (blockDefines no))
  | whileLoop c body m, V =>
    R.cond c ∧ c.Fits R.node (extend V m.keys) ∧ blockFits R body (extend V m.keys) ∧ (∀ x ∈ m.keys, R.join x) ∧
      ∀ p ∈ m.values, p.1.Fits R.node V ∧ p.2.Fits R.node (extend (extend V m.keys) (blockDefines body))
  | forLoop c body m, V =>
    c.start.Fits R.node V ∧ c.stop.Fits R.node V ∧ c.step.Fits R.node V ∧ R.join c.var ∧
      blockFits R body (extend V (m.keys ++ [c.var])) ∧ (∀ x ∈ m.keys, R.join x) ∧
      ∀ p ∈ m.values, p.1.Fits R.node V ∧ p.2.Fits R.node (extend (extend V (m.keys ++ [c.var])) (blockDefines body))

/-- All statements keep to the rule, each in the scope that those before it leave. -/
def blockFits (R : Rule) : List Stmt → Set VarName → Prop
  | [], _ => True
  | s :: ss, V => s.Fits R V ∧ blockFits R ss (extend V s.defines)

end

variable {R R' : Rule} {V W : Set VarName}

theorem fits_assign (h : ∀ x t, target ≠ .var x t) :
    (assign target value).Fits R V ↔ target.Fits R.node V ∧ value.Fits R.node V ∧ R.assign target value := by
  cases target with
  | var x t => exact absurd rfl (h x t)
  | _ => rfl

theorem blockFits_append {ts : List Stmt} :
    blockFits R (ss ++ ts) V ↔ blockFits R ss V ∧ blockFits R ts (extend V (blockDefines ss)) := by
  induction ss generalizing V with
  | nil => simp [blockFits]
  | cons s ss ih =>
    rw [List.cons_append, blockFits, blockFits, ih, blockDefines_cons, extend_append, and_assoc]

theorem blockFits_singleton : blockFits R [s] V ↔ s.Fits R V := by
  simp [blockFits]

theorem blockFits_of_forall (h : ∀ s ∈ ss, s.Fits R Set.univ) : blockFits R ss Set.univ := by
  induction ss with
  | nil => exact trivial
  | cons s ss ih =>
    rw [blockFits, extend_univ]
    exact ⟨h s List.mem_cons_self, ih fun t ht => h t (List.mem_cons_of_mem _ ht)⟩

/-! ### Weaker rules and wider scopes -/

mutual

theorem Fits.mono (hR : R.Implies R') : ∀ {s : Stmt} {V W : Set VarName}, s.Fits R V → V ⊆ W → s.Fits R' W
  | assign target value, V, W, h, hV => by
    by_cases ht : ∃ x t, target = .var x t
    · obtain ⟨x, t, rfl⟩ := ht
      exact ⟨hR.node _ h.1, h.2.1.mono hR.node hV, hR.assign _ _ h.2.2⟩
    · have hne : ∀ x t, target ≠ .var x t := fun x t he => ht ⟨x, t, he⟩
      rw [fits_assign hne] at h ⊢
      exact ⟨h.1.mono hR.node hV, h.2.1.mono hR.node hV, hR.assign _ _ h.2.2⟩
  | ret _, V, W, h, hV => Expr.Fits.mono h hR.node hV
  | ite c yes no m, V, W, h, hV => by
    obtain ⟨hc, hy, hn, hj, hm⟩ := h
    refine ⟨hc.mono hR.node hV, blockFits.mono hR hy hV, blockFits.mono hR hn hV, fun x hx => hR.join x (hj x hx), ?_⟩
    intro p hp
    obtain ⟨hl, hr⟩ := hm p hp
    exact ⟨hl.mono hR.node (extend_mono hV fun _ => id), hr.mono hR.node (extend_mono hV fun _ => id)⟩
  | whileLoop c body m, V, W, h, hV => by
    obtain ⟨hw, hc, hb, hj, hm⟩ := h
    have hk : extend V m.keys ⊆ extend W m.keys := extend_mono hV fun _ => id
    refine ⟨hR.cond c hw, hc.mono hR.node hk, blockFits.mono hR hb hk, fun x hx => hR.join x (hj x hx), fun p hp => ?_⟩
    obtain ⟨hl, hr⟩ := hm p hp
    exact ⟨hl.mono hR.node hV, hr.mono hR.node (extend_mono hk fun _ => id)⟩
  | forLoop c body m, V, W, h, hV => by
    obtain ⟨h1, h2, h3, hx, hb, hj, hm⟩ := h
    have hk : extend V (m.keys ++ [c.var]) ⊆ extend W (m.keys ++ [c.var]) := extend_mono hV fun _ => id
    refine ⟨h1.mono hR.node hV, h2.mono hR.node hV, h3.mono hR.node hV, hR.join _ hx, blockFits.mono hR hb hk,
      fun x hx => hR.join x (hj x hx), fun p hp => ?_⟩
    obtain ⟨hl, hr⟩ := hm p hp
    exact ⟨hl.mono hR.node hV, hr.mono hR.node (extend_mono hk fun _ => id)⟩

theorem blockFits.mono (hR : R.Implies R') : ∀ {ss : List Stmt} {V W : Set VarName}, blockFits R ss V →
    V ⊆ W → blockFits R' ss W
  | [], _, _, _, _ => trivial
  | _ :: _, _, _, h, hV => ⟨Fits.mono hR h.1 hV, blockFits.mono hR h.2 (extend_mono hV fun _ => id)⟩

end

/-! ### Nodes -/

theorem mem_mergeExprs {m : Merge} {e : Expr} : e ∈ m.exprs ↔ ∃ p ∈ m.values, e = p.1 ∨ e = p.2 := by
  simp [Merge.exprs, List.mem_flatMap]

mutual

/-- All nodes of code that keeps to a rule are as they should be. -/
theorem Fits.nodes : ∀ {s : Stmt} {V : Set VarName}, s.Fits R V → ∀ d ∈ s.subterms, R.node d
  | assign target value, V, h, d, hd => by
    rw [subterms, List.mem_append] at hd
    by_cases ht : ∃ x t, target = .var x t
    · obtain ⟨x, t, rfl⟩ := ht
      rw [Expr.subterms_eq] at hd
      rcases hd with hd | hd
      · simp only [Expr.children, List.flatMap_nil, List.mem_singleton] at hd
        exact hd ▸ h.1
      · exact h.2.1.1 d hd
    · rw [fits_assign fun x t he => ht ⟨x, t, he⟩] at h
      exact hd.elim (h.1.1 d) (h.2.1.1 d)
  | ret value, V, h, d, hd => h.1 d hd
  | ite c yes no m, V, h, d, hd => by
    obtain ⟨hc, hy, hn, -, hm⟩ := h
    simp only [subterms, List.mem_append, List.mem_flatMap, mem_mergeExprs] at hd
    rcases hd with ((hd | ⟨e, ⟨p, hp, rfl | rfl⟩, hd⟩) | hd) | hd
    · exact hc.1 d hd
    · exact (hm p hp).1.1 d hd
    · exact (hm p hp).2.1 d hd
    · exact blockFits.nodes hy d hd
    · exact blockFits.nodes hn d hd
  | whileLoop c body m, V, h, d, hd => by
    obtain ⟨-, hc, hb, -, hm⟩ := h
    simp only [subterms, List.mem_append, List.mem_flatMap, mem_mergeExprs] at hd
    rcases hd with (hd | ⟨e, ⟨p, hp, rfl | rfl⟩, hd⟩) | hd
    · exact hc.1 d hd
    · exact (hm p hp).1.1 d hd
    · exact (hm p hp).2.1 d hd
    · exact blockFits.nodes hb d hd
  | forLoop c body m, V, h, d, hd => by
    obtain ⟨h1, h2, h3, -, hb, -, hm⟩ := h
    simp only [subterms, List.mem_append, List.mem_flatMap, mem_mergeExprs] at hd
    rcases hd with (((hd | hd) | hd) | ⟨e, ⟨p, hp, rfl | rfl⟩, hd⟩) | hd
    · exact h1.1 d hd
    · exact h2.1 d hd
    · exact h3.1 d hd
    · exact (hm p hp).1.1 d hd
    · exact (hm p hp).2.1 d hd
    · exact blockFits.nodes hb d hd

theorem blockFits.nodes : ∀ {ss : List Stmt} {V : Set VarName}, blockFits R ss V → ∀ d ∈ blockSubterms ss, R.node d
  | [], _, _, _, hd => absurd hd List.not_mem_nil
  | _ :: _, _, h, d, hd => (List.mem_append.mp hd).elim (Fits.nodes h.1 d) (blockFits.nodes h.2 d)

end

/-- The nodes are as `P` says, and the names bound as `J` does. -/
def binding (P : Expr → Prop) (J : VarName → Prop) : Rule where
  node := P
  join := J
  assign target _ := ∀ x t, target = .var x t → J x

mutual

/-- Where all names are in scope, it is enough that the nodes and the names bound are as they should be. -/
theorem fits_open :
    ∀ {s : Stmt}, (∀ d ∈ s.subterms, P d) → (∀ x ∈ s.binds, J x) → s.Fits (binding P J) Set.univ
  | assign target value, h, hJ => by
    have hv : value.Fits P Set.univ := Expr.fits_univ fun d hd => h d (List.mem_append_right _ hd)
    have ht : ∀ d ∈ target.subterms, P d := fun d hd => h d (List.mem_append_left _ hd)
    cases target with
    | var x t => exact ⟨ht _ (Expr.self_mem_subterms _), hv, fun y u he => by cases he; exact hJ x List.mem_cons_self⟩
    | _ => exact ⟨Expr.fits_univ ht, hv, fun y u he => by cases he⟩
  | ret value, h, _ => Expr.fits_univ h
  | ite c yes no m, h, hJ => by
    simp only [subterms, binds, List.mem_append, List.mem_flatMap, mem_mergeExprs] at h hJ
    refine ⟨Expr.fits_univ fun d hd => h d (by simp [hd]),
      blockFits_open (fun d hd => h d (by simp [hd])) fun x hx => hJ x (by simp [hx]),
      blockFits_open (fun d hd => h d (by simp [hd])) fun x hx => hJ x (by simp [hx]),
        fun x hx => hJ x (.inr hx), fun p hp => ?_⟩
    rw [extend_univ, extend_univ]
    exact ⟨Expr.fits_univ fun d hd => h d (.inl (.inl (.inr ⟨p.1, ⟨p, hp, .inl rfl⟩, hd⟩))),
      Expr.fits_univ fun d hd => h d (.inl (.inl (.inr ⟨p.2, ⟨p, hp, .inr rfl⟩, hd⟩)))⟩
  | whileLoop c body m, h, hJ => by
    simp only [subterms, binds, List.mem_append, List.mem_flatMap, mem_mergeExprs] at h hJ
    rw [Fits, extend_univ, extend_univ]
    refine ⟨trivial, Expr.fits_univ fun d hd => h d (by simp [hd]),
      blockFits_open (fun d hd => h d (by simp [hd])) fun x hx => hJ x (.inr hx),
        fun x hx => hJ x (.inl hx), fun p hp => ?_⟩
    exact ⟨Expr.fits_univ fun d hd => h d (.inl (.inr ⟨p.1, ⟨p, hp, .inl rfl⟩, hd⟩)),
      Expr.fits_univ fun d hd => h d (.inl (.inr ⟨p.2, ⟨p, hp, .inr rfl⟩, hd⟩))⟩
  | forLoop c body m, h, hJ => by
    simp only [subterms, binds, List.mem_cons, List.mem_append, List.mem_flatMap, mem_mergeExprs] at h hJ
    rw [Fits, extend_univ, extend_univ]
    refine ⟨Expr.fits_univ fun d hd => h d (by simp [hd]), Expr.fits_univ fun d hd => h d (by simp [hd]),
      Expr.fits_univ fun d hd => h d (by simp [hd]), hJ _ (.inl rfl),
      blockFits_open (fun d hd => h d (by simp [hd])) fun x hx => hJ x (.inr (.inr hx)),
        fun x hx => hJ x (.inr (.inl hx)), fun p hp => ?_⟩
    exact ⟨Expr.fits_univ fun d hd => h d (.inl (.inr ⟨p.1, ⟨p, hp, .inl rfl⟩, hd⟩)),
      Expr.fits_univ fun d hd => h d (.inl (.inr ⟨p.2, ⟨p, hp, .inr rfl⟩, hd⟩))⟩

theorem blockFits_open : ∀ {ss : List Stmt}, (∀ d ∈ blockSubterms ss, P d) →
    (∀ x ∈ blockBinds ss, J x) → blockFits (binding P J) ss Set.univ
  | [], _, _ => trivial
  | s :: ss, h, hJ => by
    rw [blockFits, extend_univ]
    exact ⟨fits_open (fun d hd => h d (List.mem_append_left _ hd)) fun x hx => hJ x (List.mem_append_left _ hx),
      blockFits_open (fun d hd => h d (List.mem_append_right _ hd)) fun x hx => hJ x (List.mem_append_right _ hx)⟩

end

theorem blockFits_univ (h : ∀ d ∈ blockSubterms ss, P d) : blockFits { node := P } ss Set.univ := by
  have hrule : (binding P fun _ => True).Implies { node := P } :=
    ⟨fun _ => id, fun _ => id, fun _ _ => trivial, fun _ _ _ => trivial⟩
  exact blockFits.mono hrule (blockFits_open h fun _ _ => trivial) subset_rfl

end Stmt

end ArrayIR
