/-
  ArrayIR.Proofs.Scope — which names are bound, and where they may be read.

  `binds` lists the names a statement binds, in the order in which the
  well-formedness check meets them. A function that passes the check binds every
  name once (`WellFormed.block_ok`).

  `after` gives the names that are defined once control has passed a statement, on
  every path to that point: what a loop's body defines is not among them, the names
  of its merge are. Code is well scoped when it reads such names only (`wellScoped`).
  What follows a return is never reached, and may read anything.
-/

import ArrayIR.Func.WellFormed
import ArrayIR.Proofs.Renamed
import ArrayIR.Proofs.Success

namespace ArrayIR

/-! ## Bound names -/

namespace Stmt

mutual

/-- The names a statement binds. -/
def binds : Stmt → List VarName
  | assign (.var x _) _ => [x]
  | assign _ _ | ret _ => []
  | ite _ yes no m => blockBinds yes ++ blockBinds no ++ m.keys
  | whileLoop _ body m => m.keys ++ blockBinds body
  | forLoop c body m => c.var :: (m.keys ++ blockBinds body)

def blockBinds : List Stmt → List VarName
  | [] => []
  | s :: ss => s.binds ++ blockBinds ss

end

theorem blockBinds_append (ss ts : List Stmt) : blockBinds (ss ++ ts) = blockBinds ss ++ blockBinds ts := by
  induction ss with
  | nil => rw [List.nil_append, blockBinds, List.nil_append]
  | cons s ss ih => rw [List.cons_append, blockBinds, blockBinds, ih, List.append_assoc]

theorem blockReturns_append (ss ts : List Stmt) : blockReturns (ss ++ ts) = (blockReturns ss || blockReturns ts) := by
  induction ss with
  | nil => rw [List.nil_append, blockReturns, Bool.false_or]
  | cons s ss ih => rw [List.cons_append, blockReturns, blockReturns, ih, Bool.or_assoc]

theorem blockBinds_singleton (s : Stmt) : blockBinds [s] = s.binds := by
  rw [blockBinds, blockBinds, List.append_nil]

end Stmt

namespace WellFormed

/-- What defining the names `xs` one after the other leaves: all of them, on top of those before, and no
name twice. -/
def Defines (D : Defined) (xs : List VarName) (D' : Defined) : Prop :=
  D' = xs.reverse ++ D ∧ (D.Nodup → D'.Nodup)

theorem Defines.nil (D : Defined) : Defines D [] D := ⟨rfl, id⟩

variable {D D' : Defined} {xs : List VarName} {x : VarName} {env : TypeEnv} {m : Merge}

theorem Defines.append {D1 D2 : Defined} {ys : List VarName} (h : Defines D xs D1) (h' : Defines D1 ys D2) :
    Defines D (xs ++ ys) D2 := by
  refine ⟨?_, fun hn => h'.2 (h.2 hn)⟩
  rw [h'.1, h.1, List.reverse_append, List.append_assoc]

/-- Defined names are distinct from each other and from those before. -/
theorem Defines.fresh (h : Defines D xs D') (hD : D.Nodup) : xs.Nodup ∧ ∀ x ∈ xs, x ∉ D := by
  have hnd := h.2 hD
  rw [h.1] at hnd
  obtain ⟨hxs, -, hdis⟩ := List.nodup_append.mp hnd
  exact ⟨(List.reverse_perm xs).nodup_iff.mp hxs, fun x hx hxD => hdis x (List.mem_reverse.mpr hx) x hxD rfl⟩

theorem Defines.mem (h : Defines D xs D') : x ∈ D' ↔ x ∈ xs ∨ x ∈ D := by
  rw [h.1, List.mem_append, List.mem_reverse]

theorem once_ok (h : once D x = .ok D') : Defines D [x] D' := by
  unfold once at h
  by_cases hx : x ∈ D
  · rw [if_pos hx] at h
    cases h
  · rw [if_neg hx] at h
    cases h
    exact ⟨rfl, fun hn => List.nodup_cons.mpr ⟨hx, hn⟩⟩

theorem define_ok {t : Ty} (h : define env D x t = .ok D') : Defines D [x] D' ∧ env.get? x = some t := by
  obtain ⟨D1, h1, h⟩ := except_bind_ok h
  obtain ⟨u, hu, h⟩ := except_bind_ok h
  by_cases ht : u = t
  · rw [if_pos ht] at h
    cases h
    refine ⟨once_ok h1, ?_⟩
    unfold declared at hu
    split at hu
    · cases hu
      rw [← ht]
      assumption
    · cases hu
  · rw [if_neg ht] at h
    cases h

theorem mergeEntries_ok {es : List (VarName × Expr × Expr)}
    (h : mergeEntries env D es = .ok D') : Defines D (es.map (·.1)) D' := by
  induction es generalizing D with
  | nil =>
    cases h
    exact .nil _
  | cons e es ih =>
    obtain ⟨x, l, r⟩ := e
    obtain ⟨t, _, h⟩ := except_bind_ok h
    split at h
    · obtain ⟨D1, h1, h⟩ := except_bind_ok h
      exact (once_ok h1).append (ih h)
    · cases h

theorem ite_ok {c : Expr} {yes no : List Stmt} (h : stmt env (.ite c yes no m) D = .ok D') :
    ∃ D1 D2, block env yes D = .ok D1 ∧ block env no D1 = .ok D2 ∧ Defines D2 m.keys D' := by
  rw [stmt] at h
  obtain ⟨_, _, h⟩ := except_bind_ok h
  obtain ⟨D1, hy, h⟩ := except_bind_ok h
  obtain ⟨D2, hn, h⟩ := except_bind_ok h
  exact ⟨D1, D2, hy, hn, mergeEntries_ok h⟩

theorem whileLoop_ok {c : Expr} {body : List Stmt}
    (h : stmt env (.whileLoop c body m) D = .ok D') : ∃ D1, Defines D m.keys D1 ∧ block env body D1 = .ok D' := by
  rw [stmt] at h
  obtain ⟨D1, hm, h⟩ := except_bind_ok h
  obtain ⟨_, _, h⟩ := except_bind_ok h
  exact ⟨D1, mergeEntries_ok hm, h⟩

/-- The type of a checked loop's counter is that of its start, an integer type. -/
theorem forLoop_ok {c : Counter} {body : List Stmt} (h : stmt env (.forLoop c body m) D = .ok D') :
    c.start.ty.isInt = true ∧ env.get? c.var = some c.start.ty ∧
      ∃ D1, Defines D (c.var :: m.keys) D1 ∧ block env body D1 = .ok D' := by
  rw [stmt] at h
  obtain ⟨_, hi, h⟩ := except_bind_ok h
  obtain ⟨_, _, h⟩ := except_bind_ok h
  obtain ⟨_, _, h⟩ := except_bind_ok h
  obtain ⟨D1, hv, h⟩ := except_bind_ok h
  obtain ⟨D2, hm, h⟩ := except_bind_ok h
  refine ⟨?_, (define_ok hv).2, D2, (define_ok hv).1.append (mergeEntries_ok hm), h⟩
  unfold bound at hi
  split at hi
  · assumption
  · cases hi

mutual

theorem stmt_ok : ∀ {s : Stmt} {D D' : Defined}, stmt env s D = .ok D' → Defines D s.binds D'
  | .assign target value, D, D', h => by
    cases target with
    | var x t =>
      rw [stmt] at h
      split at h
      · exact (define_ok h).1
      · cases h
    | index a i t =>
      cases h
      exact .nil _
    | _ => cases h
  | .ret _, D, D', h => by
    rw [stmt] at h
    cases h
    exact .nil _
  | .ite c yes no m, D, D', h => by
    obtain ⟨D1, D2, hy, hn, hm⟩ := ite_ok h
    exact ((block_ok hy).append (block_ok hn)).append hm
  | .whileLoop c body m, D, D', h => by
    obtain ⟨D1, hm, hb⟩ := whileLoop_ok h
    exact hm.append (block_ok hb)
  | .forLoop c body m, D, D', h => by
    obtain ⟨-, -, D1, hm, hb⟩ := forLoop_ok h
    exact hm.append (block_ok hb)

/-- A block that passes the check defines the names it binds, each of them once. -/
theorem block_ok : ∀ {ss : List Stmt} {D D' : Defined},
    block env ss D = .ok D' → Defines D (Stmt.blockBinds ss) D'
  | [], D, D', h => by
    rw [block] at h
    cases h
    exact .nil _
  | s :: ss, D, D', h => by
    rw [block] at h
    obtain ⟨D1, h1, h⟩ := except_bind_ok h
    exact (stmt_ok h1).append (block_ok h)

end

theorem block_append {ss ts : List Stmt} (h : block env (ss ++ ts) D = .ok D') :
    ∃ D1, block env ss D = .ok D1 ∧ block env ts D1 = .ok D' := by
  induction ss generalizing D with
  | nil => exact ⟨D, by rw [block], h⟩
  | cons s ss ih =>
    rw [List.cons_append, block] at h
    obtain ⟨D1, h1, h⟩ := except_bind_ok h
    obtain ⟨D2, h2, h⟩ := ih h
    refine ⟨D2, ?_, h⟩
    rw [block, h1]
    exact h2

theorem params_ok {ps : List (VarName × Ty)} (h : params env ps D = .ok D') : Defines D (ps.map (·.1)) D' := by
  induction ps generalizing D with
  | nil =>
    cases h
    exact .nil _
  | cons p ps ih =>
    obtain ⟨D1, h1, h⟩ := except_bind_ok h
    exact (define_ok h1).1.append (ih h)

end WellFormed

/-- The names of the parameters. -/
def Func.inputs (f : Func) : List VarName := (f.params.zip f.paramTys).map (·.1)

/-! ## Scoping -/

/-- Whether an expression reads the given names only. -/
def Expr.within (V : List VarName) (e : Expr) : Bool := e.reads.all (· ∈ V)

/-- Whether finding the place that an expression names reads the given names only. -/
def Expr.placeWithin (V : List VarName) : Expr → Bool
  | .index a i _ => a.within V && i.within V
  | _ => true

theorem Expr.within_iff {V : List VarName} {e : Expr} : e.within V = true ↔ ∀ x ∈ e.reads, x ∈ V := by
  simp [within]

namespace Stmt

mutual

/-- The names defined once control has passed a statement, if it can. -/
def after : Stmt → List VarName → Option (List VarName)
  | assign (.var x _) _, V => some (x :: V)
  | assign _ _, V => some V
  | ret _, _ => none
  | ite _ yes no m, V =>
    match blockAfter yes V, blockAfter no V with
    | some V₁, some V₂ => some (m.keys ++ V₁.filter (· ∈ V₂))
    | some V₁, none => some (m.keys ++ V₁)
    | none, some V₂ => some (m.keys ++ V₂)
    | none, none => none
  | whileLoop _ _ m, V | forLoop _ _ m, V => some (m.keys ++ V)

def blockAfter : List Stmt → List VarName → Option (List VarName)
  | [], V => some V
  | s :: ss, V =>
    match s.after V with
    | some V₁ => blockAfter ss V₁
    | none => none

end

/-- Whether one side of a merge reads names defined where it is evaluated. -/
def sideWithin (m : Merge) (side : Expr × Expr → Expr) : Option (List VarName) → Bool
  | some V => m.values.all fun p => (side p).within V
  | none => true

mutual

/-- Whether every name read is defined before, on every path. -/
def wellScoped : Stmt → List VarName → Bool
  | assign target value, V => value.within V && target.placeWithin V
  | ret value, V => value.within V
  | ite c yes no m, V => c.within V && blockWellScoped yes V && blockWellScoped no V &&
    sideWithin m Prod.fst (blockAfter yes V) && sideWithin m Prod.snd (blockAfter no V)
  | whileLoop c body m, V =>
    sideWithin m Prod.fst (some V) && c.within (m.keys ++ V) && blockWellScoped body (m.keys ++ V) &&
      sideWithin m Prod.snd (blockAfter body (m.keys ++ V))
  | forLoop c body m, V =>
    c.start.within V && c.stop.within V && c.step.within V && sideWithin m Prod.fst (some V) &&
      blockWellScoped body (c.var :: (m.keys ++ V)) && sideWithin m Prod.snd (blockAfter body (c.var :: (m.keys ++ V)))

def blockWellScoped : List Stmt → List VarName → Bool
  | [], _ => true
  | s :: ss, V => s.wellScoped V &&
    match s.after V with
    | some V₁ => blockWellScoped ss V₁
    | none => true

end

mutual

/-- What is defined after a statement was so before, or the statement binds it. -/
theorem after_mem : ∀ {s : Stmt} {V V' : List VarName}, s.after V = some V' →
    (∀ x ∈ V, x ∈ V') ∧ ∀ x ∈ V', x ∈ V ∨ x ∈ s.binds
  | assign target value, V, V', h => by
    cases target with
    | var x t =>
      cases h
      refine ⟨fun x hx => List.mem_cons_of_mem _ hx, fun z hz => ?_⟩
      rcases List.mem_cons.mp hz with rfl | hz
      · exact .inr List.mem_cons_self
      · exact .inl hz
    | _ =>
      cases h
      exact ⟨fun _ => id, fun _ => .inl⟩
  | ret _, V, V', h => by cases h
  | ite c yes no m, V, V', h => by
    rw [after] at h
    cases hy : blockAfter yes V <;> cases hn : blockAfter no V <;> rw [hy, hn] at h <;> cases h
    · obtain ⟨hk, hb⟩ := blockAfter_mem hn
      refine ⟨fun x hx => List.mem_append_right _ (hk x hx), fun x hx => ?_⟩
      rcases List.mem_append.mp hx with hx | hx
      · exact .inr (by simp [binds, hx])
      · exact (hb x hx).imp_right fun h => by simp [binds, h]
    · obtain ⟨hk, hb⟩ := blockAfter_mem hy
      refine ⟨fun x hx => List.mem_append_right _ (hk x hx), fun x hx => ?_⟩
      rcases List.mem_append.mp hx with hx | hx
      · exact .inr (by simp [binds, hx])
      · exact (hb x hx).imp_right fun h => by simp [binds, h]
    · obtain ⟨hk, hb⟩ := blockAfter_mem hy
      refine ⟨fun x hx => List.mem_append_right _ (List.mem_filter.mpr ⟨hk x hx, ?_⟩), fun x hx => ?_⟩
      · exact decide_eq_true ((blockAfter_mem hn).1 x hx)
      rcases List.mem_append.mp hx with hx | hx
      · exact .inr (by simp [binds, hx])
      · exact (hb x (List.mem_filter.mp hx).1).imp_right fun h => by simp [binds, h]
  | whileLoop _ _ m, V, V', h => by
    cases h
    refine ⟨fun x hx => List.mem_append_right _ hx, fun x hx => ?_⟩
    rcases List.mem_append.mp hx with hx | hx
    · exact .inr (by simp [binds, hx])
    · exact .inl hx
  | forLoop _ _ m, V, V', h => by
    cases h
    refine ⟨fun x hx => List.mem_append_right _ hx, fun x hx => ?_⟩
    rcases List.mem_append.mp hx with hx | hx
    · exact .inr (by simp [binds, hx])
    · exact .inl hx

theorem blockAfter_mem : ∀ {ss : List Stmt} {V V' : List VarName}, blockAfter ss V = some V' →
    (∀ x ∈ V, x ∈ V') ∧ ∀ x ∈ V', x ∈ V ∨ x ∈ blockBinds ss
  | [], V, V', h => by
    cases h
    exact ⟨fun _ => id, fun _ => .inl⟩
  | s :: ss, V, V', h => by
    rw [blockAfter] at h
    cases hs : s.after V with
    | none => rw [hs] at h; cases h
    | some V1 =>
      rw [hs] at h
      obtain ⟨hk, hb⟩ := after_mem hs
      obtain ⟨hk', hb'⟩ := blockAfter_mem h
      refine ⟨fun x hx => hk' x (hk x hx), fun x hx => ?_⟩
      rw [blockBinds, List.mem_append]
      rcases hb' x hx with hx | hx
      · exact (hb x hx).imp_right .inl
      · exact .inr (.inr hx)

end

end Stmt

end ArrayIR
