/-
  ArrayIR.Proofs.Shapes.Known — code by which a caller computes scalars of its own.

  Shape inference emits code into the scope of the caller: casts and primitives on
  scalars that the caller knows. Such code is run at a
  site, which is a store and a way to answer calls; it may allocate, but changes no
  buffer. An expression stands for a value if it gives it wherever the site has come to
  (`Stands`), and is known to be a scalar if it also has the scalar's type (`Knows`).

  A builder computation supplies what is said of its result if the code it emits runs
  at the site and makes it true (`Supplies`). The code is a list of assignments to fresh
  temporaries, whose values are computed from names that were there before.
-/

import ArrayIR.Builder.Adverb
import ArrayIR.Proofs.Casting
import ArrayIR.Proofs.Held
import ArrayIR.Proofs.Integers
import ArrayIR.Proofs.Renamed
import ArrayIR.Proofs.Success

namespace ArrayIR

/-! ## Element types -/

/-- Whether scalars carry the element type themselves. -/
def ScalarTy.isWide : ScalarTy → Bool
  | .bool | .i64 | .f64 => true
  | .i32 | .f32 => false

variable {t : ScalarTy} {es : List Expr} {xs : List Scalar} {p : Prim} {y : Scalar}

theorem Scalar.ty_convert (x : Scalar) (h : t.isWide = true) : (x.convert t).ty = t := by
  cases t <;> first | rfl | cases h

theorem Scalar.isWide_ty (x : Scalar) : x.ty.isWide = true := by
  cases x <;> rfl

/-! ## Locals -/

/-- Every binding of the first locals is one of the second. -/
def Locals.Part (L M : Locals) : Prop := ∀ ⦃x : VarName⦄ ⦃v : Value⦄, L.get? x = some v → M.get? x = some v

namespace Locals.Part

variable {L M N : Locals}

theorem refl (L : Locals) : Part L L := fun _ _ => id

theorem trans (h : Part L M) (h' : Part M N) : Part L N := fun _ _ hx => h' (h hx)

theorem insert {x : VarName} (h : L.get? x = none) (v : Value) : Part L (L.insert x v) := by
  intro y u hy
  rw [NameMap.get?_insert_of_ne]
  · exact hy
  · rintro rfl
    rw [h] at hy
    cases hy

theorem insert_both (h : Part L M) (x : VarName) (v : Value) : Part (L.insert x v) (M.insert x v) := by
  intro y u hy
  rw [NameMap.get?_insert] at hy ⊢
  split
  · rename_i hyx
    rwa [if_pos hyx] at hy
  · rename_i hyx
    rw [if_neg hyx] at hy
    exact h hy

end Locals.Part

namespace Shapes

open Eval

/-- Where the code of the caller is run: how calls are answered, and the store at the start. -/
structure Site where
  call : Caller
  store : Store

/-- The expression reads names that are bound, and wherever the site has come to it gives the value and
changes no buffer. -/
structure Stands (c : Site) (L : Locals) (e : Expr) (v : Value) : Prop where
  bound : ∀ x ∈ e.reads, ∃ u, L.get? x = some u
  value : ∀ s, c.store.Grows s → ∃ s', expr c.call L e s = .ok v s' ∧ s.Grows s'

/-- The expression stands for the scalar and has its type; an integer literal stands for its integer. -/
structure Knows (c : Site) (L : Locals) (e : Expr) (x : Scalar) : Prop where
  stands : Stands c L e (.scalar x)
  ty : e.ty = .scalar x.ty
  literal : e.PlainLiteral

variable {c : Site} {L L' M : Locals} {e : Expr} {v : Value} {x : Scalar}

theorem expr_of_part (h : Locals.Part L M) (hb : ∀ x ∈ e.reads, ∃ u, L.get? x = some u) (call : Caller) :
    expr call M e = expr call L e := by
  refine expr_congr e fun x hx => ?_
  obtain ⟨u, hu⟩ := hb x hx
  rw [h hu, hu]

namespace Stands

theorem mono (h : Stands c L e v) (hL : Locals.Part L M) : Stands c M e v where
  bound x hx := by
    obtain ⟨u, hu⟩ := h.bound x hx
    exact ⟨u, hL hu⟩
  value := by
    rw [expr_of_part hL h.bound]
    exact h.value

/-- An expression that needs no store. -/
theorem of_pure (hb : ∀ x ∈ e.reads, ∃ u, L.get? x = some u) (h : expr c.call L e = pure v) : Stands c L e v :=
  ⟨hb, fun s _ => ⟨s, by rw [h]; rfl, .refl s⟩⟩

theorem var {y : VarName} (h : L.get? y = some v) (t : Ty) : Stands c L (.var y t) v := by
  refine of_pure (fun x hx => ?_) (by rw [expr, h])
  have : x = y := by simpa using hx
  exact ⟨v, this ▸ h⟩

theorem const (k : Const) (t : Ty) : Stands c L (.const k t) (constant k t) := by
  refine of_pure (fun x hx => ?_) (by rw [expr])
  rcases Expr.mem_reads hx with ⟨t, ht⟩ | ⟨c, hc, -⟩
  · cases ht
  · exact absurd hc List.not_mem_nil

/-- Several expressions one after the other. -/
theorem list {vs : List Value} (h : List.Forall₂ (Stands c L) es vs) {s : Store} (hs : c.store.Grows s) :
    ∃ s', exprs c.call L es s = .ok vs s' ∧ s.Grows s' := by
  induction h generalizing s with
  | nil => exact ⟨s, by rw [exprs]; rfl, .refl s⟩
  | cons h _ ih =>
    obtain ⟨s1, hv, hs1⟩ := h.value s hs
    obtain ⟨s2, hvs, hs2⟩ := ih (hs.trans hs1)
    refine ⟨s2, ?_, hs1.trans hs2⟩
    rw [exprs]
    show EStateM.bind _ _ s = _
    rw [EStateM.bind, hv]
    show EStateM.bind _ _ s1 = _
    rw [EStateM.bind, hvs]
    rfl

end Stands

namespace Knows

theorem mono (h : Knows c L e x) (hL : Locals.Part L M) : Knows c M e x := ⟨h.stands.mono hL, h.ty, h.literal⟩

theorem var {y : VarName} (h : Stands c L (.var y (.scalar x.ty)) (.scalar x)) :
    Knows c L (.var y (.scalar x.ty)) x where
  stands := h
  ty := rfl
  literal := fun _ _ he => by cases he

theorem int64 (i : Int64) : Knows c L (.int64 i) (.int i) where
  stands := .const _ _
  ty := rfl
  literal := fun _ _ he => by cases he; rfl

/-- A constant is known to be what it is. -/
theorem of_const {k : Const} {t : Ty} (h : Knows c L (.const k t) x) : constant k t = .scalar x := by
  obtain ⟨s, hs, -⟩ := h.stands.value c.store (.refl _)
  rw [expr] at hs
  exact (state_pure_ok hs).1

/-- An integer literal is known to be the integer. -/
theorem of_int? (h : Knows c L e x) {i : Int64} (hi : e.int? = some i) : x = .int i := by
  cases e with
  | const k t =>
    cases k with
    | int j =>
      cases hi
      cases h.of_const.symm.trans (h.literal _ _ rfl)
      rfl
    | _ => cases hi
  | _ => cases hi

end Knows

/-! ## Emitted code -/

/-- No name with a number from `n` on is bound. -/
def Free (L : Locals) (n : Nat) : Prop := ∀ a i, n ≤ i → L.get? (numbered a i) = none

/-- A computation over the builder has appended `out`, which takes `L` to `L'` wherever the site has come
to: assignments to fresh temporaries, of values computed from names of `L` and from earlier temporaries. -/
structure Adds (c : Site) (out : Block) (b : Builder) (L : Locals) (b' : Builder) (L' : Locals) : Prop where
  emits : Emits (Stmt.blockBinds out) out b b'
  taken : Taken (Stmt.blockBinds out) b.session.nextName b'.session.nextName
  temps : ∀ s ∈ out, ∃ y t e, s = .assign (.var y t) e ∧ ∀ x ∈ e.reads, ∃ u, L'.get? x = some u
  part : Locals.Part L L'
  new : ∀ y v, L'.get? y = some v → L.get? y = some v ∨ y ∈ Stmt.blockBinds out
  run : ∀ {M : Locals} {s : Store} (fuel : Nat), Locals.Part L M → c.store.Grows s →
    ∃ M' s', block c.call fuel out M s = .ok (.next M') s' ∧ s.Grows s' ∧ Locals.Part L' M'

namespace Adds

variable {out out' : Block} {b b1 b2 : Builder} {L1 L2 : Locals}

theorem refl (c : Site) (b : Builder) (L : Locals) : Adds c [] b L b L where
  emits := .refl b
  taken := .nil _ _
  temps := fun s hs => absurd hs List.not_mem_nil
  part := .refl L
  new := fun y v hy => .inl hy
  run := by
    intro M s fuel hM _
    exact ⟨M, s, by rw [block_nil]; rfl, .refl s, hM⟩

theorem append (h : Adds c out b L b1 L1) (h' : Adds c out' b1 L1 b2 L2) : Adds c (out ++ out') b L b2 L2 where
  emits := by
    rw [Stmt.blockBinds_append]
    exact h.emits.append h'.emits
  taken := by
    rw [Stmt.blockBinds_append]
    exact h.taken.append h'.taken h.emits.next h'.emits.next
  temps := by
    intro s hs
    rcases List.mem_append.mp hs with hs | hs
    · obtain ⟨y, t, e, rfl, he⟩ := h.temps s hs
      refine ⟨y, t, e, rfl, fun x hx => ?_⟩
      obtain ⟨u, hu⟩ := he x hx
      exact ⟨u, h'.part hu⟩
    · exact h'.temps s hs
  part := h.part.trans h'.part
  new := by
    intro y v hy
    rw [Stmt.blockBinds_append, List.mem_append]
    rcases h'.new y v hy with hy | hy
    · exact (h.new y v hy).imp_right .inl
    · exact .inr (.inr hy)
  run := by
    intro M s fuel hM hs
    obtain ⟨M1, s1, hrun, hs1, hM1⟩ := h.run fuel hM hs
    obtain ⟨M2, s2, hrun', hs2, hM2⟩ := h'.run fuel hM1 (hs.trans hs1)
    exact ⟨M2, s2, by rw [block_append_next hrun]; exact hrun', hs1.trans hs2, hM2⟩

theorem free (h : Adds c out b L b1 L1) (hf : Free L b.session.nextName) : Free L1 b1.session.nextName := by
  intro a i hi
  cases hv : L1.get? (numbered a i) with
  | none => rfl
  | some v =>
    rcases h.new _ _ hv with hv | hy
    · rw [hf a i (Nat.le_trans h.emits.next hi)] at hv
      cases hv
    · obtain ⟨a', j, he, -, hj⟩ := h.taken.number _ hy
      have := numbered_inj he
      omega

end Adds

/-- The builder holds the functions of the session, and its fresh names are not bound. -/
structure Ready (s : Session) (L : Locals) (b : Builder) : Prop where
  session : b.session = { s with nextName := b.session.nextName }
  free : Free L b.session.nextName

theorem Adds.ready {s : Session} {out : Block} {b b1 : Builder} {L1 : Locals} (h : Adds c out b L b1 L1)
    (hr : Ready s L b) : Ready s L1 b1 where
  session := by rw [h.emits.session, hr.session]
  free := h.free hr.free

/-- What the computation emits runs at the site, and what it gives is as `P` says. -/
def Supplies {α : Type} (c : Site) (s : Session) (L : Locals) (P : Locals → α → Prop) (x : Build α) : Prop :=
  ∀ ⦃b : Builder⦄ ⦃a : α⦄ ⦃b' : Builder⦄, Ready s L b → x b = .ok a b' → ∃ out L', Adds c out b L b' L' ∧ P L' a

namespace Supplies

variable {α β : Type} {s : Session} {P : Locals → α → Prop} {Q : Locals → β → Prop}

theorem pure {a : α} (h : P L a) : Supplies c s L P (pure a) := by
  intro b a' b' _ hx
  obtain ⟨rfl, rfl⟩ := state_pure_ok hx
  exact ⟨[], L, .refl c b L, h⟩

theorem fail {e : Error} : Supplies c s L P (fail e) := by
  intro b a b' _ hx
  cases hx

theorem literal {P : Locals → Expr → Prop} {i : Int64} {t : ScalarTy} (h : P L (.int i t)) :
    Supplies c s L P (Build.literal i t) := by
  intro b e b' _ hx
  obtain ⟨-, rfl, rfl⟩ := Build.literal_ok hx
  exact ⟨[], L, .refl c b' L, h⟩

theorem lift {x : Except Error α} (h : ∀ a, x = .ok a → P L a) : Supplies c s L P (liftM x : Build α) := by
  intro b a b' _ hx
  obtain ⟨ha, rfl⟩ := state_lift_ok hx
  exact ⟨[], L, .refl c b L, h a ha⟩

theorem bind {x : Build α} {f : α → Build β} (h : Supplies c s L P x)
    (next : ∀ L' a, Locals.Part L L' → P L' a → Supplies c s L' Q (f a)) : Supplies c s L Q (x >>= f) := by
  intro b z b' hr hx
  obtain ⟨a, b1, ha, hz⟩ := state_bind_ok hx
  obtain ⟨out, L1, hadds, hp⟩ := h hr ha
  obtain ⟨out', L2, hadds', hq⟩ := next L1 a hadds.part hp (hadds.ready hr) hz
  exact ⟨out ++ out', L2, hadds.append hadds', hq⟩

theorem mono {P' : Locals → α → Prop} {x : Build α} (h : Supplies c s L P x)
    (hp : ∀ L' a, Locals.Part L L' → P L' a → P' L' a) :
    Supplies c s L P' x := by
  intro b a b' hr hx
  obtain ⟨out, L', hadds, ha⟩ := h hr hx
  exact ⟨out, L', hadds, hp L' a hadds.part ha⟩

/-- A temporary stands for what is assigned to it. -/
theorem temp (h : Stands c L e v) (name : String) :
    Supplies c s L (fun L' y => ∃ x, y = .var x e.ty ∧ Stands c L' y v) (Build.temp e name) := by
  intro b y b' hr hx
  obtain ⟨z, rfl, hemits, htaken⟩ := Build.temp_ok hx
  have hfresh : L.get? z = none := by
    obtain ⟨a, i, rfl, hi, -⟩ := htaken.number z List.mem_cons_self
    exact hr.free a i hi
  have hpart := Locals.Part.insert hfresh v
  refine ⟨[.assign (.var z e.ty) e], L.insert z v, ⟨hemits, htaken, ?_, hpart, ?_, ?_⟩, z, rfl,
    .var (NameMap.get?_insert_self ..) _⟩
  · intro st hst
    obtain rfl := List.mem_singleton.mp hst
    refine ⟨z, _, e, rfl, fun x hx => ?_⟩
    obtain ⟨u, hu⟩ := h.bound x hx
    exact ⟨u, hpart hu⟩
  · intro y u hy
    rw [NameMap.get?_insert] at hy
    split at hy
    · rename_i hyz
      exact .inr (hyz ▸ List.mem_cons_self)
    · exact .inl hy
  · intro M st fuel hM hst
    obtain ⟨st', hv, hgrows⟩ := h.value st hst
    refine ⟨M.insert z v, st', ?_, hgrows, hM.insert_both z v⟩
    rw [block_singleton, stmt]
    show EStateM.bind _ _ st = _
    rw [EStateM.bind, expr_of_part hM h.bound, hv]
    rfl

end Supplies

/-! ## Scalars -/

variable {s : Session}

theorem temp_supplies (h : Stands c L e (.scalar x)) (ht : e.ty = .scalar x.ty) (name : String) :
    Supplies c s L (fun L' y => Knows c L' y x) (Build.temp e name) := by
  refine (Supplies.temp h name).mono fun L' y _ hy => ?_
  obtain ⟨z, rfl, hz⟩ := hy
  rw [ht] at hz ⊢
  exact .var hz

theorem Stands.cast (h : Stands c L e (.scalar x)) (t : ScalarTy) :
    Stands c L (.cast e (.scalar t)) (.scalar (x.convert t)) where
  bound y hy := by
    rcases Expr.mem_reads hy with ⟨u, hu⟩ | ⟨d, hd, hy'⟩
    · cases hu
    · obtain rfl := List.mem_singleton.mp hd
      exact h.bound y hy'
  value st hst := by
    obtain ⟨st', hv, hgrows⟩ := h.value st hst
    refine ⟨st', ?_, hgrows⟩
    rw [expr]
    show EStateM.bind _ _ st = _
    rw [EStateM.bind, hv]
    rfl

/-- A literal made for an element type. -/
theorem knows_scalar (i : Int64) (h : t.isWide = true) : Knows c L (.scalar i t) ((Scalar.int i).convert t) := by
  cases t with
  | bool => exact ⟨.const (.bool (i != 0)) .bool, rfl, fun _ _ he => by cases he⟩
  | i64 => exact .int64 i
  | f64 => exact ⟨.const (.float i.toFloat) (.scalar .f64), rfl, fun _ _ he => by cases he⟩
  | _ => cases h

theorem cast_supplies (h : Knows c L e x) (ht : t.isWide = true) :
    Supplies c s L (fun L' y => Knows c L' y (x.convert t)) (Build.cast e t) := by
  have temporary : Supplies c s L (fun L' y => Knows c L' y (x.convert t)) (Build.temp (.cast e (.scalar t)) "cast") :=
    temp_supplies (h.stands.cast t) (by rw [Expr.ty, Scalar.ty_convert x ht]) "cast"
  unfold Build.cast
  rw [h.ty]
  dsimp only [Ty.scalar?]
  by_cases hsame : x.ty = t
  · rw [if_pos hsame]
    subst hsame
    rw [Scalar.convert_self]
    exact .pure h
  · rw [if_neg hsame]
    split
    · have hx := h.of_int? (i := _) rfl
      subst hx
      exact .pure (knows_scalar _ ht)
    · rename_i i u
      have hx := h.of_const
      cases hx
      rw [Scalar.convert_bool]
      exact .pure (knows_scalar _ ht)
    · exact temporary

/-! ## Primitives -/

end Shapes

/-- The type that operands of types that scalars carry are brought to is such a type. -/
theorem Prim.isWide_operandTy (p : Prim) : (p.operandTy (xs.map (·.ty))).isWide = true := by
  have common : ∀ (ts : List ScalarTy) (t : ScalarTy), t.isWide = true → (∀ u ∈ ts, u.isWide = true) →
      (ts.foldl ScalarTy.combine t).isWide = true := by
    intro ts
    induction ts with
    | nil => exact fun t ht _ => ht
    | cons u ts ih =>
      intro t ht hts
      refine ih _ ?_ fun w hw => hts w (List.mem_cons_of_mem _ hw)
      have hu := hts u List.mem_cons_self
      cases t <;> cases u <;> first | rfl | exact absurd hu (by decide) | exact absurd ht (by decide)
  have wide : ∀ xs : List Scalar, ∀ u ∈ xs.map (·.ty), u.isWide = true := by
    intro xs u hu
    obtain ⟨x, -, rfl⟩ := List.mem_map.mp hu
    exact x.isWide_ty
  have brought : ∀ t : ScalarTy, t.isWide = true → (p.operandTy [t]).isWide = true := by
    intro t ht
    unfold operandTy
    cases p.kind with
    | logic => rfl
    | compare => exact ht
    | arith => cases t <;> first | rfl | exact ht
  cases xs with
  | nil => exact brought .i64 rfl
  | cons x xs =>
    have hcommon : ((xs.map (·.ty)).foldl ScalarTy.combine x.ty).isWide = true := common _ _ x.isWide_ty (wide xs)
    exact brought _ hcommon

theorem Prim.isWide_resultTy (h : t.isWide = true) (n : Nat) : (p.resultTy (List.replicate n t)).isWide = true := by
  unfold resultTy
  cases p.kind with
  | compare => rfl
  | logic => rfl
  | arith =>
    cases n with
    | zero => rfl
    | succ n => exact h

theorem Prim.ty_eval (h : p.eval xs t = .ok y) (ht : t.isWide = true) : y.ty = t := by
  obtain ⟨z, -, hz⟩ := except_bind_ok h
  cases hz
  exact Scalar.ty_convert z ht

/-- Bringing the operands to their common type changes no result. -/
theorem Prim.eval_convert (h : p.eval xs (p.resultTy (p.operandTys (xs.map (·.ty)))) = .ok y) :
    p.eval (xs.map (·.convert (p.operandTy (xs.map (·.ty))))) (p.resultTy (p.operandTys (xs.map (·.ty)))) = .ok y := by
  match xs with
  | [] => exact h
  | [a] =>
    rw [← h]
    cases p <;> cases a <;> rfl
  | [a, b] =>
    cases p with
    | not => cases a <;> cases b <;> cases h
    | _ =>
      rw [← h]
      cases a <;> cases b <;> rfl
  | a :: _ :: _ :: _ => cases p <;> cases a <;> cases h

namespace Shapes

open Eval

variable {c : Site} {L L' M : Locals} {e : Expr} {v : Value} {x : Scalar} {s : Session}

theorem operandTys_known (h : List.Forall₂ (Knows c L) es xs) : Build.operandTys es = .ok (xs.map (·.ty)) := by
  induction h with
  | nil => rfl
  | cons h _ ih =>
    rw [Build.operandTys, h.ty]
    dsimp only [Ty.scalar?]
    rw [ih]
    rfl

theorem castAll_supplies (ht : t.isWide = true) (h : List.Forall₂ (Knows c L) es xs) :
    Supplies c s L (fun L' es' => List.Forall₂ (Knows c L') es' (xs.map (·.convert t)))
      (Build.castAll (es.zip (List.replicate xs.length t))) := by
  induction es generalizing L xs with
  | nil =>
    cases h
    exact .pure .nil
  | cons e es ih =>
    cases h with
    | cons he hes =>
      refine (cast_supplies he ht).bind fun L1 e' hL1 he' => ?_
      refine (ih (hes.imp fun _ _ h => h.mono hL1)).bind fun L2 es' hL2 hes' => ?_
      exact .pure (.cons (he'.mono hL2) hes')

/-- The primitive over expressions that stand for its operands. -/
theorem Stands.prim (h : List.Forall₂ (Knows c L) es xs)
    (hy : p.eval xs t = .ok y) : Stands c L (.prim p es (.scalar t)) (.scalar y) where
  bound z hz := by
    rcases Expr.mem_reads hz with ⟨u, hu⟩ | ⟨d, hd, hz'⟩
    · cases hu
    · obtain ⟨x, -, hx⟩ := forall₂_mem_left h hd
      exact hx.stands.bound z hz'
  value st hst := by
    have hvalues : List.Forall₂ (Stands c L) es (xs.map Value.scalar) :=
      List.forall₂_map_right_iff.mpr (h.imp fun _ _ hx => hx.stands)
    obtain ⟨st', hvs, hgrows⟩ := Stands.list hvalues hst
    have hscalars : Value.asScalars (xs.map Value.scalar) = .ok xs := by
      clear h hy hvs hvalues
      induction xs with
      | nil => rfl
      | cons x xs ih =>
        show List.mapM Value.asScalar (.scalar x :: xs.map Value.scalar) = _
        rw [List.mapM_cons]
        show (do let ys ← Value.asScalars (xs.map Value.scalar); pure (x :: ys) : Except Error _) = _
        rw [ih]
        rfl
    refine ⟨st', ?_, hgrows⟩
    rw [expr]
    show EStateM.bind _ _ st = _
    rw [EStateM.bind, hvs]
    show ((do
      let args ← Value.asScalars (xs.map Value.scalar)
      return .scalar (← p.eval args (← resultTy (.scalar t)))) : Exec Value) st' = _
    rw [hscalars]
    show ((do return .scalar (← p.eval xs t)) : Exec Value) st' = _
    rw [hy]
    rfl

/-- Two integer literals that fold are known to be integers, and the result of folding is theirs. -/
theorem folded_knows {k : Int64} (h : List.Forall₂ (Knows c L) es xs) (ht : ∀ x ∈ xs, x.ty = t)
    (hk : Build.folded? p es = some k) (hy : p.eval xs (p.resultTy (List.replicate xs.length t)) = .ok y) :
    Knows c L (.int k (p.resultTy (List.replicate xs.length t))) y := by
  match es, xs, h with
  | [], _, _ => cases hk
  | [_], _, _ => cases hk
  | _ :: _ :: _ :: _, _, _ => cases hk
  | [e, f], [a, b], .cons ha (.cons hb .nil) =>
    obtain ⟨i, hi, hk⟩ := Option.bind_eq_some_iff.mp hk
    obtain ⟨j, hj, hk⟩ := Option.bind_eq_some_iff.mp hk
    obtain rfl := ha.of_int? hi
    obtain rfl := hb.of_int? hj
    obtain rfl : ScalarTy.i64 = t := ht _ List.mem_cons_self
    have hres : p.resultTy (List.replicate 2 .i64) = .i64 := by cases p <;> first | rfl | cases hk
    show Knows c L (.int k (p.resultTy (List.replicate 2 .i64))) y
    have hy : p.eval [.int i, .int j] (p.resultTy (List.replicate 2 .i64)) = .ok y := hy
    rw [hres] at hy ⊢
    rw [Prim.eval_ints rfl rfl rfl rfl rfl (Build.foldInts?_onInts hk)] at hy
    cases hy
    exact .int64 k

/-- What the builder makes of a primitive on known scalars is known to be its result. -/
theorem prim_supplies (h : List.Forall₂ (Knows c L) es xs)
    (hy : p.eval xs (p.resultTy (p.operandTys (xs.map (·.ty)))) = .ok y) (name : String) :
    Supplies c s L (fun L' e => Knows c L' e y) (Build.prim p es name) := by
  have hwide : (p.operandTy (xs.map (·.ty))).isWide = true := p.isWide_operandTy
  have hops : p.operandTys (xs.map (·.ty)) = List.replicate xs.length (p.operandTy (xs.map (·.ty))) := by
    rw [Prim.operandTys, List.length_map]
  unfold Build.prim
  refine Supplies.bind (P := fun _ ts => ts = xs.map (·.ty)) ?_ fun L1 ts hL1 hts => ?_
  · refine .lift fun ts hts => ?_
    rw [operandTys_known h] at hts
    cases hts
    rfl
  · subst hts
    dsimp only
    rw [hops]
    refine (castAll_supplies hwide (h.imp fun _ _ hx => hx.mono hL1)).bind fun L2 es' hL2 hes' => ?_
    have hy' := Prim.eval_convert hy
    have hlen : (xs.map (·.convert (p.operandTy (xs.map (·.ty))))).length = xs.length := List.length_map _
    rw [hops] at hy'
    cases hf : Build.folded? p es' with
    | some k =>
      refine .literal ?_
      rw [← hlen] at hy' ⊢
      refine folded_knows hes' (fun z hz => ?_) hf hy'
      obtain ⟨x, -, rfl⟩ := List.mem_map.mp hz
      exact Scalar.ty_convert x hwide
    | none =>
      refine temp_supplies (.prim hes' hy') ?_ name
      rw [Expr.ty, Prim.ty_eval hy' (Prim.isWide_resultTy hwide _)]

end Shapes

end ArrayIR
