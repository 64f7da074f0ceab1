/-
  ArrayIR.Proofs.Folding — folding a formula is computing a part of it early.

  A formula is a tree of primitives and conversions over constants and variables, none
  of them a float. The builder makes code of it: what is known is converted and folded
  on the spot, the rest is bound to temporaries. Running that code gives what evaluating
  the formula as one expression gives, the same scalar or the same failure
  (`Formula.folding_agrees`).

  The builder folds in 64 bits, whatever the type, and does not narrow the constants of
  an `i32`. That cannot be seen in sums, differences and products, which wrap at the
  end. But a constant that is converted, or divided or compared in size on the spot,
  must be within the range of its type (`Formula.exact`): a sum that has left it shows
  once it is widened (`Formula.folded_sum_not_narrowed`).
-/

import ArrayIR.Proofs.Building.Neat
import ArrayIR.Proofs.Casting
import ArrayIR.Proofs.Integers

namespace ArrayIR

/-! ## Formulas -/

/-- Primitives and conversions over constants and variables, none of them a float. A primitive has a name
for its result. -/
inductive Formula where
  | int (i : Int64) (t : ScalarTy) (ht : t.isInt = true)
  | bool (b : Bool)
  | var (x : VarName) (t : ScalarTy) (ht : t.isFloat = false)
  | unary (p : Prim) (x : Formula) (name : String)
  | binary (p : Prim) (x y : Formula) (name : String)
  | cast (x : Formula) (t : ScalarTy) (ht : t.isFloat = false)

namespace ScalarTy

/-- The integer that a literal of the type holds for `i`: of a boolean it is whether `i` is zero. -/
def literal (t : ScalarTy) (i : Int64) : Int64 :=
  match t with
  | .bool => if i = 0 then 0 else 1
  | _ => i

end ScalarTy

/-- Whether folding the primitive commutes with wrapping to fewer bits, as far as it is folded at all. -/
def Prim.wraps : Prim → Bool
  | .div | .min | .max => false
  | _ => true

variable {f : Formula} {ρ : VarName → Scalar} {i : Int64} {es : List Expr} {vs : List Scalar}

namespace Formula

def ty : Formula → ScalarTy
  | int _ t _ => t
  | bool _ => .bool
  | var _ t _ => t
  | unary p x _ => p.resultTy (p.operandTys [x.ty])
  | binary p x y _ => p.resultTy (p.operandTys [x.ty, y.ty])
  | cast _ t _ => t

/-- The variables of the formula, with their types. -/
def vars : Formula → List (VarName × ScalarTy)
  | int _ _ _ | bool _ => []
  | var x t _ => [(x, t)]
  | unary _ x _ | cast x _ _ => x.vars
  | binary _ x y _ => x.vars ++ y.vars

/-- Build the formula, operands from left to right. -/
def build : Formula → Build Expr
  | int i t _ => pure (.int i t)
  | bool b => pure (.bool b)
  | var x t _ => pure (.var x (.scalar t))
  | unary p x name => do
    let x ← x.build
    Build.prim p [x] name
  | binary p x y name => do
    let x ← x.build
    let y ← y.build
    Build.prim p [x, y] name
  | cast x t _ => do
    let x ← x.build
    Build.cast x t

/-- The formula as one expression, each operand cast to the type that its primitive expects. -/
def unfolded : Formula → Expr
  | int i t _ => .int i t
  | bool b => .bool b
  | var x t _ => .var x (.scalar t)
  | unary p x _ => .prim p [.cast x.unfolded (.scalar (p.operandTy [x.ty]))]
    (.scalar (p.resultTy (p.operandTys [x.ty])))
  | binary p x y _ => .prim p
      [.cast x.unfolded (.scalar (p.operandTy [x.ty, y.ty])), .cast y.unfolded (.scalar (p.operandTy [x.ty, y.ty]))]
      (.scalar (p.resultTy (p.operandTys [x.ty, y.ty])))
  | cast x t _ => .cast x.unfolded (.scalar t)

/-- The integer that the formula is folded to; one for true and zero for false. -/
def known : Formula → Option Int64
  | int i _ _ => some i
  | bool b => some (if b then 1 else 0)
  | var _ _ _ | unary _ _ _ => none
  | binary p x y _ => do Build.foldInts? p (← x.known) (← y.known)
  | cast x t _ => x.known.map t.literal

/-- What the formula is folded to, if anything, is of its type as it is. -/
def fits (f : Formula) : Bool := f.known.all f.ty.holds

/-- A constant to be converted to type `t` is of its type as it is, unless that is `t` already. -/
def converts (f : Formula) (t : ScalarTy) : Bool := f.ty = t || f.fits

/-- Every constant, written or folded, that is converted, or folded where wrapping matters, is of its type as
it is. -/
def exact : Formula → Bool
  | int _ _ _ | bool _ | var _ _ _ => true
  | unary p x _ => x.exact && x.converts (p.operandTy [x.ty])
  | binary p x y _ => x.exact && y.exact && x.converts (p.operandTy [x.ty, y.ty]) && y.converts
    (p.operandTy [x.ty, y.ty]) && (p.wraps || x.fits && y.fits)
  | cast x t _ => x.exact && x.converts t

/-- The scalar that the formula stands for, if `ρ` gives the scalars of its variables. -/
def value (ρ : VarName → Scalar) : Formula → Except Error Scalar
  | int i t _ => .ok ((Scalar.int i).convert t)
  | bool b => .ok (.bool b)
  | var x _ _ => .ok (ρ x)
  | unary p x _ => do
    let v ← x.value ρ
    p.eval [v.convert (p.operandTy [x.ty])] (p.resultTy (p.operandTys [x.ty]))
  | binary p x y _ => do
    let v ← x.value ρ
    let u ← y.value ρ
    p.eval [v.convert (p.operandTy [x.ty, y.ty]), u.convert (p.operandTy [x.ty, y.ty])]
      (p.resultTy (p.operandTys [x.ty, y.ty]))
  | cast x t _ => do
    let v ← x.value ρ
    return v.convert t

/-- The locals give every variable the scalar that `ρ` says, which is one of the variable's type. -/
def Valued (f : Formula) (ρ : VarName → Scalar) (L : Locals) : Prop :=
  ∀ p ∈ f.vars, L.get? p.1 = some (.scalar (ρ p.1)) ∧ (ρ p.1).convert p.2 = ρ p.1

theorem Valued.mono {g : Formula} {L : Locals} (h : f.Valued ρ L) (hv : ∀ p ∈ g.vars, p ∈ f.vars) :
    g.Valued ρ L := fun p hp => h p (hv p hp)

theorem Valued.congr {L L' : Locals} (h : f.Valued ρ L)
    (hL : ∀ p ∈ f.vars, L'.get? p.1 = L.get? p.1) : f.Valued ρ L' := by
  intro p hp
  rw [hL p hp]
  exact h p hp

end Formula

/-! ## Types -/

theorem ScalarTy.foldl_combine_not_float {ts : List ScalarTy} (h : ∀ t ∈ ts, t.isFloat = false) {s : ScalarTy}
    (hs : s.isFloat = false) : (ts.foldl combine s).isFloat = false := by
  induction ts generalizing s with
  | nil => exact hs
  | cons t ts ih =>
    obtain ⟨ht, hts⟩ := List.forall_mem_cons.mp h
    refine ih hts ?_
    cases s <;> cases t <;> simp_all [isFloat, combine]

namespace Prim

theorem operandTy_not_float (p : Prim) {ts : List ScalarTy} (h : ∀ t ∈ ts, t.isFloat = false) :
    (p.operandTy ts).isFloat = false := by
  unfold operandTy
  cases ts with
  | nil => cases p.kind <;> rfl
  | cons t ts =>
    obtain ⟨ht, hts⟩ := List.forall_mem_cons.mp h
    have common := ScalarTy.foldl_combine_not_float hts ht
    cases p.kind with
    | logic => rfl
    | compare => exact common
    | arith =>
      dsimp only
      by_cases hb : ts.foldl ScalarTy.combine t = .bool
      · rw [if_pos hb]
        rfl
      · rw [if_neg hb]
        exact common

theorem resultTy_not_float (p : Prim) {t : ScalarTy} (ht : t.isFloat = false) (ts : List ScalarTy) :
    (p.resultTy (t :: ts)).isFloat = false := by
  unfold resultTy
  cases p.kind <;> first | rfl | exact ht

end Prim

namespace Formula

theorem ty_not_float (f : Formula) : f.ty.isFloat = false := by
  induction f with
  | int i t ht => cases t <;> first | rfl | cases ht
  | bool b => rfl
  | var x t ht => exact ht
  | unary p x name ih => exact p.resultTy_not_float (p.operandTy_not_float (by simpa using ih)) _
  | binary p x y name ihx ihy => exact p.resultTy_not_float (p.operandTy_not_float (by simpa using ⟨ihx, ihy⟩)) _
  | cast x t ht ih => exact ht

end Formula

/-! ## Constants -/

namespace Scalar

/-- Converting an integer by way of a type that holds it as it is. -/
theorem convert_of_holds {s : ScalarTy} (hs : s.isFloat = false) (h : s.holds i = true) (t : ScalarTy) :
    ((int i).convert s).convert t = (int i).convert t := by
  cases s with
  | bool =>
    rcases (by simpa [ScalarTy.holds] using h : i = 0 ∨ i = 1) with rfl | rfl <;> cases t <;> rfl
  | i32 =>
    have hi : i.toInt32.toInt64 = i := of_decide_eq_true h
    show (int i.toInt32.toInt64).convert t = _
    rw [hi]
  | i64 => rfl
  | _ => cases hs

end Scalar

theorem Expr.scalar_literal (t : ScalarTy) (i : Int64) : Expr.scalar (t.literal i) t = .scalar i t := by
  cases t with
  | bool =>
    by_cases h : i = 0
    · rw [h]
      rfl
    · have hne : (i != 0) = true := by simpa using h
      simp only [ScalarTy.literal, if_neg h, Expr.scalar, hne]
      rfl
  | _ => rfl

theorem Eval.expr_literal (call : Caller) (L : Locals) {t : ScalarTy} (ht : t.isFloat = false) (i : Int64) :
    expr call L (.scalar i t) = pure (.scalar ((Scalar.int i).convert t)) := by
  cases t with
  | bool => rw [Expr.scalar, Expr.bool, expr]; rfl
  | i32 => rw [Expr.scalar, Expr.int, expr]; rfl
  | i64 => rw [Expr.scalar, Expr.int, expr]; rfl
  | _ => cases ht

/-! ## Code that computes -/

namespace Eval

/-- From locals `L` the code leaves locals and a result as `P` says, or stops with the error. It changes no
buffer. -/
inductive Computes {α : Type} (call : Caller) (fuel : Nat) (L : Locals) (out : Block) (P : Locals → α → Prop) :
    Except Error α → Prop
  | ok {a : α} {L' : Locals} (run : block call fuel out L = pure (.next L')) (left : P L' a) :
    Computes call fuel L out P (.ok a)
  | error {e : Error} (run : block call fuel out L = fail e) : Computes call fuel L out P (.error e)

/-- The expression stands for the scalar, which is one of element type `t`. -/
structure Stands (call : Caller) (t : ScalarTy) (e : Expr) (L : Locals) (v : Scalar) : Prop where
  eval : expr call L e = pure (.scalar v)
  ty : v.convert t = v

variable {α β : Type} {call : Caller} {fuel : Nat} {L L' : Locals} {out out' : Block} {P : Locals → α → Prop}
  {Q : Locals → β → Prop} {t : ScalarTy} {e : Expr} {v : Scalar}

theorem Stands.congr (h : Stands call t e L v) (hL : ∀ x ∈ e.reads, L'.get? x = L.get? x) : Stands call t e L' v := by
  refine ⟨?_, h.ty⟩
  rw [expr_congr e hL]
  exact h.eval

theorem Stands.literal (call : Caller) (ht : t.isFloat = false) (i : Int64) (L : Locals) :
    Stands call t (.scalar i t) L ((Scalar.int i).convert t) := by
  refine ⟨expr_literal call L ht i, Scalar.convert_convert _ ?_⟩
  rintro rfl
  cases ht

/-- A literal stands for nothing but what it evaluates to. -/
theorem Stands.eq_of_literal (ht : t.isFloat = false) (h : Stands call t (.scalar i t) L v) :
    v = (Scalar.int i).convert t := by
  have heq := congrFun (h.eval.symm.trans (expr_literal call L ht i)) ⟨#[]⟩
  cases heq
  rfl

namespace Computes

theorem nil {a : α} (h : P L a) : Computes call fuel L [] P (.ok a) := .ok (block_nil call fuel L) h

theorem prepend {r : Except Error β} (run : block call fuel out L = pure (.next L'))
    (h : Computes call fuel L' out' Q r) :
    Computes call fuel L (out ++ out') Q r := by
  have whole : block call fuel (out ++ out') L = block call fuel out' L' := by
    rw [block_append, run, pure_bind]
    rfl
  cases h with
  | ok run left => exact .ok (whole.trans run) left
  | error run => exact .error (whole.trans run)

/-- One after the other, where the second may use what the first has left and what it has not bound. -/
theorem andThen {r : Except Error α} {f : α → Except Error β} (h : Computes call fuel L out P r)
    (next : ∀ a L', P L' a → (∀ x, x ∉ Stmt.blockBinds out → L'.get? x = L.get? x) →
      Computes call fuel L' out' Q (f a)) :
    Computes call fuel L (out ++ out') Q (r >>= f) := by
  cases h with
  | ok run left => exact prepend run (next _ _ left (block_within (congrFun run ⟨#[]⟩)))
  | error run =>
    refine .error ?_
    rw [block_append, run]
    rfl

/-- A temporary for a scalar that is computed from the locals. -/
theorem temp {r : Except Error Scalar} (h : expr call L e = do return .scalar (← r))
    (hr : ∀ v, r = .ok v → v.convert t = v) (y : VarName) :
    Computes call fuel L [.assign (.var y (.scalar t)) e] (Stands call t (.var y (.scalar t))) r := by
  cases r with
  | ok v =>
    have hrun : block call fuel [.assign (.var y (.scalar t)) e] L = pure (.next (L.insert y (.scalar v))) := by
      rw [block_singleton, stmt, h]
      rfl
    exact .ok hrun ⟨by rw [expr, NameMap.get?_insert_self], hr v rfl⟩
  | error err =>
    refine .error ?_
    rw [block_singleton, stmt, h]
    rfl

/-- What code computes is what it gives to an expression evaluated after it. -/
theorem runThen {r : Except Error Scalar} (h : Computes call fuel L out (Stands call t e) r) :
    Eval.runThen call fuel out L e = do return .scalar (← r) := by
  rw [Eval.runThen]
  cases h with
  | ok run left =>
    rw [run, pure_bind]
    exact left.eval
  | error run =>
    rw [run]
    rfl

end Computes

end Eval

/-- Code has been appended that binds names taken meanwhile. -/
structure Adds (out : Block) (b b' : Builder) : Prop extends Emits (Stmt.blockBinds out) out b b' where
  taken : Taken (Stmt.blockBinds out) b.session.nextName b'.session.nextName

namespace Adds

variable {out out' : Block} {b b1 b2 : Builder}

theorem refl (b : Builder) : Adds [] b b := ⟨.refl b, .nil _ _⟩

theorem append (h : Adds out b b1) (h' : Adds out' b1 b2) : Adds (out ++ out') b b2 where
  toEmits := Stmt.blockBinds_append out out' ▸ h.toEmits.append h'.toEmits
  taken := Stmt.blockBinds_append out out' ▸ h.taken.append h'.taken h.next h'.next

theorem old (h : Adds out b b1) {x : VarName} (hx : b.Old x) : b1.Old x := fun a i hi =>
  Nat.lt_of_lt_of_le (hx a i hi) h.next

end Adds

/-! ## Operands -/

/-- What the builder has at hand for a scalar of type `t`: the literal of a known integer, or a name. -/
inductive Operand (t : ScalarTy) : Option Int64 → Expr → Prop
  | literal (i : Int64) : Operand t (some i) (.scalar i t)
  | name (x : VarName) : Operand t none (.var x (.scalar t))

/-- Code has been added for a scalar of type `t`, known to be `k` if that is there, and `e` is at hand for it. -/
structure Made (t : ScalarTy) (k : Option Int64) (out : Block) (e : Expr) (b b' : Builder) :
    Prop extends Adds out b b' where
  operand : Operand t k e
  old : ∀ x ∈ e.reads, b'.Old x

namespace Operand

variable {s t : ScalarTy} {k : Option Int64} {e : Expr}

theorem ty (h : Operand t k e) : e.ty = .scalar t := by
  cases h with
  | literal i => exact Build.scalar_ty i t
  | name x => rfl

theorem reads_literal (i : Int64) (t : ScalarTy) : (Expr.scalar i t).reads = [] := by
  cases t <;> simp [Expr.scalar, Expr.bool, Expr.int, Expr.reads, Expr.subterms_eq, Expr.var?]

theorem int? (h : Operand t k e) (ht : t.isInt = true) : e.int? = k := by
  cases h with
  | literal i => cases t <;> first | rfl | cases ht
  | name x => rfl

end Operand

theorem Build.cast_literal {s t : ScalarTy} (hs : s.isFloat = false) (hst : s ≠ t) (h : s.holds i = true) :
    cast (.scalar i s) t = pure (.scalar i t) := by
  unfold cast
  rw [scalar_ty]
  simp only [Ty.scalar?, if_neg hst]
  cases s with
  | bool =>
    rcases (by simpa [ScalarTy.holds] using h : i = 0 ∨ i = 1) with rfl | rfl <;> rfl
  | i32 => rfl
  | i64 => rfl
  | _ => cases hs

/-- A temporary, once it has been bound. -/
theorem Build.temp_adds (value : Expr) (name : String) (b : Builder) :
    ∃ y b', temp value name b = .ok (.var y value.ty) b' ∧
    Adds [.assign (.var y value.ty) value] b b' ∧ b'.Old y := by
  have h : temp value name b = .ok _ _ := rfl
  obtain ⟨y, hy, hadds, htaken⟩ := temp_ok h
  refine ⟨y, _, h.trans (by rw [hy]), ⟨hadds, htaken⟩, ?_⟩
  obtain ⟨a, i, rfl, -, hi⟩ := htaken.number y List.mem_cons_self
  exact Builder.old_numbered hi a

theorem Made.name {t : ScalarTy} {out : Block} {y : VarName} {b b' : Builder} (h : Adds out b b') (hy : b'.Old y) :
    Made t none out (.var y (.scalar t)) b b' := by
  refine ⟨h, .name y, fun x hx => ?_⟩
  simp only [Expr.reads_var, List.mem_singleton] at hx
  exact hx ▸ hy

theorem Made.literal (t : ScalarTy) (i : Int64) (b : Builder) : Made t (some i) [] (.scalar i t) b b := by
  refine ⟨.refl b, .literal i, fun x hx => ?_⟩
  rw [Operand.reads_literal] at hx
  exact absurd hx List.not_mem_nil

/-- Casting an operand. What is known stays known, and what is computed is the scalar converted. -/
theorem Operand.cast {s t : ScalarTy} {k : Option Int64} {e : Expr} (h : Operand s k e) (hs : s.isFloat = false)
    (ht : t.isFloat = false) (hk : s = t ∨ k.all s.holds = true) {b : Builder} (hold : ∀ x ∈ e.reads, b.Old x) :
    ∃ out e' b', Build.cast e t b = .ok e' b' ∧ Made t (k.map t.literal) out e' b b' ∧
      ∀ call fuel L v, Eval.Stands call s e L v → Eval.Computes call fuel L out (Eval.Stands call t e')
        (.ok (v.convert t)) := by
  by_cases hst : s = t
  · subst hst
    refine ⟨[], e, b, by rw [Build.cast_self h.ty]; rfl, ⟨.refl b, ?_, hold⟩, fun call fuel L v hv => .nil ?_⟩
    · cases h with
      | literal i => exact Expr.scalar_literal s i ▸ .literal (s.literal i)
      | name x => exact .name x
    · rw [hv.ty]
      exact hv
  · cases h with
    | literal i =>
      have hi : s.holds i = true := hk.resolve_left hst
      refine ⟨[], .scalar i t, b, by rw [Build.cast_literal hs hst hi]; rfl, ?_, fun call fuel L v hv => .nil ?_⟩
      · exact Expr.scalar_literal t i ▸ .literal t (t.literal i) b
      · rw [hv.eq_of_literal hs, Scalar.convert_of_holds hs hi t]
        exact .literal call ht i L
    | name x =>
      have hcast : Build.cast (.var x (.scalar s)) t b =
          Build.temp (.cast (.var x (.scalar s)) (.scalar t)) "cast" b := by
        unfold Build.cast
        simp only [Expr.ty, Ty.scalar?, if_neg hst]
      obtain ⟨y, b', htemp, hadds, hy⟩ := Build.temp_adds (.cast (.var x (.scalar s)) (.scalar t)) "cast" b
      refine ⟨_, _, b', hcast.trans htemp, .name hadds hy,
        fun call fuel L v hv => .temp (r := .ok (v.convert t)) ?_ ?_ y⟩
      · rw [Eval.expr, hv.eval]
        rfl
      · rintro _ ⟨⟩
        exact Scalar.convert_convert v fun e => by rw [e] at ht; cases ht

/-! ## Primitives -/

namespace Eval

theorem exprs_scalars {call : Caller} {L : Locals}
    (h : List.Forall₂ (fun e v => expr call L e = pure (.scalar v)) es vs) :
    exprs call L es = pure (vs.map .scalar) := by
  induction h with
  | nil => rw [exprs]; rfl
  | cons he _ ih =>
    rw [exprs, he, pure_bind, ih, pure_bind]
    rfl

/-- A primitive on expressions that stand for scalars. -/
theorem expr_prim {call : Caller} {L : Locals} (h : List.Forall₂ (fun e v => expr call L e = pure (.scalar v)) es vs)
    (p : Prim) (t : ScalarTy) : expr call L (.prim p es (.scalar t)) = do return .scalar (← p.eval vs t) := by
  have hscalars : Value.asScalars (vs.map .scalar) = .ok vs := by
    clear h
    induction vs with
    | nil => rfl
    | cons v vs ih =>
      rw [Value.asScalars] at ih ⊢
      rw [List.map_cons, List.mapM_cons, ih]
      rfl
  rw [expr, exprs_scalars h, pure_bind, hscalars]
  rfl

end Eval

namespace Prim

variable {p : Prim} {t : ScalarTy}

theorem eval_ty (ht : t.isFloat = false) {v : Scalar} (h : p.eval vs t = .ok v) : v.convert t = v := by
  obtain ⟨u, -, hv⟩ := except_bind_ok h
  cases hv
  exact u.convert_convert fun e => by rw [e] at ht; cases ht

/-- The type of integer operands holds every integer that their own types hold. -/
theorem convert_operandTy (hp : p.kind = .arith) {s : ScalarTy} (hs : s.isFloat = false) (ht : t.isFloat = false)
    (h : s.holds i = true) :
    (Scalar.int i).convert (p.operandTy [s, t]) = .int i ∧ (Scalar.int i).convert (p.operandTy [t, s]) = .int i := by
  unfold operandTy
  rw [hp]
  cases s with
  | bool =>
    rcases (by simpa [ScalarTy.holds] using h : i = 0 ∨ i = 1) with rfl | rfl <;> cases t <;>
      first | exact ⟨rfl, rfl⟩ | cases ht
  | i32 =>
    have hi : i.toInt32.toInt64 = i := of_decide_eq_true h
    have hconv : (Scalar.int i).convert .i32 = .int i := congrArg Scalar.int hi
    cases t <;> first | exact ⟨hconv, hconv⟩ | exact ⟨rfl, rfl⟩ | cases ht
  | i64 => cases t <;> first | exact ⟨rfl, rfl⟩ | cases ht
  | _ => cases hs

theorem operandTy_isInt (hp : p.kind = .arith) {s : ScalarTy} (hs : s.isFloat = false) (ht : t.isFloat = false) :
    (p.operandTy [s, t]).isInt = true := by
  unfold operandTy
  rw [hp]
  cases s <;> cases t <;> first | rfl | exact absurd hs (by decide) | exact absurd ht (by decide)

theorem kind_of_foldInts? {j k : Int64} (h : Build.foldInts? p i j = some k) : p.kind = .arith := by
  cases p <;> first | rfl | cases h

/-- Folding is the operation at run time, where that is done on the integers as they are or wraps anyway. -/
theorem eval_folded {j k : Int64} (ht : t.isInt = true) (h : Build.foldInts? p i j = some k)
    (hw : p.wraps = true ∨ (Scalar.int i).convert t = .int i ∧ (Scalar.int j).convert t = .int j) :
    p.eval [(Scalar.int i).convert t, (Scalar.int j).convert t] t = .ok ((Scalar.int k).convert t) := by
  have hfloat : t.isFloat = false := by cases t <;> first | rfl | cases ht
  have hk := Build.foldInts?_onInts h
  rcases hw with hw | ⟨hi, hj⟩
  · cases t with
    | i64 => exact eval_ints rfl rfl rfl rfl rfl hk
    | i32 =>
      show p.eval [.int i.toInt32.toInt64, .int j.toInt32.toInt64] .i32 = .ok (.int k.toInt32.toInt64)
      have narrow : ∀ k', p.onInts i.toInt32.toInt64 j.toInt32.toInt64 = .ok k' → k'.toInt32 = k.toInt32 →
          p.eval [.int i.toInt32.toInt64, .int j.toInt32.toInt64] .i32 = .ok (.int k.toInt32.toInt64) := by
        intro k' hk' e
        rw [eval_ints (t := .i32) rfl rfl rfl rfl rfl hk']
        show Except.ok (Scalar.int k'.toInt32.toInt64) = _
        rw [e]
      cases p with
      | add =>
        cases hk
        exact narrow _ rfl (by simp)
      | sub =>
        cases hk
        exact narrow _ rfl (by simp)
      | mul =>
        cases hk
        exact narrow _ rfl (by simp)
      | div => cases hw
      | min => cases hw
      | max => cases hw
      | _ => cases h
    | _ => cases ht
  · rw [hi, hj]
    exact eval_ints hfloat rfl rfl rfl rfl hk

end Prim

/-- A primitive that is not folded is bound to a temporary. -/
theorem Build.primOf_temp {p : Prim} {t : ScalarTy} (ht : t.isFloat = false) (h : folded? p es = none) (name : String)
    (b : Builder) : ∃ out e b', primOf p t name es b = .ok e b' ∧ Made t none out e b b' ∧
      ∀ call fuel L vs, List.Forall₂ (fun e v => Eval.expr call L e = pure (.scalar v)) es vs →
        Eval.Computes call fuel L out (Eval.Stands call t e) (p.eval vs t) := by
  obtain ⟨y, b', htemp, hadds, hy⟩ := temp_adds (.prim p es (.scalar t)) name b
  refine ⟨_, _, b', ?_, .name hadds hy, fun call fuel L vs hvs => .temp (Eval.expr_prim hvs p t) ?_ y⟩
  · unfold primOf
    rw [h]
    exact htemp
  · exact fun v hv => Prim.eval_ty ht hv

/-- Two operands, one computed after the other, and both cast. -/
theorem Build.castAll_two {s t : ScalarTy} {x y x' y' : Expr} {b b1 b2 : Builder} (hx : cast x s b = .ok x' b1)
    (hy : cast y t b1 = .ok y' b2) : castAll [(x, s), (y, t)] b = .ok [x', y'] b2 := by
  rw [castAll, state_bind_of_ok hx, castAll, bind_assoc, state_bind_of_ok hy]
  rfl

/-! ## Building a formula -/

namespace Formula

variable {x y : Formula} {p : Prim} {name : String}

theorem converts_iff {t : ScalarTy} : x.converts t = true ↔ x.ty = t ∨ x.known.all x.ty.holds = true := by
  simp [converts, fits]

theorem folded_known {o : ScalarTy} (ho : o = p.operandTy [x.ty, y.ty]) {e e' : Expr}
    (hx : Operand o (x.known.map o.literal) e) (hy : Operand o (y.known.map o.literal) e') :
    Build.folded? p [e, e'] = (binary p x y name).known := by
  rw [Build.folded?, known]
  by_cases hp : p.kind = .arith
  · have hint : o.isInt = true := ho ▸ Prim.operandTy_isInt hp x.ty_not_float y.ty_not_float
    have hlit : o.literal = id := by cases o <;> first | rfl | cases hint
    rw [hx.int? hint, hy.int? hint, hlit, Option.map_id, id, id]
  · have hnone : ∀ i j, Build.foldInts? p i j = none := by
      intro i j
      cases h : Build.foldInts? p i j with
      | none => rfl
      | some k => exact absurd (Prim.kind_of_foldInts? h) hp
    simp only [hnone, Option.bind_eq_bind, Option.bind_fun_none]

/-- The primitive on two operands that have been cast: a literal if both are known and it can be folded. -/
theorem primOf_binary (name : String) (hf : p.wraps = true ∨ x.fits = true ∧ y.fits = true) {e e' : Expr}
    (hx : Operand (p.operandTy [x.ty, y.ty]) (x.known.map (p.operandTy [x.ty, y.ty]).literal) e)
    (hy : Operand (p.operandTy [x.ty, y.ty]) (y.known.map (p.operandTy [x.ty, y.ty]).literal) e') (b : Builder) :
    ∃ out e1 b', Build.primOf p (binary p x y name).ty name [e, e'] b = .ok e1 b' ∧
      Made (binary p x y name).ty (binary p x y name).known out e1 b b' ∧
      ∀ call fuel L v u, Eval.Stands call (p.operandTy [x.ty, y.ty]) e L v →
        Eval.Stands call (p.operandTy [x.ty, y.ty]) e' L u →
        Eval.Computes call fuel L out (Eval.Stands call (binary p x y name).ty e1)
          (p.eval [v, u] (binary p x y name).ty) := by
  have hfolded : Build.folded? p [e, e'] = (binary p x y name).known := folded_known rfl hx hy
  cases hk : (binary p x y name).known with
  | none =>
    obtain ⟨out, e1, b', hb, hm, hc⟩ := Build.primOf_temp (binary p x y name).ty_not_float (hfolded.trans hk) name b
    exact ⟨out, e1, b', hb, hm, fun call fuel L v u hv hu => hc call fuel L [v, u] (.cons hv.eval (.cons hu.eval .nil))⟩
  | some k =>
    obtain ⟨i, hi, hk'⟩ := Option.bind_eq_some_iff.mp hk
    obtain ⟨j, hj, hfold⟩ := Option.bind_eq_some_iff.mp hk'
    have hp := Prim.kind_of_foldInts? hfold
    have hint := Prim.operandTy_isInt hp x.ty_not_float y.ty_not_float
    have hty : (binary p x y name).ty = p.operandTy [x.ty, y.ty] := by
      rw [ty, Prim.resultTy, hp]
      rfl
    have hfits : p.wraps = true ∨ (Scalar.int i).convert (p.operandTy [x.ty, y.ty]) = .int i ∧
        (Scalar.int j).convert (p.operandTy [x.ty, y.ty]) = .int j := by
      refine hf.imp_right fun ⟨hfx, hfy⟩ => ?_
      rw [fits, hi] at hfx
      rw [fits, hj] at hfy
      exact ⟨(Prim.convert_operandTy hp x.ty_not_float y.ty_not_float hfx).1,
        (Prim.convert_operandTy hp y.ty_not_float x.ty_not_float hfy).2⟩
    rw [hi] at hx
    rw [hj] at hy
    rw [hty]
    generalize p.operandTy [x.ty, y.ty] = o at *
    have hfloat : o.isFloat = false := by cases o <;> first | rfl | cases hint
    have hlit : o.literal = id := by cases o <;> first | rfl | cases hint
    rw [hlit] at hx hy
    refine ⟨[], .scalar k o, b, ?_, .literal o k b, fun call fuel L v u hv hu => ?_⟩
    · have : Expr.int k o = .scalar k o := by cases o <;> first | rfl | cases hint
      unfold Build.primOf
      rw [hfolded, hk, ← this]
      exact congrFun (Build.literal_of_isInt hint k) b
    · cases hx
      cases hy
      rw [hv.eq_of_literal hfloat, hu.eq_of_literal hfloat, id, id, Prim.eval_folded hint hfold hfits]
      exact .nil (.literal call hfloat k L)

/-- The builder makes code of the formula that computes its value. -/
def Builds (f : Formula) (b : Builder) : Prop :=
  ∃ out e b', f.build b = .ok e b' ∧ Made f.ty f.known out e b b' ∧ ∀ call fuel ρ L, f.Valued ρ L →
    Eval.Computes call fuel L out (Eval.Stands call f.ty e) (f.value ρ)

namespace Builds

variable {b : Builder}

theorem int (i : Int64) (t : ScalarTy) (ht : t.isInt = true) : Builds (.int i t ht) b := by
  have hlit : Expr.int i t = .scalar i t := by cases t <;> first | rfl | cases ht
  refine ⟨[], .scalar i t, b, congrArg (EStateM.Result.ok · b) hlit, .literal t i b, fun call fuel ρ L _ => .nil ?_⟩
  exact .literal call (Formula.int i t ht).ty_not_float i L

theorem bool (c : Bool) : Builds (.bool c) b := by
  have hlit : Expr.bool c = .scalar (if c then 1 else 0) .bool := by cases c <;> rfl
  have hval : Scalar.bool c = (Scalar.int (if c then 1 else 0)).convert .bool := by cases c <;> rfl
  refine ⟨[], _, b, congrArg (EStateM.Result.ok · b) hlit, .literal .bool _ b, fun call fuel ρ L _ => .nil ?_⟩
  exact hval ▸ .literal call rfl _ L

theorem var {z : VarName} (hz : b.Old z) (t : ScalarTy) (ht : t.isFloat = false) : Builds (.var z t ht) b := by
  refine ⟨[], _, b, rfl, .name (.refl b) hz, fun call fuel ρ L hL => .nil ?_⟩
  obtain ⟨hz, hty⟩ := hL _ List.mem_cons_self
  refine ⟨?_, hty⟩
  rw [Eval.expr, hz]

theorem cast (h : Builds x b) {t : ScalarTy} (ht : t.isFloat = false) (hx : x.converts t = true) :
    Builds (.cast x t ht) b := by
  obtain ⟨o1, e1, b1, hb1, hm1, hc1⟩ := h
  obtain ⟨o2, e2, b2, hb2, hm2, hc2⟩ := hm1.operand.cast x.ty_not_float ht (converts_iff.mp hx) hm1.old
  refine ⟨o1 ++ o2, e2, b2, ?_, { hm2 with toAdds := hm1.append hm2.toAdds }, fun call fuel ρ L hL => ?_⟩
  · rw [build, state_bind_of_ok hb1]
    exact hb2
  · exact (hc1 call fuel ρ L hL).andThen fun v L1 hv _ => hc2 call fuel L1 v hv

theorem unary (h : Builds x b) (hx : x.converts (p.operandTy [x.ty]) = true) : Builds (.unary p x name) b := by
  have ho : (p.operandTy [x.ty]).isFloat = false := p.operandTy_not_float (by simp [x.ty_not_float])
  obtain ⟨o1, e1, b1, hb1, hm1, hc1⟩ := h
  obtain ⟨o2, e2, b2, hb2, hm2, hc2⟩ := hm1.operand.cast x.ty_not_float ho (converts_iff.mp hx) hm1.old
  have hnone : Build.folded? p [e2] = none := rfl
  obtain ⟨o3, e3, b3, hb3, hm3, hc3⟩ := Build.primOf_temp (Formula.unary p x name).ty_not_float hnone name b2
  refine ⟨o1 ++ (o2 ++ o3), e3, b3, ?_, { hm3 with toAdds := hm1.append (hm2.append hm3.toAdds) },
    fun call fuel ρ L hL => ?_⟩
  · rw [build, state_bind_of_ok hb1, Build.prim_eq (.cons hm1.operand.ty .nil)]
    refine (state_bind_of_ok (a := [e2]) ?_).trans hb3
    show Build.castAll [(e1, p.operandTy [x.ty])] b1 = _
    rw [Build.castAll, state_bind_of_ok hb2]
    rfl
  · refine (hc1 call fuel ρ L hL).andThen fun v L1 hv _ => ?_
    exact (hc2 call fuel L1 v hv).andThen (f := fun u => p.eval [u] _) fun u L2 hu _ =>
      hc3 call fuel L2 [u] (.cons hu.eval .nil)

theorem binary (h : Builds x b) (h' : ∀ {b1 : Builder}, (∀ q ∈ y.vars, b1.Old q.1) → Builds y b1)
    (hold : ∀ q ∈ y.vars, b.Old q.1) (hx : x.converts (p.operandTy [x.ty, y.ty]) = true)
    (hy : y.converts (p.operandTy [x.ty, y.ty]) = true) (hf : p.wraps = true ∨ x.fits = true ∧ y.fits = true) :
    Builds (.binary p x y name) b := by
  have ho : (p.operandTy [x.ty, y.ty]).isFloat = false :=
    p.operandTy_not_float (by simp [x.ty_not_float, y.ty_not_float])
  obtain ⟨o1, e1, b1, hb1, hm1, hc1⟩ := h
  have h2 : Builds y b1 := h' fun q hq => hm1.toAdds.old (hold q hq)
  obtain ⟨o2, e2, b2, hb2, hm2, hc2⟩ := h2
  have hold1 : ∀ z ∈ e1.reads, b2.Old z := fun z hz => hm2.toAdds.old (hm1.old z hz)
  obtain ⟨o3, e3, b3, hb3, hm3, hc3⟩ := hm1.operand.cast x.ty_not_float ho (converts_iff.mp hx) hold1
  have hold2 : ∀ z ∈ e2.reads, b3.Old z := fun z hz => hm3.toAdds.old (hm2.old z hz)
  obtain ⟨o4, e4, b4, hb4, hm4, hc4⟩ := hm2.operand.cast y.ty_not_float ho (converts_iff.mp hy) hold2
  obtain ⟨o5, e5, b5, hb5, hm5, hc5⟩ := primOf_binary name hf hm3.operand hm4.operand b4
  have hadds : Adds (o1 ++ (o2 ++ (o3 ++ (o4 ++ o5)))) b b5 :=
    hm1.append (hm2.append (hm3.append (hm4.append hm5.toAdds)))
  refine ⟨_, e5, b5, ?_, { hm5 with toAdds := hadds }, fun call fuel ρ L hL => ?_⟩
  · rw [build, state_bind_of_ok hb1, state_bind_of_ok hb2,
      Build.prim_eq (.cons hm1.operand.ty (.cons hm2.operand.ty .nil))]
    exact (state_bind_of_ok (Build.castAll_two hb3 hb4)).trans hb5
  · -- each operand is still there once the code after it has run, for that binds names taken later
    refine (hc1 call fuel ρ L (hL.mono fun q hq => List.mem_append_left _ hq)).andThen fun v L1 hv frame1 => ?_
    have hL1 : y.Valued ρ L1 := (hL.mono fun q hq => List.mem_append_right _ hq).congr fun q hq =>
      frame1 q.1 (hm1.taken.not_mem_of_older (hold q hq))
    refine (hc2 call fuel ρ L1 hL1).andThen fun u L2 hu frame2 => ?_
    have hv2 := hv.congr fun z hz => frame2 z (hm2.taken.not_mem_of_older (hm1.old z hz))
    refine (hc3 call fuel L2 v hv2).andThen (f := fun v => p.eval [v, u.convert _] _) fun v' L3 hv3 frame3 => ?_
    have hu3 := hu.congr fun z hz => frame3 z (hm3.taken.not_mem_of_older (hm2.old z hz))
    refine (hc4 call fuel L3 u hu3).andThen (f := fun u => p.eval [v', u] _) fun u' L4 hu4 frame4 => ?_
    exact hc5 call fuel L4 v' u' (hv3.congr fun z hz => frame4 z (hm4.taken.not_mem_of_older (hm3.old z hz))) hu4

end Builds

theorem build_ok (f : Formula) (hf : f.exact = true) {b : Builder} (hold : ∀ q ∈ f.vars, b.Old q.1) : f.Builds b := by
  induction f generalizing b with
  | int i t ht => exact .int i t ht
  | bool c => exact .bool c
  | var x t ht => exact .var (hold _ List.mem_cons_self) t ht
  | unary p x name ih =>
    rw [exact, Bool.and_eq_true] at hf
    exact (ih hf.1 hold).unary hf.2
  | binary p x y name ihx ihy =>
    simp only [exact, Bool.and_eq_true, Bool.or_eq_true] at hf
    obtain ⟨⟨⟨⟨hx, hy⟩, hcx⟩, hcy⟩, hw⟩ := hf
    exact (ihx hx fun q hq => hold q (List.mem_append_left _ hq)).binary (ihy hy)
      (fun q hq => hold q (List.mem_append_right _ hq)) hcx hcy hw
  | cast x t ht ih =>
    rw [exact, Bool.and_eq_true] at hf
    exact (ih hf.1 hold).cast ht hf.2

/-- Evaluating the formula as one expression gives its value. -/
theorem expr_unfolded {L : Locals} (hL : f.Valued ρ L) (call : Caller) :
    Eval.expr call L f.unfolded = do return .scalar (← f.value ρ) := by
  have converted : ∀ {e : Expr} {r : Except Error Scalar} (t : ScalarTy),
    Eval.expr call L e = (do return .scalar (← r)) →
      Eval.expr call L (.cast e (.scalar t)) = do return .scalar (← (r.map (·.convert t))) := by
    intro e r t h
    rw [Eval.expr, h]
    cases r <;> rfl
  induction f with
  | int i t ht => rw [unfolded, Expr.int, Eval.expr]; rfl
  | bool c => rw [unfolded, Expr.bool, Eval.expr]; rfl
  | var x t ht =>
    rw [unfolded, Eval.expr, (hL _ List.mem_cons_self).1]
    rfl
  | unary p x name ih =>
    have hx := converted (p.operandTy [x.ty]) (ih hL)
    rw [unfolded, value]
    cases hv : x.value ρ with
    | ok v =>
      rw [hv] at hx
      have hargs : List.Forall₂ (fun e v => Eval.expr call L e = pure (.scalar v)) [_] [_] := .cons hx .nil
      exact Eval.expr_prim hargs p _
    | error err =>
      rw [hv] at hx
      rw [Eval.expr, Eval.exprs, hx]
      rfl
  | binary p x y name ihx ihy =>
    have hx := converted (p.operandTy [x.ty, y.ty]) (ihx (hL.mono fun q hq => List.mem_append_left _ hq))
    have hy := converted (p.operandTy [x.ty, y.ty]) (ihy (hL.mono fun q hq => List.mem_append_right _ hq))
    rw [unfolded, value]
    cases hv : x.value ρ with
    | ok v =>
      cases hu : y.value ρ with
      | ok u =>
        rw [hv] at hx
        rw [hu] at hy
        have hargs : List.Forall₂ (fun e v => Eval.expr call L e = pure (.scalar v)) [_, _] [_, _] :=
          .cons hx (.cons hy .nil)
        exact Eval.expr_prim hargs p _
      | error err =>
        rw [hv] at hx
        rw [hu] at hy
        rw [Eval.expr, Eval.exprs, hx, Eval.exprs, hy]
        rfl
    | error err =>
      rw [hv] at hx
      rw [Eval.expr, Eval.exprs, hx]
      rfl
  | cast x t ht ih => exact converted t (ih hL)

/-- Folding is computing early: the formula can be built, and running the code that has been appended, and
then evaluating what the builder has returned, does what evaluating the formula as one expression does. -/
theorem folding_agrees (f : Formula) (hf : f.exact = true) (b : Builder) (hold : ∀ q ∈ f.vars, b.Old q.1) :
    ∃ out e b', f.build b = .ok e b' ∧ b'.block = b.block ++ out ∧ e.ty = .scalar f.ty ∧
      ∀ call fuel ρ L, f.Valued ρ L → Eval.runThen call fuel out L e = Eval.expr call L f.unfolded := by
  obtain ⟨out, e, b', hb, hm, hc⟩ := f.build_ok hf hold
  refine ⟨out, e, b', hb, hm.block, hm.operand.ty, fun call fuel ρ L hL => ?_⟩
  rw [(hc call fuel ρ L hL).runThen, expr_unfolded hL call]

/-- The larger of `(20 + 22) / x` in `i32` and of a folded `i64` that is narrowed, widened in the end. -/
def larger : Formula :=
  .cast (.binary .max
    (.binary .div (.binary .add (.int 20 .i32 rfl) (.int 22 .i32 rfl) "sum") (.var "x" .i32 rfl) "quotient")
    (.cast (.binary .mul (.int 3 .i64 rfl) (.int (-2) .i64 rfl) "product") .i32 rfl) "larger") .i64 rfl

theorem folding_agrees_larger : larger.exact = true ∧ (∀ q ∈ larger.vars, (⟨{}, .empty, []⟩ : Builder).Old q.1) ∧
    ∃ out e b', larger.build ⟨{}, .empty, []⟩ = .ok e b' ∧ b'.block = [] ++ out ∧ e.ty = .scalar larger.ty ∧
      ∀ call fuel ρ L, larger.Valued ρ L → Eval.runThen call fuel out L e = Eval.expr call L larger.unfolded := by
  have hexact : larger.exact = true := by decide
  have hold : ∀ q ∈ larger.vars, (⟨{}, .empty, []⟩ : Builder).Old q.1 := by
    intro q hq a i h
    obtain rfl : q = ("x", .i32) := by simpa [larger, vars] using hq
    have hdot := congrArg (fun s : String => '.' ∈ s.toList) h
    simp [numbered] at hdot
  exact ⟨hexact, hold, folding_agrees larger hexact ⟨{}, .empty, []⟩ hold⟩

/-- The largest `i32` and one, widened. -/
def widenedSum : Formula := .cast (.binary .add (.int 2147483647 .i32 rfl) (.int 1 .i32 rfl) "sum") .i64 rfl

/-- The sum is folded to an `i32` that is out of its range, and stays so when it is widened; at run time it wraps. -/
theorem folded_sum_not_narrowed : widenedSum.build ⟨{}, .empty, []⟩ = .ok (.int64 2147483648) ⟨{}, .empty, []⟩ ∧
    Eval.expr (fun _ _ => throw .exhausted) .empty (.int64 2147483648) ⟨#[]⟩ = .ok (.int 2147483648) ⟨#[]⟩ ∧
    Eval.expr (fun _ _ => throw .exhausted) .empty widenedSum.unfolded ⟨#[]⟩ = .ok (.int (-2147483648)) ⟨#[]⟩ := by
  exact ⟨rfl, rfl, rfl⟩

end Formula

end ArrayIR
