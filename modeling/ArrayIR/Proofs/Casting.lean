/-
  ArrayIR.Proofs.Casting — what the builder emits to convert a scalar.

  Code that the builder has emitted, and the expression it has returned, belong
  together: the code is run first, and then the expression evaluated (`runThen`). A
  cast is such a pair. Whether it is folded into a constant or bound to a temporary,
  it gives the scalar converted (`Casts.run`).
-/

import ArrayIR.Proofs.Emission
import ArrayIR.Proofs.Frame
import ArrayIR.Proofs.Scoped

namespace ArrayIR

/-! ## Code and a value after it -/

namespace Eval

/-- Run code, and evaluate an expression after it. -/
def runThen (call : Caller) (fuel : Nat) (code : Block) (L : Locals) (e : Expr) : Exec Value := do
  match ← block call fuel code L with
  | .returned v => return v
  | .next L => expr call L e

variable {call : Caller} {fuel : Nat} {L : Locals}

@[simp] theorem runThen_nil (e : Expr) : runThen call fuel [] L e = expr call L e := by
  rw [runThen, block_nil, pure_bind]

theorem runThen_append (code code' : Block) (e : Expr) : runThen call fuel (code ++ code') L e =
    block call fuel code L >>= fun fl =>
      match fl with
      | .returned v => pure v
      | .next L => runThen call fuel code' L e := by
  rw [runThen, block_append, bind_assoc]
  refine bind_congr fun fl => ?_
  cases fl with
  | returned v => exact pure_bind (m := Exec) _ _
  | next L => rfl

/-- Evaluating an expression after code is returning it there. -/
theorem runThen_eq_ret (fn : FnName) (code : Block) (e : Expr) : runThen call fuel code L e =
    block call fuel (code ++ [.ret e]) L >>= fun fl =>
      match fl with
      | .returned v => pure v
      | .next _ => fail (.runtime (.noReturn fn)) := by
  rw [block_append, bind_assoc, runThen]
  refine bind_congr fun fl => ?_
  cases fl with
  | returned v => exact (pure_bind (m := Exec) _ _).symm
  | next L =>
    show _ = block call fuel [.ret e] L >>= _
    rw [block_singleton, stmt, bind_assoc]
    simp

/-- A temporary bound at the end of the code holds what is evaluated there. -/
theorem runThen_temp (code : Block) (e : Expr) (y : VarName) (t u : Ty) :
    runThen call fuel (code ++ [.assign (.var y t) e]) L (.var y u) = runThen call fuel code L e := by
  rw [runThen_append, runThen]
  refine bind_congr fun fl => ?_
  cases fl with
  | returned v => rfl
  | next L =>
    show block call fuel [.assign (.var y t) e] L >>= _ = _
    rw [block_singleton, stmt, bind_assoc]
    refine (bind_congr fun v => ?_).trans (bind_pure _)
    show expr call (L.insert y v) (.var y u) = _
    rw [expr, NameMap.get?_insert_self]

/-- Code without a return comes to its end, and changes only what it binds. -/
theorem runThen_ok {code : Block} {e : Expr} {st st2 : Store} {v : Value} (hret : Stmt.blockReturns code = false)
    (h : runThen call fuel code L e st = .ok v st2) :
    ∃ L' st1, block call fuel code L st = .ok (.next L') st1 ∧ expr call L' e st1 = .ok v st2 ∧
      ∀ x, x ∉ Stmt.blockBinds code → L'.get? x = L.get? x := by
  obtain ⟨fl, st1, hcode, he⟩ := state_bind_ok h
  have hwithin := block_within hcode
  cases fl with
  | returned u =>
    rw [hret] at hwithin
    cases hwithin
  | next L' => exact ⟨L', st1, hcode, he, hwithin⟩

end Eval

/-! ## Conversions -/

namespace Scalar

/-- A scalar is what it is converted to, if that is its own type. -/
theorem convert_self (x : Scalar) : x.convert x.ty = x := by
  cases x <;> rfl

/-- Converting once more to a type changes nothing, but for the rounding to single precision. -/
theorem convert_convert (x : Scalar) {t : ScalarTy} (h : t ≠ .f32) : (x.convert t).convert t = x.convert t := by
  cases t with
  | bool => rfl
  | i32 =>
    show int (x.toInt32.toInt64).toInt32.toInt64 = int x.toInt32.toInt64
    rw [Int32.toInt32_toInt64]
  | i64 => rfl
  | f32 => exact absurd rfl h
  | f64 => rfl

/-- A boolean converts as the integer it counts for. -/
theorem convert_bool (c : Bool) (t : ScalarTy) : (bool c).convert t = (int (if c then 1 else 0)).convert t := by
  cases t with
  | bool => cases c <;> rfl
  | i32 => cases c <;> rfl
  | i64 => rfl
  | f32 => rfl
  | f64 => rfl

end Scalar

namespace Eval

/-- What a literal made for an element type evaluates to. Into single precision it is rounded only when
it is stored. -/
theorem expr_scalar (call : Caller) (L : Locals) (i : Int64) (t : ScalarTy) :
    ∃ y, expr call L (.scalar i t) = pure (.scalar y) ∧
    (y = (Scalar.int i).convert t ∨ y.convert t = (Scalar.int i).convert t) := by
  cases t with
  | bool => exact ⟨.bool (i != 0), by rw [Expr.scalar, Expr.bool, expr]; rfl, .inl rfl⟩
  | i32 => exact ⟨(Scalar.int i).convert .i32, by rw [Expr.scalar, Expr.int, expr]; rfl, .inl rfl⟩
  | i64 => exact ⟨(Scalar.int i).convert .i64, by rw [Expr.scalar, Expr.int, expr]; rfl, .inl rfl⟩
  | f32 => exact ⟨.float i.toFloat, by rw [Expr.scalar, expr]; rfl, .inr rfl⟩
  | f64 => exact ⟨.float i.toFloat, by rw [Expr.scalar, expr]; rfl, .inl rfl⟩

theorem wholeAxis_pure {call : Caller} {L : Locals} : expr call L .wholeAxis = pure .wholeAxis := by
  simp only [Expr.wholeAxis, Expr.range, Expr.nothing, Expr.int64, Expr.int, expr, pure_bind]
  rfl

end Eval

/-- An integer literal evaluates to the integer it is written with: it does not have a type that wraps or rounds it. -/
def Expr.PlainLiteral (e : Expr) : Prop := ∀ i t, e = .const (.int i) t → Eval.constant (.int i) t = .int i

namespace Build.Casts

open Eval

variable {e e' : Expr} {t : ScalarTy} {out : Block} {call : Caller} {fuel : Nat} {L : Locals}
  {st st1 : Store} {x : Scalar}

/-- The scalar converted: as it is, if it has the type already, and rounded to single precision only when
it is stored. -/
theorem run (h : Casts e t out e') (hlit : e.PlainLiteral) (hx : expr call L e st = .ok (.scalar x) st1) :
    ∃ y, runThen call fuel out L e' st = .ok (.scalar y) st1 ∧ (y = x.convert t ∨ y.convert t = x.convert t) := by
  have literal : ∀ i : Int64, expr call L e = pure (.scalar x) → x.convert t = (Scalar.int i).convert t →
      ∃ y, runThen call fuel [] L (.scalar i t) st = .ok (.scalar y) st1 ∧
        (y = x.convert t ∨ y.convert t = x.convert t) := by
    intro i hpure hconv
    rw [hpure] at hx
    cases hx
    obtain ⟨y, hy, hyt⟩ := expr_scalar call L i t
    refine ⟨y, ?_, hconv ▸ hyt⟩
    rw [runThen_nil, hy]
    rfl
  cases h with
  | same hty =>
    refine ⟨x, ?_, .inr rfl⟩
    rw [runThen_nil]
    exact hx
  | @int i u he =>
    subst he
    have hplain : expr call L (.const (.int i) u) = pure (.int i) := by rw [expr, hlit i u rfl]
    rw [hplain] at hx
    cases hx
    exact literal i hplain rfl
  | @bool c u he =>
    subst he
    rw [expr] at hx
    cases hx
    exact literal _ (by rw [expr]; rfl) (Scalar.convert_bool c t)
  | temp y =>
    refine ⟨x.convert t, ?_, .inl rfl⟩
    have hcast : expr call L (.cast e (.scalar t)) st = .ok (.scalar (x.convert t)) st1 := by
      rw [expr]
      show EStateM.bind _ _ st = _
      rw [EStateM.bind, hx]
      rfl
    have htemp : runThen call fuel [.assign (.var y (.scalar t)) (.cast e (.scalar t))] L (.var y (.scalar t)) =
        runThen call fuel [] L (.cast e (.scalar t)) := runThen_temp [] _ y _ _
    rw [htemp, runThen_nil]
    exact hcast

end Build.Casts

end ArrayIR
