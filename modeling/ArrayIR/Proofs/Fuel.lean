/-
  ArrayIR.Proofs.Fuel — more fuel keeps an answer.

  Fuel only decides whether a run comes to its end. `Below` compares computations by
  their answers: the second gives every answer that the first gives, so all faults are
  excused (`below_of_keeps`). Interpreting is monotone in how calls are answered and in
  the number of iterations that a loop is allowed (`Eval.body_below`), so a call that
  has been answered is answered the same with any more fuel (`Session.call_below`).
-/

import ArrayIR.Proofs.Regime

namespace ArrayIR

/-- The second computation gives every answer that the first gives. -/
def Below {α : Type} (x y : Exec α) : Prop := ∀ s v t, x s = .ok v t → y s = .ok v t

/-- All names may be called, and faults do not count. -/
def Regime.answering : Regime := calling Set.univ fun _ => True

theorem Regime.answering_holds (v : Value) : answering.Holds v := calling_holds fun _ _ => trivial

section

variable {α β : Type} {x y : Exec α} {f g : α → Exec β} {P : α → Prop}

/-- What keeps together but for faults gives every answer. -/
theorem below_of_keeps (h : Regime.answering.Keeps P x y) : Below x y := by
  intro s v t hx
  rcases h s trivial with ⟨heq, -⟩ | ⟨e, t', he, -⟩
  · rwa [← heq]
  · cases hx.symm.trans he

theorem Below.keeps (h : Below x y) (hP : ∀ v, P v) : Regime.answering.Keeps P x y := by
  intro s _
  cases hx : x s with
  | ok v t => exact .inl ⟨(h s v t hx).symm, fun v _ _ => ⟨trivial, hP v⟩⟩
  | error e t => exact .inr ⟨e, t, rfl, trivial⟩

theorem Below.refl (x : Exec α) : Below x x := fun _ _ _ => id

theorem Below.bind (h : Below x y) (hf : ∀ a, Below (f a) (g a)) : Below (x >>= f) (y >>= g) :=
  below_of_keeps ((h.keeps fun _ => trivial).bind fun a _ => (hf a).keeps (P := fun _ => True) fun _ => trivial)

end

/-- Every answer of the first caller is one of the second. -/
def CallerBelow (call call' : Caller) : Prop := ∀ fn args, Below (call fn args) (call' fn args)

theorem CallerBelow.keeps {call call' : Caller} (h : CallerBelow call call') : Regime.answering.Callers call call' :=
  fun fn _ args _ => (h fn args).keeps Regime.answering_holds

namespace Eval

variable {call call' : Caller} {fuel fuel' : Nat}

theorem exprs_below {L : Locals} {es : List Expr} (h : ∀ e ∈ es, Below (expr call L e) (expr call' L e)) :
    Below (exprs call L es) (exprs call' L es) :=
  below_of_keeps (exprs_obeys fun e he => (h e he).keeps Regime.answering_holds)

/-- What an expression evaluates to, it evaluates to with a caller that answers more. -/
theorem expr_below (hcall : CallerBelow call call') {L : Locals} (e : Expr) : Below (expr call L e) (expr call' L e) :=
  below_of_keeps (expr_obeys (fun _ v _ => Regime.answering_holds v) e (fun _ => hcall.keeps) (mention_univ _))

/-- What a body leads to, it leads to with more fuel. -/
theorem body_below (hcall : CallerBelow call call') (hfuel : fuel ≤ fuel') (f : Func) (args : List Value) :
    Below (body call fuel f args) (body call' fuel' f args) :=
  below_of_keeps (body_obeys hcall.keeps (.inr ⟨hfuel, trivial⟩) (mention_univ _)
    (fun _ _ => id) fun v _ => Regime.answering_holds v)

end Eval

/-- A call that has been answered is answered the same with more fuel. -/
theorem Session.call_below (s : Session) {n m : Nat} (h : n ≤ m) : CallerBelow (s.call n) (s.call m) :=
  fun fn args => below_of_keeps
    (Session.call_obeys (R := Regime.answering) (fun _ _ => rfl)
      (fun _ _ f _ => ⟨mention_univ f.subterms, fun _ _ => id⟩)
      (.inr ⟨h, trivial⟩) fn trivial args fun v _ => Regime.answering_holds v)

end ArrayIR
