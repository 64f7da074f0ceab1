/-
  ArrayIR.Proofs.Integers — integers that code computes ahead of a loop.

  A plain expression calls nothing and looks into no buffer. Its integer depends on
  the values of the names it reads and not on the store, so wherever those are the
  expression gives it again (`Eval.Gives`), and two runs whose names have alike
  values give the same one.

  What the builder emits for a primitive on two integers computes it, whether it is
  folded to a constant or bound to a temporary (`Primed.run`).
-/

import ArrayIR.Proofs.Emission
import ArrayIR.Proofs.Frame
import ArrayIR.Proofs.Spares

namespace ArrayIR

/-! ## Plain expressions -/

/-- Whether evaluating the node itself neither calls a function nor reads a buffer. -/
def Expr.plainNode : Expr → Bool
  | .index .. => false
  | e => !Eval.callsNode e

/-- Whether evaluating the expression neither calls functions nor reads buffers. -/
def Expr.plain (e : Expr) : Bool := e.subterms.all plainNode

/-- No buffer is looked into, so paired ones may hold anything. -/
def Likeness.blind : Likeness := ⟨fun _ => True, False, False, False⟩

theorem Expr.plain_admits {e : Expr} (h : e.plain = true) : Likeness.blind.Admits e := by
  intro c hc
  have hn := List.all_eq_true.mp h c hc
  cases c <;> first | trivial | exact fun h => h.elim

theorem Expr.plain_not_calls {e : Expr} (h : e.plain = true) : Eval.calls e = false := by
  rw [Eval.calls, List.any_eq_false]
  intro c hc
  have hn := List.all_eq_true.mp h c hc
  cases c <;> first | exact Bool.false_ne_true | cases hn

variable {k k' : Likeness} {R : BufferId → BufferId → Prop} {w : Pairing} {st : Store} {v : Value}

theorem View.Alike.relax (hl : k.loose → k'.loose) {v u : View} (h : v.Alike k R u) : v.Alike k' R u :=
  ⟨h.elt, h.shape, h.layout.imp_right fun ⟨l, hv, hu⟩ => ⟨hl l, hv, hu⟩⟩

mutual

/-- Values alike on strict terms are alike on looser ones. -/
theorem Value.Alike.relax (hf : ∀ f, k.fns f → k'.fns f)
    (hl : k.loose → k'.loose) : ∀ {v u : Value}, v.Alike k R u → v.Alike k' R u
  | .scalar _, _, h => h
  | .nothing, _, h => h
  | .slice _ _ _, _, h => h
  | .tuple _, _, ⟨ys, e, h⟩ => ⟨ys, e, Value.AlikeList.relax hf hl h⟩
  | .buffer _ _, _, h => h
  | .array _, _, ⟨u, e, h⟩ => ⟨u, e, View.Alike.relax hl h⟩
  | .closure f _, _, ⟨ys, e, hk, h⟩ => ⟨ys, e, hf f hk, Value.AlikeList.relax hf hl h⟩

theorem Value.AlikeList.relax (hf : ∀ f, k.fns f → k'.fns f)
    (hl : k.loose → k'.loose) : ∀ {vs us : List Value}, Value.AlikeList k R vs us → Value.AlikeList k' R vs us
  | [], _, h => h
  | _ :: _, _, ⟨y, ys, e, h, hs⟩ => ⟨y, ys, e, h.relax hf hl, Value.AlikeList.relax hf hl hs⟩

end

theorem ReadsAlike.relax (hf : ∀ f, k.fns f → k'.fns f) (hl : k.loose → k'.loose) {r : Renaming} {L L' : Locals}
    {e : Expr} (h : ReadsAlike k w r L L' e) : ReadsAlike k' w r L L' e := by
  intro x hx
  have := h x hx
  cases hv : L.get? x <;> cases hu : r.value? L' x <;> rw [hv, hu] at this
  · trivial
  · exact this
  · exact this
  · exact Value.Alike.relax hf hl this

namespace Eval

/-- In some store of at least `n` buffers, the expression evaluates to the integer. -/
def Yields (call : Caller) (n : Nat) (L : Locals) (e : Expr) (i : Int64) : Prop :=
  ∃ st v st', n ≤ st.size ∧ expr call L e st = .ok v st' ∧ v.asInt = .ok i

/-- In every store as `P` says the expression evaluates to the integer and changes no buffer, and the store
is still as `P` says. -/
def Gives (call : Caller) (P : Store → Prop) (L : Locals) (e : Expr) (i : Int64) : Prop :=
  ∀ st, P st → ∃ v st', expr call L e st = .ok v st' ∧ v.asInt = .ok i ∧ st.Grows st' ∧ P st'

variable {call call' : Caller} {n : Nat} {P : Store → Prop} {L L' : Locals} {e : Expr} {i j : Int64}

theorem Gives.eq (h : Gives call P L e i) (h' : Gives call P L e j) (hst : P st) : i = j := by
  obtain ⟨v, _, hx, hi, -⟩ := h st hst
  obtain ⟨u, _, hy, hj, -⟩ := h' st hst
  rw [hx] at hy
  cases hy
  rw [hi] at hj
  cases hj
  rfl

theorem Gives.congr (h : Gives call P L e i) (hL : ∀ x ∈ e.reads, L'.get? x = L.get? x) : Gives call P L' e i := by
  unfold Gives
  rw [expr_congr e hL]
  exact h

theorem Gives.of_pure (h : expr call L e = pure (.int i)) (P : Store → Prop) : Gives call P L e i := by
  intro st hst
  rw [h]
  exact ⟨_, st, rfl, rfl, .refl st, hst⟩

/-- The stores of at least `n` buffers. -/
def AtLeast (n : Nat) (st : Store) : Prop := n ≤ st.size

theorem Gives.yields (h : Gives call (AtLeast n) L e i) : Yields call n L e i := by
  obtain ⟨v, st, hx, hi, -⟩ := h ⟨Array.replicate n #[]⟩ (Nat.le_of_eq Array.size_replicate.symm)
  exact ⟨_, v, st, Nat.le_of_eq Array.size_replicate.symm, hx, hi⟩

theorem Yields.congr (h : Yields call n L e i) (hL : ∀ x ∈ e.reads, L'.get? x = L.get? x) : Yields call n L' e i := by
  unfold Yields
  rw [expr_congr e hL]
  exact h

theorem Yields.mono {m : Nat} (h : Yields call n L e i) (hm : m ≤ n) : Yields call m L e i := by
  obtain ⟨st, v, st', hn, hx, hi⟩ := h
  exact ⟨st, v, st', Nat.le_trans hm hn, hx, hi⟩

/-- A plain expression in two runs, each from any store that has the buffers paired so far. -/
theorem plain_outcome (hp : e.plain = true) (h : ReadsAlike .strict w .none L L' e) {st' : Store}
    (hl : w.left ≤ st.size) (hr : w.right ≤ st'.size) :
    Outcome (w.grow st.size st'.size hl hr) (Ends .blind (Likes .blind)) (expr call L e st) (expr call' L' e st') := by
  have hreads : ReadsAlike .blind (w.grow st.size st'.size hl hr) .none L L' e :=
    (ReadsAlike.relax (k := .strict) (fun _ _ => trivial) (fun h => h.elim) h).mono (Pairing.le_grow w hl hr)
  have run : InStep .blind _ (Likes .blind) (expr call L e) (expr call' L' (Renaming.none.subst e)) :=
    expr_inStep (fun h : Likeness.blind.contents => h.elim) e (Expr.plain_admits hp) Renaming.none_atomic hreads
  rw [Renaming.subst_none] at run
  exact run st st' ⟨rfl, rfl, fun h => h.elim, fun h => h.elim⟩

theorem asInt_eq_of_likes {u : Value} (h : Likes k w v u) : v.asInt = .ok i ↔ u.asInt = .ok i := by
  have ha := Value.Alike.asInt h
  cases hv : v.asInt <;> cases hu : u.asInt <;> rw [hv, hu] at ha
  · simp
  · exact ha.elim
  · exact ha.elim
  · cases ha
    rfl

theorem Yields.right (hp : e.plain = true) (h : ReadsAlike .strict w .none L L' e)
    (hy : Yields call w.left L e i) : Gives call' (AtLeast w.right) L' e i := by
  obtain ⟨st, v, s, hn, hx, hi⟩ := hy
  intro st' hn'
  have ho : Outcome _ (Ends .blind (Likes .blind)) (expr call L e st) (expr call' L' e st') :=
    plain_outcome hp h hn hn'
  rw [hx] at ho
  cases hx' : expr call' L' e st' with
  | error f s' => rw [hx'] at ho; exact ho.elim
  | ok u s' =>
    rw [hx'] at ho
    obtain ⟨w', -, -, hv⟩ := ho
    have hg := quiet_of_not_calls (Expr.plain_not_calls hp) L' st' u s' hx'
    exact ⟨u, s', rfl, (asInt_eq_of_likes hv).mp hi, hg, Nat.le_trans hn' hg.size⟩

theorem Yields.left (hp : e.plain = true) (h : ReadsAlike .strict w .none L L' e)
    (hy : Yields call' w.right L' e i) : Gives call (AtLeast w.left) L e i := by
  obtain ⟨st', u, s', hn, hx, hi⟩ := hy
  intro st hn'
  have ho : Outcome _ (Ends .blind (Likes .blind)) (expr call L e st) (expr call' L' e st') :=
    plain_outcome hp h hn' hn
  rw [hx] at ho
  cases hx' : expr call L e st with
  | error f s => rw [hx'] at ho; exact ho.elim
  | ok v s =>
    rw [hx'] at ho
    obtain ⟨w', -, -, hv⟩ := ho
    have hg := quiet_of_not_calls (Expr.plain_not_calls hp) L st v s hx'
    exact ⟨v, s, rfl, (asInt_eq_of_likes hv).mpr hi, hg, Nat.le_trans hn' hg.size⟩

/-! ## Quiet expressions -/

/-- The store agrees with `σ`, under the pairing or a later one. -/
def Near (w : Pairing) (σ st : Store) : Prop := ∃ w', w ≤ w' ∧ Agree .strict w' σ st

theorem Near.of_agree {σ : Store} (h : Agree .strict w σ st) : Near w σ st := ⟨w, le_rfl, h⟩

/-- In this store the expression evaluates to the integer. -/
def Evaluates (call : Caller) (L : Locals) (e : Expr) (st : Store) (i : Int) : Prop :=
  ∃ v st' j, expr call L e st = .ok v st' ∧ v.asInt = .ok j ∧ j.toInt = i

/-- What a quiet expression has evaluated to in one run, it gives in the other run as well, again and again. -/
theorem Quiet.gives (hq : Quiet call e) (hcall : CallersAlike .strict call call)
    (hL : ReadsAlike .strict w .none L L' e) {σ σ1 : Store} (hσ : σ.Grows σ1) (h : Evaluates call L e σ1 i.toInt) :
    Gives call (Near w σ) L' e i := by
  obtain ⟨v, τ, j, hx, hj, hji⟩ := h
  obtain rfl := Int64.toInt_inj.mp hji
  rintro st ⟨w1, hle, hst⟩
  obtain ⟨w2, hle2, hst2⟩ := hst.later hσ (.refl st)
  have hreads := hL.mono (hle.trans hle2)
  have run : InStep .strict w2 (Likes .strict) (expr call L e) (expr call L' (Renaming.none.subst e)) :=
    expr_inStep (fun _ => hcall) e (Likeness.strict_admits e) Renaming.none_atomic hreads
  rw [Renaming.subst_none] at run
  have ho := run σ1 st hst2
  rw [hx] at ho
  cases hx' : expr call L' e st with
  | error f s => rw [hx'] at ho; exact ho.elim
  | ok u s =>
    rw [hx'] at ho
    obtain ⟨w3, -, -, hv⟩ := ho
    have hg := hq L' st u s hx'
    obtain ⟨w4, hle4, hst4⟩ := hst.later (.refl σ) hg
    exact ⟨u, s, rfl, (asInt_eq_of_likes hv).mp hj, hg, w4, hle.trans hle4, hst4⟩

end Eval

/-! ## Integers of a type -/

namespace ScalarTy

/-- A literal of the type can hold the integer as it is. -/
def holds (t : ScalarTy) (i : Int64) : Bool :=
  match t with
  | .bool => i = 0 || i = 1
  | .i32 => i.toInt32.toInt64 = i
  | _ => true

theorem not_float_of_int {t : ScalarTy} (h : t.isInt = true) : t.isFloat = false := by
  cases t <;> first | rfl | cases h

end ScalarTy

theorem Scalar.convert_int {t : ScalarTy} {i : Int64} (ht : t.isInt = true) (h : t.holds i = true) :
    (Scalar.int i).convert t = .int i := by
  cases t with
  | i32 => exact congrArg Scalar.int (of_decide_eq_true h)
  | i64 => rfl
  | _ => cases ht

theorem Value.asInt_ok {i : Int64} (h : v.asInt = .ok i) :
    ∃ x, v = .scalar x ∧ x.asInt = .ok i ∧ x.isFloat = false := by
  cases v with
  | scalar x =>
    refine ⟨x, rfl, h, ?_⟩
    cases x with
    | float y => cases h
    | _ => rfl
  | _ => cases h

/-- Unless the result is to be a float, integer operands are computed with as integers. -/
theorem Prim.eval_ints {p : Prim} {x y : Scalar} {i j k : Int64} {t : ScalarTy} (ht : t.isFloat = false)
    (hx : x.asInt = .ok i) (hxf : x.isFloat = false) (hy : y.asInt = .ok j) (hyf : y.isFloat = false)
    (h : p.onInts i j = .ok k) : p.eval [x, y] t = .ok ((Scalar.int k).convert t) := by
  have hc : p.isComparison = false := by cases p <;> first | rfl | cases h
  have happly : p.apply [x, y] t = .ok (.int k) := by
    rw [Prim.apply.eq_def]
    split
    case h_6 =>
      rename_i e
      cases e
      simp only [hc, hxf, hyf, ht, hx, hy, Bool.or_self, Bool.false_eq_true, if_false]
      exact congrArg (· >>= fun k => Except.ok (Scalar.int k)) h
    all_goals first | cases h | simp_all
  rw [Prim.eval, happly]
  rfl

/-! ## Atoms -/

theorem Eval.expr_atom {L : Locals} {e : Expr} (h : Renaming.atomValue L e = some v) (call : Caller) :
    expr call L e = pure v := by
  cases e with
  | var x t =>
    rw [Renaming.atomValue] at h
    rw [expr, h]
  | const c t =>
    rw [expr]
    exact congrArg pure (Option.some.inj h)
  | fnRef f t =>
    rw [expr]
    exact congrArg pure (Option.some.inj h)
  | _ => cases h

/-- The name or constant stands for the integer. -/
def Expr.Holds (e : Expr) (i : Int64) (L : Locals) : Prop := Renaming.atomValue L e = some (.int i)

namespace Expr.Holds

variable {e : Expr} {i : Int64} {L L' : Locals}

theorem congr (h : e.Holds i L) (hL : ∀ x ∈ e.reads, L'.get? x = L.get? x) : e.Holds i L' := by
  unfold Holds
  cases e with
  | var x t => exact (hL x (mem_reads_var x t)).trans h
  | _ => exact h

theorem eval (h : e.Holds i L) (call : Caller) : Eval.expr call L e = pure (.int i) := Eval.expr_atom h call

theorem gives (h : e.Holds i L) (call : Caller) (P : Store → Prop) : Eval.Gives call P L e i :=
  .of_pure (h.eval call) P

theorem var (x : VarName) (t : Ty) (L : Locals) (i : Int64) : (Expr.var x t).Holds i (L.insert x (.int i)) := by
  show (L.insert x (.int i)).get? x = _
  rw [NameMap.get?_insert, if_pos rfl]

theorem int {t : ScalarTy} (ht : t.isInt = true) (h : t.holds i = true) (L : Locals) : (Expr.int i t).Holds i L :=
  congrArg (fun s => some (Value.scalar s)) (Scalar.convert_int ht h)

/-- Adding two of them is a matter of the locals alone. -/
theorem add {x y : Expr} {i j : Int64} {L : Locals} (hx : x.Holds i L) (hy : y.Holds j L) {t : ScalarTy}
    (ht : t.isInt = true) (h : t.holds (i + j) = true) (call : Caller) :
    Eval.expr call L (.prim .add [x, y] (.scalar t)) = pure (.int (i + j)) := by
  have hsum : Prim.eval .add [.int i, .int j] t = .ok (.int (i + j)) :=
    (Prim.eval_ints (ScalarTy.not_float_of_int ht) rfl rfl rfl rfl rfl).trans (congrArg _ (Scalar.convert_int ht h))
  rw [Eval.expr, Eval.exprs, Eval.exprs, Eval.exprs, hx.eval call, hy.eval call]
  show ((do return .scalar (← Prim.eval .add [.int i, .int j] t)) : Exec Value) = _
  rw [hsum]
  rfl

end Expr.Holds

/-! ## Primitives on integers -/

/-- The expression is of the type and, if it is a literal, within its range. -/
structure Expr.Proper (t : ScalarTy) (e : Expr) : Prop where
  ty : e.ty = .scalar t
  literal : ∀ i, e.int? = some i → t.holds i = true

theorem Expr.Proper.i64 {e : Expr} (h : e.ty = .i64) : e.Proper .i64 := ⟨h, fun _ _ => rfl⟩

theorem Eval.Gives.prim {call : Caller} {P : Store → Prop} {L : Locals} {p : Prim} {x y : Expr} {i j k : Int64}
    {t : ScalarTy} (ht : t.isInt = true) (hx : Gives call P L x i) (hy : Gives call P L y j) (h : p.onInts i j = .ok k)
    (hk : t.holds k = true) (hst : P st) :
    ∃ st', expr call L (.prim p [x, y] (.scalar t)) st = .ok (.int k) st' ∧ st.Grows st' ∧ P st' := by
  obtain ⟨v, s, hv, hi, hs, hP⟩ := hx st hst
  obtain ⟨u, s', hu, hj, hs', hP'⟩ := hy s hP
  obtain ⟨a, rfl, ha, haf⟩ := Value.asInt_ok hi
  obtain ⟨b, rfl, hb, hbf⟩ := Value.asInt_ok hj
  refine ⟨s', ?_, hs.trans hs', hP'⟩
  have hexprs : exprs call L [x, y] st = .ok [.scalar a, .scalar b] s' := by
    show EStateM.bind (expr call L x) _ st = _
    rw [EStateM.bind, hv]
    show EStateM.bind (EStateM.bind (expr call L y) _) _ s = _
    rw [EStateM.bind, EStateM.bind, hu]
    rfl
  show EStateM.bind (exprs call L [x, y]) _ st = _
  rw [EStateM.bind, hexprs]
  show ((do return .scalar (← p.eval [a, b] t)) : Exec Value) s' = _
  rw [Prim.eval_ints (ScalarTy.not_float_of_int ht) ha haf hb hbf h, Scalar.convert_int ht hk]
  rfl

namespace Build

theorem fits?_some {a : Int} {k : Int64} (h : fits? a = some k) : Int64.ofInt a = k := by
  unfold fits? at h
  split at h
  · exact Option.some.inj h
  · cases h

theorem foldInts?_onInts {p : Prim} {i j k : Int64} (h : foldInts? p i j = some k) : p.onInts i j = .ok k := by
  cases p with
  | add =>
    have := fits?_some h
    rw [Int64.ofInt_add, Int64.ofInt_toInt, Int64.ofInt_toInt] at this
    exact congrArg _ this
  | sub =>
    have := fits?_some h
    rw [Int64.ofInt_sub, Int64.ofInt_toInt, Int64.ofInt_toInt] at this
    exact congrArg _ this
  | mul =>
    have := fits?_some h
    rw [Int64.ofInt_mul, Int64.ofInt_toInt, Int64.ofInt_toInt] at this
    exact congrArg _ this
  | div =>
    rw [foldInts?] at h
    rw [Prim.onInts]
    by_cases hj : j = 0
    · rw [if_pos hj] at h
      cases h
    · rw [if_neg hj] at h
      rw [if_neg hj]
      have := fits?_some h
      rw [Int64.ofInt_tdiv (Int64.minValue_le_toInt i) (Int64.toInt_le i) (Int64.minValue_le_toInt j)
        (Int64.toInt_le j), Int64.ofInt_toInt, Int64.ofInt_toInt] at this
      exact congrArg _ this
  | min => exact congrArg Except.ok (Option.some.inj h)
  | max => exact congrArg Except.ok (Option.some.inj h)
  | _ => cases h

end Build

/-- `out` computes a primitive of two integers of a type, and `e` stands for the result. -/
inductive Primed (t : ScalarTy) (p : Prim) (x y : Expr) : Block → Expr → Prop
  | folded {i j k : Int64} (hx : x = .int i t) (hy : y = .int j t) (h : Build.foldInts? p i j = some k) :
    Primed t p x y [] (.int k t)
  | temp (z : VarName) : Primed t p x y [.assign (.var z (.scalar t)) (.prim p [x, y] (.scalar t))] (.var z (.scalar t))

namespace Primed

variable {t : ScalarTy} {p : Prim} {x y e : Expr} {out : Block}

theorem ty (h : Primed t p x y out e) : e.ty = .scalar t := by cases h <;> rfl

theorem not_returns (h : Primed t p x y out e) : Stmt.blockReturns out = false := by cases h <;> rfl

theorem reads (h : Primed t p x y out e) : ∀ z ∈ e.reads, z ∈ Stmt.blockBinds out := by
  cases h with
  | folded => exact fun z hz => absurd hz (by simp [Expr.reads, Expr.int, Expr.subterms_eq, Expr.var?])
  | temp u =>
    intro z hz
    simpa [Stmt.blockBinds, Stmt.binds] using hz

/-- Running what has been emitted computes the primitive, if the result is within the range of the type. -/
theorem run (h : Primed t p x y out e) (fuel : Nat) (ht : t.isInt = true) (hpx : x.Proper t) (hpy : y.Proper t)
    {call : Caller} {P : Store → Prop} {L : Locals} {i j k : Int64} (hx : Eval.Gives call P L x i)
    (hy : Eval.Gives call P L y j) (hk : p.onInts i j = .ok k) (hin : t.holds k = true) (hst : P st) :
    ∃ L1 st1, Eval.block call fuel out L st = .ok (.next L1) st1 ∧ st.Grows st1 ∧ P st1 ∧
      e.Holds k L1 ∧ e.Proper t := by
  cases h with
  | @folded i' j' k' hx' hy' hf =>
    subst hx' hy'
    have hi := hx.eq ((Expr.Holds.int ht (hpx.literal i' rfl) L).gives call P) hst
    have hj := hy.eq ((Expr.Holds.int ht (hpy.literal j' rfl) L).gives call P) hst
    subst hi hj
    rw [Build.foldInts?_onInts hf] at hk
    cases hk
    refine ⟨L, st, by rw [Eval.block_nil]; rfl, .refl st, hst, .int ht hin L, rfl, fun _ he => ?_⟩
    cases he
    exact hin
  | temp z =>
    obtain ⟨st1, hv, hg, hP⟩ := hx.prim ht hy hk hin hst
    refine ⟨L.insert z (.int k), st1, ?_, hg, hP, .var z (.scalar t) L k, rfl, nofun⟩
    rw [Eval.block_cons, Eval.stmt]
    show EStateM.bind (EStateM.bind (Eval.expr call L _) _) _ st = _
    rw [EStateM.bind, EStateM.bind, hv]
    show Eval.block call fuel [] (L.insert z (.int k)) st1 = _
    rw [Eval.block_nil]
    rfl

end Primed

namespace Build

variable {b b' : Builder}

variable {e x y : Expr} {t : ScalarTy} {tys : List ScalarTy} {p : Prim} {name : String}

theorem cast_self (h : e.ty = .scalar t) : cast e t = pure e := by
  unfold cast
  rw [h]
  exact if_pos rfl

theorem castAll_ok {ps : List (Expr × ScalarTy)} {es : List Expr} (h : castAll ps b = .ok es b') :
    ∃ out, Emits (Stmt.blockBinds out) out b b' := by
  induction ps generalizing es b with
  | nil =>
    cases h
    exact ⟨[], .refl b'⟩
  | cons p ps ih =>
    obtain ⟨e, b1, he, h⟩ := state_bind_ok h
    obtain ⟨es', b2, hes, h⟩ := state_bind_ok h
    obtain ⟨rfl, rfl⟩ := state_pure_ok h
    obtain ⟨-, o1, -, h1, -⟩ := cast_ok he
    obtain ⟨o2, h2⟩ := ih hes
    exact ⟨o1 ++ o2, Stmt.blockBinds_append o1 o2 ▸ h1.append h2⟩

theorem eq_int_of_int? {i : Int64} (h : e.int? = some i) (ht : e.ty = .scalar t) : e = .int i t := by
  cases e with
  | const c t =>
    cases c with
    | int j =>
      cases h
      cases ht
      rfl
    | _ => cases h
  | _ => cases h

/-- `out` is what the builder emits for an arithmetic primitive, and `e` what it returns. -/
structure Operates (p : Prim) (x y : Expr) (out : Block) (e : Expr) : Prop where
  primed : ∀ {t : ScalarTy}, t.isInt = true → x.ty = .scalar t → y.ty = .scalar t → Primed t p x y out e
  ty : x.ty = .i64 → e.ty = .i64 ∨ e.ty = .scalar .f64

theorem operandTys_two (h : operandTys [x, y] = .ok tys) :
    ∃ s t, x.ty = .scalar s ∧ y.ty = .scalar t ∧ tys = [s, t] := by
  have one : ∀ {e : Expr} {es : List Expr} {tys : List ScalarTy}, operandTys (e :: es) = .ok tys →
      ∃ t ts, e.ty = .scalar t ∧ operandTys es = .ok ts ∧ tys = t :: ts := by
    intro e es tys h
    rw [operandTys] at h
    cases ht : e.ty with
    | scalar t =>
      rw [ht] at h
      obtain ⟨ts, hts, h⟩ := except_bind_ok h
      cases h
      exact ⟨t, ts, rfl, hts, rfl⟩
    | _ =>
      rw [ht] at h
      cases h
  obtain ⟨s, ts, hx, h', rfl⟩ := one h
  obtain ⟨t, us, hy, h'', rfl⟩ := one h'
  cases h''
  exact ⟨s, t, hx, hy, rfl⟩

/-- The primitive over operands brought to their common type: a constant, or a temporary. -/
def primOf (p : Prim) (result : ScalarTy) (name : String) (args : List Expr) : Build Expr :=
  match folded? p args with
  | some i => literal i result
  | none => temp (.prim p args (.scalar result)) name

theorem operandTys_of_ty {es : List Expr} (h : List.Forall₂ (fun e t => e.ty = .scalar t) es tys) :
    operandTys es = .ok tys := by
  induction h with
  | nil => rfl
  | cons he _ ih =>
    rw [operandTys, he, ih]
    rfl

theorem prim_eq {args : List Expr} (h : List.Forall₂ (fun e t => e.ty = .scalar t) args tys) (name : String) :
    prim p args name = castAll (args.zip (p.operandTys tys)) >>= primOf p (p.resultTy (p.operandTys tys)) name := by
  unfold prim
  rw [operandTys_of_ty h]
  rfl

theorem primOf_ok {result : ScalarTy} {args : List Expr} (h : primOf p result name args b = .ok e b') :
    e.ty = .scalar result ∧ ((∃ k, folded? p args = some k ∧ e = .int k result ∧ b' = b) ∨
      ∃ t, e = .var t (.scalar result) ∧ Emits [t]
        [.assign (.var t (.scalar result)) (.prim p args (.scalar result))] b b') := by
  unfold primOf at h
  cases hf : folded? p args with
  | none =>
    rw [hf] at h
    obtain ⟨t, rfl, he, -⟩ := temp_ok h
    exact ⟨rfl, .inr ⟨t, rfl, he⟩⟩
  | some k =>
    rw [hf] at h
    obtain ⟨-, rfl, rfl⟩ := literal_ok h
    exact ⟨rfl, .inl ⟨k, rfl, rfl, rfl⟩⟩

theorem primOf_primed (hx : x.ty = .scalar t) (hy : y.ty = .scalar t) (h : primOf p t name [x, y] b = .ok e b') :
    ∃ out, Primed t p x y out e ∧ Emits (Stmt.blockBinds out) out b b' := by
  obtain ⟨-, ⟨k, hf, rfl, rfl⟩ | ⟨z, rfl, he⟩⟩ := primOf_ok h
  · obtain ⟨i, hi, hf⟩ := Option.bind_eq_some_iff.mp hf
    obtain ⟨j, hj, hf⟩ := Option.bind_eq_some_iff.mp hf
    exact ⟨[], .folded (eq_int_of_int? hi hx) (eq_int_of_int? hj hy) hf, .refl b'⟩
  · exact ⟨_, .temp z, he⟩

theorem operandTys_i64 (hp : p.kind = .arith) (t : ScalarTy) :
    p.operandTys [.i64, t] = [.i64, .i64] ∨ p.operandTys [.i64, t] = [.f64, .f64] := by
  unfold Prim.operandTys Prim.operandTy
  rw [hp]
  cases t <;> first | exact .inl rfl | exact .inr rfl

/-- What the builder makes of an arithmetic primitive. -/
theorem prim_ok (hp : p.kind = .arith) (h : prim p [x, y] name b = .ok e b') :
    ∃ out, Operates p x y out e ∧ Emits (Stmt.blockBinds out) out b b' := by
  obtain ⟨tys, b0, hops, -⟩ := state_bind_ok h
  obtain ⟨hops, -⟩ := state_lift_ok hops
  obtain ⟨s, t, hx, hy, -⟩ := operandTys_two hops
  rw [prim_eq (.cons hx (.cons hy .nil))] at h
  by_cases hi : s.isInt = true ∧ t = s
  · obtain ⟨hint, rfl⟩ := hi
    have hops : p.operandTys [t, t] = [t, t] := by
      unfold Prim.operandTys Prim.operandTy
      rw [hp]
      cases t <;> first | rfl | cases hint
    have hres : p.resultTy [t, t] = t := by
      unfold Prim.resultTy
      rw [hp]
      rfl
    have hcasts : castAll ([x, y].zip [t, t]) = pure [x, y] := by
      show castAll [(x, t), (y, t)] = _
      rw [castAll, cast_self hx, castAll, cast_self hy, castAll]
      rfl
    rw [hops, hcasts, hres, pure_bind] at h
    obtain ⟨out, hprimed, he⟩ := primOf_primed hx hy h
    refine ⟨out, ⟨fun _ hx' _ => ?_, fun hx' => .inl (hprimed.ty.trans (hx.symm.trans hx'))⟩, he⟩
    cases hx.symm.trans hx'
    exact hprimed
  · obtain ⟨args, b1, hcast, h⟩ := state_bind_ok h
    obtain ⟨o1, h1⟩ := castAll_ok hcast
    have hne : ∀ {u : ScalarTy}, u.isInt = true → x.ty = .scalar u → y.ty ≠ .scalar u := by
      intro u hu hx' hy'
      cases hx.symm.trans hx'
      cases hy.symm.trans hy'
      exact hi ⟨hu, rfl⟩
    obtain ⟨hty, hcases⟩ := primOf_ok h
    have hres : x.ty = .i64 → e.ty = .i64 ∨ e.ty = .scalar .f64 := by
      intro hx'
      rw [hx] at hx'
      cases hx'
      rw [hty]
      unfold Prim.resultTy
      rw [hp]
      rcases operandTys_i64 hp t with ho | ho
      · rw [ho]
        exact .inl rfl
      · rw [ho]
        exact .inr rfl
    rcases hcases with ⟨k, -, rfl, rfl⟩ | ⟨u, rfl, he⟩
    · exact ⟨o1, ⟨fun hu hx' hy' => absurd hy' (hne hu hx'), hres⟩, h1⟩
    · generalize hs : Stmt.assign _ _ = a at he
      have ha : [u] = Stmt.blockBinds [a] := by subst hs; rfl
      rw [ha] at he
      exact ⟨o1 ++ [a], ⟨fun hu hx' hy' => absurd hy' (hne hu hx'), hres⟩, Stmt.blockBinds_append o1 [a] ▸ h1.append he⟩

end Build

end ArrayIR
