/-
  ArrayIR.Proofs.Regime — what a run keeps to.

  A run comes by names and by buffers through its code and its values only. It calls
  names that the code mentions or that values carry, and it stores into arrays that
  values refer to, or into one that an adverb has just allocated. A regime says which
  names and which buffers are in bounds, and what may become of the store. Two runs
  whose calls keep to it and are answered alike keep to it throughout, and do the same
  (`Eval.expr_obeys`, `Eval.block_obeys`, `Session.call_obeys`).

  The first run may be excused by some faults, as by running out of fuel. A single run
  is compared with itself.
-/

import ArrayIR.Expr
import ArrayIR.Proofs.Answer
import ArrayIR.Proofs.Places

namespace ArrayIR

/-! ## The names that values and code carry -/

variable {b : BufferId} {N : Set FnName} {es ds : List Expr} {a : Value} {args : List Value}

namespace Value

variable {v : Value} {fn : FnName} {vs : List Value}

mutual

/-- The names of all callables inside a value. -/
def mentions : Value → List FnName
  | closure fn captured => fn :: mentionsAll captured
  | tuple items => mentionsAll items
  | _ => []

def mentionsAll : List Value → List FnName
  | [] => []
  | v :: vs => v.mentions ++ mentionsAll vs

end

theorem mem_mentionsAll : fn ∈ mentionsAll vs ↔ ∃ v ∈ vs, fn ∈ v.mentions := by
  induction vs with
  | nil => simp [mentionsAll]
  | cons v vs ih => simp [mentionsAll, ih]

theorem mem_buffersList : b ∈ buffersList vs ↔ ∃ v ∈ vs, b ∈ v.buffers := by
  induction vs with
  | nil => simp [buffersList]
  | cons v vs ih => simp [buffersList, ih]

end Value

/-- The names that evaluating a node calls, or makes callables of. -/
def Expr.mentions : Expr → List FnName
  | call fn _ _ | fnRef fn _ | closure fn _ _ => [fn]
  | _ => []

/-- All nodes mention names in `N` only. -/
def Mention (N : Set FnName) (es : List Expr) : Prop := ∀ e ∈ es, ∀ fn ∈ e.mentions, fn ∈ N

theorem Mention.append : Mention N (es ++ ds) ↔ Mention N es ∧ Mention N ds :=
  List.forall_mem_append

theorem Mention.subset (h : Mention N es) (hsub : ds ⊆ es) : Mention N ds :=
  fun e he => h e (hsub he)

/-- Where all names are allowed, all code is. -/
theorem mention_univ (es : List Expr) : Mention Set.univ es := fun _ _ _ _ => trivial

/-- Both sides of a merge are code of the statement. -/
theorem Mention.sides {m : Merge} (h : Mention N (m.exprs.flatMap Expr.subterms)) :
    ∀ p ∈ m.toList, Mention N p.2.1.subterms ∧ Mention N p.2.2.subterms := by
  intro p hp
  have hsides : ∀ e ∈ [p.2.1, p.2.2], e ∈ m.exprs :=
    fun e he => List.mem_flatMap.mpr ⟨p.2, List.mem_map.mpr ⟨p, hp, rfl⟩, he⟩
  exact ⟨h.subset fun d hd => List.mem_flatMap.mpr ⟨_, hsides _ (by simp), hd⟩,
    h.subset fun d hd => List.mem_flatMap.mpr ⟨_, hsides _ (by simp), hd⟩⟩

namespace Eval

/-- Whether evaluating the node itself calls functions. -/
def callsNode : Expr → Bool
  | .call .. | .map .. | .reduce .. | .scan .. | .allPairs .. | .tiledMap .. | .tiledReduce .. => true
  | _ => false

/-- Whether evaluating the expression may call functions. -/
def calls (e : Expr) : Bool := e.subterms.any callsNode

theorem calls_of_node {e : Expr} (h : callsNode e = true) : calls e = true :=
  List.any_eq_true.mpr ⟨e, e.self_mem_subterms, h⟩

theorem calls_of_child {c e : Expr} (hc : c ∈ e.children) (h : calls c = true) : calls e = true := by
  obtain ⟨d, hd, hn⟩ := List.any_eq_true.mp h
  exact List.any_eq_true.mpr ⟨d, Expr.subterms_of_child hc hd, hn⟩

end Eval

namespace Stmt

mutual

/-- Whether there is a store to an array in the statement. -/
def stores : Stmt → Bool
  | assign (.index _ _ _) _ => true
  | assign _ _ | ret _ => false
  | ite _ yes no _ => blockStores yes || blockStores no
  | whileLoop _ body _ | forLoop _ body _ => blockStores body

def blockStores : List Stmt → Bool
  | [] => false
  | s :: ss => s.stores || blockStores ss

end

end Stmt

/-! ## Regimes -/

/-- The names that may be called, the buffers that values may refer to and those of them that may be stored into, and
what may become of a store that is fit. New buffers may be stored into, if that keeps their lengths. -/
structure Regime where
  names : Set FnName
  refers : BufferId → Prop
  owns : BufferId → Prop
  fit : Store → Prop
  turns : Store → Store → Prop
  excuses : Fault → Prop
  refers_of_owns : ∀ {b}, owns b → refers b
  refl : ∀ s, turns s s
  trans : ∀ {s t u}, turns s t → turns t u → turns s u
  fit_of_turns : ∀ {s t}, fit s → turns s t → fit t
  alloc : ∀ {s} cells, fit s → turns s (s.alloc cells).2 ∧ owns (s.alloc cells).1
  modify : ∀ {s b f}, fit s → owns b → (∀ cells, (f cells).size = cells.size) → turns s (s.modify b f)

namespace Regime

variable {α β : Type} {R : Regime} {v : Value} {vs : List Value}

/-- All that the value carries and refers to is in bounds. -/
def Holds (R : Regime) (v : Value) : Prop := (∀ fn ∈ v.mentions, fn ∈ R.names) ∧ ∀ b ∈ v.buffers, R.refers b

/-- All of the values are in bounds. -/
def All (R : Regime) (vs : List Value) : Prop := ∀ v ∈ vs, R.Holds v

/-- All locals are in bounds. -/
def Admits (R : Regime) (L : Locals) : Prop := ∀ x v, L.get? x = some v → R.Holds v

/-- What a statement leads to is in bounds. -/
def Leads (R : Regime) : Eval.Flow → Prop
  | .next L => R.Admits L
  | .returned v => R.Holds v

theorem holds_plain (h : v.mentions = []) (h' : v.buffers = []) : R.Holds v := by simp [Holds, h, h']

theorem holds_scalar (x : Scalar) : R.Holds (.scalar x) := holds_plain rfl rfl

theorem holds_slice (i j : Option Int64) (k : Int64) : R.Holds (.slice i j k) := holds_plain rfl rfl

theorem holds_array {v : View} : R.Holds (.array v) ↔ R.refers v.buffer := by
  simp [Holds, Value.mentions, Value.buffers]

theorem holds_buffer {elt : ScalarTy} : R.Holds (.buffer elt b) ↔ R.refers b := by
  simp [Holds, Value.mentions, Value.buffers]

theorem holds_tuple : R.Holds (.tuple vs) ↔ R.All vs := by
  simp only [Holds, All, Value.mentions, Value.buffers, Value.mem_mentionsAll, Value.mem_buffersList,
    forall_exists_index, and_imp]
  exact ⟨fun h v hv => ⟨fun fn => h.1 fn v hv, fun b => h.2 b v hv⟩,
    fun h => ⟨fun fn v hv => (h v hv).1 fn, fun b v hv => (h v hv).2 b⟩⟩

theorem holds_closure {fn : FnName} : R.Holds (.closure fn vs) ↔ fn ∈ R.names ∧ R.All vs := by
  rw [← holds_tuple]
  simp only [Holds, Value.mentions, Value.buffers, List.forall_mem_cons, and_assoc]

theorem holds_ints (is : List α) (f : α → Int) : R.Holds (.tuple (is.map fun i => .ofInt (f i))) := by
  refine holds_tuple.mpr fun v hv => ?_
  obtain ⟨i, -, rfl⟩ := List.mem_map.mp hv
  exact holds_scalar _

namespace All

theorem nil : R.All [] := fun _ h => absurd h List.not_mem_nil

theorem cons (h : R.Holds v) (hs : R.All vs) : R.All (v :: vs) := List.forall_mem_cons.mpr ⟨h, hs⟩

theorem one (h : R.Holds v) : R.All [v] := cons h nil

theorem two {u : Value} (h : R.Holds v) (h' : R.Holds u) : R.All [v, u] := cons h (one h')

theorem append {us : List Value} (h : R.All vs) (h' : R.All us) : R.All (vs ++ us) := List.forall_mem_append.mpr ⟨h, h'⟩

theorem getElem? (h : R.All vs) {i : Nat} (hi : vs[i]? = some v) : R.Holds v := h v (List.mem_of_getElem? hi)

end All

namespace Admits

variable {L : Locals}

theorem insert (h : R.Admits L) (x : VarName) (hv : R.Holds v) : R.Admits (L.insert x v) := by
  intro y u hy
  rw [NameMap.get?_insert] at hy
  split at hy
  · cases hy
    exact hv
  · exact h y u hy

theorem insertAll (h : R.Admits L) {es : List (VarName × Value)} (hes : ∀ e ∈ es, R.Holds e.2) :
    R.Admits (L.insertAll es) := by
  induction es generalizing L with
  | nil => exact h
  | cons e es ih =>
    rw [NameMap.insertAll_cons]
    exact ih (h.insert e.1 (hes e List.mem_cons_self)) fun e' he' => hes e' (List.mem_cons_of_mem _ he')

theorem params (xs : List VarName) (h : R.All vs) : R.Admits (NameMap.ofList (xs.zip vs)) := by
  refine insertAll (L := .empty) (fun x v hx => ?_) fun e he => h e.2 (List.of_mem_zip he).2
  cases hx

end Admits

/-! ## Keeping to a regime -/

/-- From a store that is fit, the two computations do the same, change the store as they may, and give a result as `P`
says, unless the first ends with a fault that excuses it. -/
def Keeps (R : Regime) (P : α → Prop) (x y : Exec α) : Prop :=
  ∀ s, R.fit s → (x s = y s ∧ ∀ a t, x s = .ok a t → R.turns s t ∧ P a) ∨ ∃ e t, x s = .error e t ∧ R.excuses e

/-- The computation keeps to the regime by itself. -/
abbrev Obeys (R : Regime) (P : α → Prop) (x : Exec α) : Prop := R.Keeps P x x

/-- Calls of names in bounds on arguments in bounds are answered alike. -/
def Callers (R : Regime) (call call' : Caller) : Prop :=
  ∀ fn ∈ R.names, ∀ args, R.All args → R.Keeps R.Holds (call fn args) (call' fn args)

namespace Keeps

variable {P P' : α → Prop} {Q : β → Prop} {x y : Exec α} {f g : α → Exec β}

theorem same (h : ∀ s a t, R.fit s → x s = .ok a t → R.turns s t ∧ P a) : R.Obeys P x :=
  fun s hs => .inl ⟨rfl, fun a t => h s a t hs⟩

theorem pure {a : α} (h : P a) : R.Obeys P (pure a) := by
  refine same fun s b t _ hx => ?_
  cases hx
  exact ⟨R.refl s, h⟩

theorem fail {e : Error} : R.Obeys P (fail e) := same fun _ _ _ _ hx => by cases hx

theorem lift {z : Except Error α} (h : ∀ a, z = .ok a → P a) : R.Obeys P (liftM z : Exec α) := by
  refine same fun s a t _ hx => ?_
  obtain ⟨ha, rfl⟩ := state_lift_ok hx
  exact ⟨R.refl _, h a ha⟩

/-- What is read off a value: a scalar, a bound, a region. -/
theorem reads {z : Except Error α} : R.Obeys (fun _ => True) (liftM z : Exec α) := lift fun _ _ => trivial

theorem get : R.Obeys (fun _ => True) (get : Exec Store) := by
  refine same fun s a t _ hx => ?_
  cases hx
  exact ⟨R.refl _, trivial⟩

theorem bind (hx : R.Keeps P x y) (hf : ∀ a, P a → R.Keeps Q (f a) (g a)) : R.Keeps Q (x >>= f) (y >>= g) := by
  intro s hs
  show (EStateM.bind x f s = EStateM.bind y g s ∧ ∀ b t, EStateM.bind x f s = .ok b t → R.turns s t ∧ Q b) ∨
    ∃ e t, EStateM.bind x f s = .error e t ∧ R.excuses e
  unfold EStateM.bind
  rcases hx s hs with ⟨heq, hok⟩ | ⟨e, t, he, hexcuse⟩
  · rw [← heq]
    cases hxs : x s with
    | error e t => exact .inl ⟨rfl, fun b t' h => by cases h⟩
    | ok a t =>
      obtain ⟨hturn, hp⟩ := hok a t hxs
      refine (hf a hp t (R.fit_of_turns hs hturn)).imp_left fun h => h.imp_right fun hrest b t' hb => ?_
      exact (hrest b t' hb).imp_left (R.trans hturn)
  · rw [he]
    exact .inr ⟨e, t, rfl, hexcuse⟩

theorem mono (hx : R.Keeps P x y) (h : ∀ a, P a → P' a) : R.Keeps P' x y := fun s hs =>
  (hx s hs).imp_left fun hboth => hboth.imp_right fun hok a t ha => (hok a t ha).imp_right (h a)

theorem ite {p : Prop} [Decidable p] {x' y' : Exec α} (h : R.Keeps P x y) (h' : R.Keeps P x' y') :
    R.Keeps P (if p then x else x') (if p then y else y') := by
  split
  · exact h
  · exact h'

theorem mapM {xs : List α} (h : ∀ a ∈ xs, R.Keeps Q (f a) (g a)) :
    R.Keeps (fun bs => ∀ b ∈ bs, Q b) (xs.mapM f) (xs.mapM g) := by
  induction xs with
  | nil =>
    rw [List.mapM_nil, List.mapM_nil]
    exact pure fun _ hb => absurd hb List.not_mem_nil
  | cons a xs ih =>
    rw [List.mapM_cons, List.mapM_cons]
    refine (h a List.mem_cons_self).bind fun b hb => ?_
    exact (ih fun a' ha' => h a' (List.mem_cons_of_mem _ ha')).bind fun bs hbs =>
      pure (List.forall_mem_cons.mpr ⟨hb, hbs⟩)

end Keeps

end Regime

open Regime (Keeps holds_scalar holds_array holds_tuple holds_closure)

/-! ## Operations -/

variable {R : Regime} {call call' : Caller}

theorem Eval.alloc_cells_obeys (cells : Array Scalar) : R.Obeys R.owns (modifyGet (·.alloc cells) : Exec BufferId) := by
  refine .same fun s b t hs hx => ?_
  cases hx
  exact R.alloc cells hs

theorem View.zeroed_obeys (elt : ScalarTy) (shape : List Int) :
    R.Obeys (fun v => R.owns v.buffer) (View.zeroed elt shape) :=
  (Eval.alloc_cells_obeys _).bind fun _ hb => .pure hb

theorem View.write_obeys {v : View} (hv : R.owns v.buffer) (idx x : Value) :
    R.Obeys (fun _ => True) (v.write idx x) := by
  refine Keeps.reads.bind fun region _ => Keeps.get.bind fun s _ => Keeps.reads.bind fun values _ => ?_
  refine .ite (.pure trivial) (.same fun s _ t hs hx => ?_)
  cases hx
  exact ⟨R.modify hs hv fun cells => size_fill _ _ _ _, trivial⟩

theorem View.read_holds {v : View} (hv : R.refers v.buffer) {s : Store} {idx x : Value}
    (h : v.read s idx = .ok x) : R.Holds x := by
  obtain ⟨region, hregion, h⟩ := except_bind_ok h
  split at h
  · cases h
    exact holds_scalar _
  · cases h
    rw [holds_array, (resolve_proper hregion).2.1]
    exact hv

namespace Eval

theorem index_obeys {x : Value} (hx : R.Holds x) (idx : Value) : R.Obeys R.Holds (index x idx) := by
  cases x with
  | scalar s => exact .pure hx
  | tuple items =>
    refine Keeps.reads.bind fun i _ => ?_
    split
    · rename_i v hv
      split at hv
      · cases hv
      · exact .pure ((holds_tuple.mp hx).getElem? hv)
    · exact .fail
  | array v => exact Keeps.get.bind fun s _ => .lift fun _ h => View.read_holds (holds_array.mp hx) h
  | _ => exact .fail

theorem extentAlong_obeys (x : Value) (axis : Nat) : R.Obeys R.Holds (extentAlong x axis) := by
  unfold extentAlong
  split
  · exact .pure (holds_scalar _)
  · exact .fail

theorem checkExtents_obeys (axis : Nat) (sizes : List Value) : R.Obeys (fun _ => True) (checkExtents axis sizes) :=
  Keeps.reads.bind fun _ _ => .ite .fail (.pure trivial)

variable {α : Type} {P : α → Prop} {body' body : α → Int → Exec α}

theorem countUp_obeys (h : ∀ a i, P a → R.Keeps P (body a i) (body' a i)) :
    ∀ (count : Nat) (i : Int) {a : α}, P a → R.Keeps P (countUp body count i a) (countUp body' count i a)
  | 0, _, _, ha => .pure ha
  | count + 1, i, a, ha => (h a i ha).bind fun _ ha' => countUp_obeys h count (i + 1) ha'

theorem forRange_obeys (h : ∀ a i, P a → R.Keeps P (body a i) (body' a i)) (lo hi : Value) {a : α}
    (ha : P a) : R.Keeps P (forRange lo hi a body) (forRange lo hi a body') :=
  Keeps.reads.bind fun _ _ => Keeps.reads.bind fun _ _ => countUp_obeys h _ _ ha

end Eval

/-- An array that may be stored into. -/
def Regime.Owned (R : Regime) (a : Value) : Prop := ∃ v, a = .array v ∧ R.owns v.buffer

theorem Regime.Owned.holds (h : R.Owned a) : R.Holds a := by
  obtain ⟨v, rfl, hv⟩ := h
  exact holds_array.mpr (R.refers_of_owns hv)

theorem Regime.Owned.store (h : R.Owned a) (idx x : Value) : R.Obeys (fun _ => True) (Eval.store a idx x) := by
  obtain ⟨v, rfl, hv⟩ := h
  exact View.write_obeys hv idx x

theorem Eval.alloc_obeys (first : Value) (outer : List Value) : R.Obeys R.Owned (alloc first outer) := by
  refine Keeps.reads.bind fun is _ => ?_
  cases first with
  | scalar x => exact (View.zeroed_obeys _ _).bind fun v hv => .pure ⟨v, rfl, hv⟩
  | array u => exact (View.zeroed_obeys _ _).bind fun v hv => .pure ⟨v, rfl, hv⟩
  | _ => exact .fail

/-! ## Adverbs -/

namespace Adverb

open Eval (domain)

variable {f c e x y : Value} {i : Option Value} {xs : List Value}

theorem sliceAlong_obeys (hx : R.Holds x) (axis : Nat) (idx : Value) :
    R.Keeps R.Holds (sliceAlong (domain call) x axis idx) (sliceAlong (domain call') x axis idx) :=
  .ite (.pure hx) (Eval.index_obeys hx _)

theorem extents_obeys (axis : Nat) (xs : List Value) :
    R.Keeps R.All (extents (domain call) axis xs) (extents (domain call') axis xs) := by
  induction xs with
  | nil => exact .pure .nil
  | cons x xs ih =>
    refine .ite ?_ ih
    exact (Eval.extentAlong_obeys x axis).bind fun _ hn => ih.bind fun _ hns => .pure (.cons hn hns)

theorem commonExtent_obeys (xs : List Value) (axis : Nat) :
    R.Keeps R.Holds (commonExtent (domain call) xs axis) (commonExtent (domain call') xs axis) := by
  refine (extents_obeys axis xs).bind fun ns hns => ?_
  cases ns with
  | nil => exact .fail
  | cons m ms => exact (Eval.checkExtents_obeys axis _).bind fun _ _ => .pure (hns m List.mem_cons_self)

theorem put_obeys (ha : R.Owned a) (idx x : Value) :
    R.Keeps (fun _ => True) (put (domain call) a idx x) (put (domain call') a idx x) := ha.store _ x

variable (hcall : R.Callers call call')
include hcall

theorem invoke_obeys (hf : R.Holds f) (hargs : R.All args) :
    R.Keeps R.Holds (Eval.invoke call f args) (Eval.invoke call' f args) := by
  cases f with
  | closure fn captured =>
    obtain ⟨hfn, hcaptured⟩ := holds_closure.mp hf
    exact hcall fn hfn _ (hcaptured.append hargs)
  | _ => exact .fail

theorem applyAt_obeys (hf : R.Holds f) (hxs : R.All xs) (axis : Nat) (idx : Value) :
    R.Keeps R.Holds (applyAt (domain call) f xs axis idx) (applyAt (domain call') f xs axis idx) :=
  (Keeps.mapM fun x hx => sliceAlong_obeys (hxs x hx) axis idx).bind fun _ h => invoke_obeys hcall hf h

/-- A combination of two values. -/
theorem combine_obeys (hc : R.Holds c) (ha : R.Holds a) {u u' : Exec Value} (hu : R.Keeps R.Holds u u') :
    R.Keeps R.Holds (do (domain call).invoke c [a, ← u]) (do (domain call').invoke c [a, ← u']) :=
  hu.bind fun _ hb => invoke_obeys hcall hc (.two ha hb)

theorem seed_obeys (hf : R.Holds f) (hc : R.Holds c) (hi : ∀ v ∈ i, R.Holds v) (hxs : R.All xs) (axis : Nat) :
    R.Keeps R.Holds (seed (domain call) f c i xs axis) (seed (domain call') f c i xs axis) := by
  refine (applyAt_obeys hcall hf hxs axis _).bind fun a ha => ?_
  cases i with
  | none => exact .pure ha
  | some i => exact .ite (.pure ha) (invoke_obeys hcall hc (.two (hi i rfl) ha))

theorem map_obeys (hf : R.Holds f) (hxs : R.All xs) (axis : Nat) :
    R.Keeps R.Holds (map (domain call) f xs axis) (map (domain call') f xs axis) := by
  refine (commonExtent_obeys xs axis).bind fun m _ => (applyAt_obeys hcall hf hxs axis _).bind fun a _ => ?_
  refine (Eval.alloc_obeys a [m]).bind fun u hu => (put_obeys hu _ _).bind fun _ _ => ?_
  refine (Eval.forRange_obeys (P := fun _ => True) (fun _ i _ => ?_) _ _ trivial).bind fun _ _ => .pure hu.holds
  exact (applyAt_obeys hcall hf hxs axis _).bind fun _ _ => put_obeys hu _ _

theorem reduce_obeys (hf : R.Holds f) (hc : R.Holds c) (hi : ∀ v ∈ i, R.Holds v) (hxs : R.All xs) (axis : Nat) :
    R.Keeps R.Holds (reduce (domain call) f c i xs axis) (reduce (domain call') f c i xs axis) := by
  refine (commonExtent_obeys xs axis).bind fun m _ => (seed_obeys hcall hf hc hi hxs axis).bind fun a ha => ?_
  exact Eval.forRange_obeys (fun a i ha => combine_obeys hcall hc ha (applyAt_obeys hcall hf hxs axis _)) _ _ ha

theorem scan_obeys (hf : R.Holds f) (hc : R.Holds c) (he : R.Holds e) (hi : ∀ v ∈ i, R.Holds v)
    (hxs : R.All xs) (axis : Nat) :
    R.Keeps R.Holds (scan (domain call) f c e i xs axis) (scan (domain call') f c e i xs axis) := by
  refine (commonExtent_obeys xs axis).bind fun m _ => (seed_obeys hcall hf hc hi hxs axis).bind fun a ha => ?_
  refine (invoke_obeys hcall he (.one ha)).bind fun x _ => (Eval.alloc_obeys x [m]).bind fun u hu => ?_
  refine (put_obeys hu _ _).bind fun _ _ => ?_
  refine (Eval.forRange_obeys (P := R.Holds) (fun a i ha => ?_) _ _ ha).bind fun _ _ => .pure hu.holds
  refine (applyAt_obeys hcall hf hxs axis _).bind fun b hb => (invoke_obeys hcall hc (.two ha hb)).bind fun d hd => ?_
  exact (invoke_obeys hcall he (.one hd)).bind fun _ _ => (put_obeys hu _ _).bind fun _ _ => .pure hd

theorem allPairs_obeys (hf : R.Holds f) (hx : R.Holds x) (hy : R.Holds y) (axis : Nat) :
    R.Keeps R.Holds (allPairs (domain call) f x y axis) (allPairs (domain call') f x y axis) := by
  refine (Eval.extentAlong_obeys x axis).bind fun nx _ => (Eval.extentAlong_obeys y axis).bind fun ny _ => ?_
  refine (sliceAlong_obeys hx axis _).bind fun x0 hx0 => (sliceAlong_obeys hy axis _).bind fun y0 hy0 => ?_
  refine (invoke_obeys hcall hf (.two hx0 hy0)).bind fun a _ => (Eval.alloc_obeys a [nx, ny]).bind fun u hu => ?_
  refine (Eval.forRange_obeys (P := fun _ => True) (fun _ i _ => ?_) _ _ trivial).bind fun _ _ => .pure hu.holds
  refine (sliceAlong_obeys hx axis _).bind fun xi hxi => Eval.forRange_obeys (fun _ j _ => ?_) _ _ trivial
  refine (sliceAlong_obeys hy axis _).bind fun yj hyj => (invoke_obeys hcall hf (.two hxi hyj)).bind fun _ _ => ?_
  exact hu.store _ _

end Adverb

namespace Eval

theorem broadcastLike_obeys {i : Value} (hi : R.Holds i) (x : Value) : R.Obeys R.Holds (broadcastLike i x) := by
  cases x with
  | array v =>
    refine (View.zeroed_obeys _ _).bind fun u hu => (View.write_obeys hu _ _).bind fun _ _ => .pure ?_
    exact holds_array.mpr (R.refers_of_owns hu)
  | _ => exact .pure hi

theorem tiledReduce_obeys (hcall : R.Callers call call') {f c i : Value} (hf : R.Holds f)
    (hc : R.Holds c) (hi : R.Holds i) {xs : List Value} (hxs : R.All xs) (axes : List Nat) :
    R.Keeps R.Holds (tiledReduce call f c i xs axes) (tiledReduce call' f c i xs axes) := by
  cases xs with
  | nil => exact .fail
  | cons x xs =>
    cases axes with
    | nil => exact .fail
    | cons axis axes =>
      refine (extentAlong_obeys x axis).bind fun m _ => Keeps.reads.bind fun m _ => ?_
      refine (countUp_obeys (P := fun o : Option Value => ∀ v ∈ o, R.Holds v) (fun acc j hacc => ?_) _ _
        (fun v hv => by cases hv)).bind fun acc hacc => .pure ?_
      · have htile : ∀ p ∈ (x :: xs).zip (axis :: axes), R.Holds p.1 := fun p hp => hxs p.1 (List.of_mem_zip hp).1
        refine (Keeps.mapM fun (p : Value × Nat) hp => Adverb.sliceAlong_obeys (htile p hp) p.2 _).bind
          fun tiles htiles => (Adverb.invoke_obeys hcall hf htiles).bind fun y hy => ?_
        have next : ∀ a, R.Holds a → R.Keeps (fun o : Option Value => ∀ v ∈ o, R.Holds v)
            (do return some (← invoke call c [a, y])) (do return some (← invoke call' c [a, y])) := by
          intro a ha
          refine (Adverb.invoke_obeys hcall hc (.two ha hy)).bind fun z hz => .pure ?_
          intro v hv
          cases hv
          exact hz
        cases acc with
        | none => exact (broadcastLike_obeys hi y).bind next
        | some a => exact next a (hacc a rfl)
      · cases acc with
        | none => exact hi
        | some a => exact hacc a rfl

/-! ## Expressions -/

variable {L : Locals}

theorem exprs_obeys (h : ∀ e ∈ es, R.Keeps R.Holds (expr call L e) (expr call' L e)) :
    R.Keeps R.All (exprs call L es) (exprs call' L es) := by
  induction es with
  | nil => exact .pure .nil
  | cons e es ih =>
    refine (h e List.mem_cons_self).bind fun _ hv => ?_
    exact (ih fun e' he' => h e' (List.mem_cons_of_mem _ he')).bind fun _ hvs => .pure (.cons hv hvs)

theorem optional_obeys {o : Option Expr} (h : ∀ e ∈ o.toList, R.Keeps R.Holds (expr call L e) (expr call' L e)) :
    R.Keeps (fun i : Option Value => ∀ v ∈ i, R.Holds v) (optional call L o) (optional call' L o) := by
  cases o with
  | none => exact .pure fun v hv => by cases hv
  | some e =>
    refine (h e (by simp)).bind fun v hv => .pure fun u hu => ?_
    cases hu
    exact hv

theorem constant_holds (c : Const) (t : Ty) : R.Holds (constant c t) := by
  cases c <;> exact Regime.holds_plain rfl rfl

theorem viewPart_holds {v : View} (hv : R.refers v.buffer) (field : Field) : R.Holds (viewPart v field) := by
  cases field with
  | data => exact Regime.holds_buffer.mpr hv
  | shape => exact Regime.holds_ints _ fun s => s
  | strides => exact Regime.holds_ints _ fun s => s * v.elt.bytes
  | offset => exact holds_scalar _
  | size => exact holds_scalar _

/-- Evaluating an expression keeps to the regime, if the functions that it calls do. -/
theorem expr_obeys (hL : R.Admits L) (e : Expr) : (calls e = true → R.Callers call call') → Mention R.names e.subterms →
    R.Keeps R.Holds (expr call L e) (expr call' L e) := by
  refine Expr.induction (P := fun e => (calls e = true → R.Callers call call') → Mention R.names e.subterms →
    R.Keeps R.Holds (expr call L e) (expr call' L e)) (fun e ih hcall he => ?_) e
  have one : ∀ c ∈ e.children, R.Keeps R.Holds (expr call L c) (expr call' L c) :=
    fun c hc => ih c hc (fun h => hcall (calls_of_child hc h)) (he.subset fun _ hd => Expr.subterms_of_child hc hd)
  have many : ∀ es : List Expr, (∀ c ∈ es, c ∈ e.children) → R.Keeps R.All (exprs call L es) (exprs call' L es) :=
    fun es hm => exprs_obeys fun c hc => one c (hm c hc)
  have maybe : ∀ o : Option Expr, (∀ c ∈ o.toList, c ∈ e.children) →
      R.Keeps (fun i : Option Value => ∀ v ∈ i, R.Holds v) (optional call L o) (optional call' L o) :=
    fun o hm => optional_obeys fun c hc => one c (hm c hc)
  have hself : ∀ fn ∈ e.mentions, fn ∈ R.names := he e e.self_mem_subterms
  cases e with
  | var x t =>
    rw [expr, expr]
    split
    · rename_i v hv
      exact .pure (hL x v hv)
    · exact .fail
  | const c t => exact .pure (constant_holds c t)
  | fnRef fn t => exact .pure (holds_closure.mpr ⟨hself fn (by simp [Expr.mentions]), .nil⟩)
  | prim op args t =>
    refine (many args fun _ => id).bind fun _ _ => Keeps.reads.bind fun _ _ => ?_
    exact Keeps.reads.bind fun _ _ => Keeps.reads.bind fun _ _ => .pure (holds_scalar _)
  | call fn args t =>
    exact (many args fun _ => id).bind fun _ hvs =>
      hcall (calls_of_node rfl) fn (hself fn (by simp [Expr.mentions])) _ hvs
  | tuple items t => exact (many items fun _ => id).bind fun _ hvs => .pure (holds_tuple.mpr hvs)
  | closure fn captured t =>
    exact (many captured fun _ => id).bind fun _ hvs =>
      .pure (holds_closure.mpr ⟨hself fn (by simp [Expr.mentions]), hvs⟩)
  | index x idx t =>
    exact (one x (by simp)).bind fun _ hv => (one idx (by simp)).bind fun _ _ =>
      index_obeys hv _
  | proj x i t =>
    refine (one x (by simp)).bind fun v hv => ?_
    cases v with
    | tuple items =>
      dsimp only
      split
      · rename_i item hitem
        exact .pure ((holds_tuple.mp hv).getElem? hitem)
      · exact .fail
    | _ => exact .fail
  | attr x field t =>
    refine (one x (by simp)).bind fun v hv => ?_
    cases v with
    | array v => exact .pure (viewPart_holds (holds_array.mp hv) field)
    | _ => exact .fail
  | cast x t =>
    exact (one x (by simp)).bind fun _ _ => Keeps.reads.bind fun _ _ =>
      Keeps.reads.bind fun _ _ => .pure (holds_scalar _)
  | alloc elt count t =>
    refine (one count (by simp)).bind fun _ _ => Keeps.reads.bind fun _ _ => .ite .fail ?_
    exact (alloc_cells_obeys _).bind fun _ hb => .pure (Regime.holds_buffer.mpr (R.refers_of_owns hb))
  | view data shape strides offset size t =>
    refine (one data (by simp)).bind fun v hv => ?_
    cases v with
    | buffer elt b =>
      refine (one shape (by simp)).bind fun _ _ => Keeps.reads.bind fun _ _ => ?_
      refine (one strides (by simp)).bind fun _ _ => Keeps.reads.bind fun _ _ => ?_
      refine (one offset (by simp)).bind fun _ _ => Keeps.reads.bind fun _ _ => .pure ?_
      exact holds_array.mpr (Regime.holds_buffer.mp hv)
    | _ => exact .fail
  | slice start stop step t =>
    refine (one start (by simp)).bind fun _ _ => Keeps.reads.bind fun _ _ => ?_
    refine (one stop (by simp)).bind fun _ _ => Keeps.reads.bind fun _ _ => ?_
    exact (one step (by simp)).bind fun _ _ => Keeps.reads.bind fun _ _ => .pure (Regime.holds_slice _ _ _)
  | capture c i t =>
    refine (one c (by simp)).bind fun v hv => ?_
    cases v with
    | closure fn captured =>
      dsimp only
      split
      · rename_i x hx
        exact .pure ((holds_closure.mp hv).2.getElem? hx)
      · exact .fail
    | _ => exact .fail
  | map f args axis t =>
    exact (one f (by simp)).bind fun _ hf => (many args (by simp +contextual)).bind
      fun _ hvs => Adverb.map_obeys (hcall (calls_of_node rfl)) hf hvs _
  | allPairs f args axis t =>
    refine (one f (by simp)).bind fun _ hf => (many args (by simp +contextual)).bind
      fun vs hvs => ?_
    split
    · exact Adverb.allPairs_obeys (hcall (calls_of_node rfl)) hf (hvs _ (by simp)) (hvs _ (by simp)) _
    · exact .fail
  | tiledMap f args axes tile t =>
    exact (one f (by simp)).bind fun _ hf => (many args (by simp +contextual)).bind
      fun _ hvs => Adverb.invoke_obeys (hcall (calls_of_node rfl)) hf hvs
  | reduce f c init args axis t =>
    refine (one f (by simp)).bind fun _ hf => (one c (by simp)).bind fun _ hc => ?_
    exact (maybe init (by simp +contextual)).bind fun _ hi =>
      (many args (by simp +contextual)).bind fun _ hvs =>
        Adverb.reduce_obeys (hcall (calls_of_node rfl)) hf hc hi hvs _
  | scan f c e init args axis t =>
    refine (one f (by simp)).bind fun _ hf => (one c (by simp)).bind fun _ hc => ?_
    refine (one e (by simp)).bind fun _ he => ?_
    exact (maybe init (by simp +contextual)).bind fun _ hi =>
      (many args (by simp +contextual)).bind fun _ hvs =>
        Adverb.scan_obeys (hcall (calls_of_node rfl)) hf hc he hi hvs _
  | tiledReduce f c init args axes tile t =>
    refine (one f (by simp)).bind fun _ hf => (one c (by simp)).bind fun _ hc => ?_
    exact (one init (by simp)).bind fun _ hi =>
      (many args (by simp +contextual)).bind fun _ hvs =>
        tiledReduce_obeys (hcall (calls_of_node rfl)) hf hc hi hvs _

end Eval

/-! ## Statements -/

/-- The second run has as much fuel, or more of it if running out does not count. -/
def Fueled (B : Fault → Prop) (n m : Nat) : Prop := n = m ∨ n ≤ m ∧ B .exhausted

namespace Fueled

variable {B : Fault → Prop} {n m : Nat}

theorem of_succ (h : Fueled B (n + 1) m) : ∃ k, m = k + 1 ∧ Fueled B n k := by
  rcases h with rfl | ⟨hle, hB⟩
  · exact ⟨n, rfl, .inl rfl⟩
  · exact ⟨m - 1, by omega, .inr ⟨by omega, hB⟩⟩

/-- Out of fuel, the first run has an excuse or the second is out of fuel as well. -/
theorem exhausted {α : Type} {P : α → Prop} {y : Exec α} (h : n = m → y = throw .exhausted)
    (hfuel : Fueled R.excuses n m) :
    R.Keeps P (throw .exhausted) y := by
  rcases hfuel with hn | ⟨-, hB⟩
  · rw [h hn]
    exact .same fun _ _ _ _ hx => by cases hx
  · exact fun s _ => .inr ⟨.exhausted, s, rfl, hB⟩

end Fueled

namespace Eval

variable {L : Locals} {m : Merge} {fuel fuel' : Nat}

theorem andThen_obeys {next next' : Locals → Exec Flow}
    (h : ∀ L, R.Admits L → R.Keeps R.Leads (next L) (next' L)) {fl : Flow}
    (hfl : R.Leads fl) : R.Keeps R.Leads (fl.andThen next) (fl.andThen next') := by
  cases fl with
  | next L => exact h L hfl
  | returned v => exact .pure hfl

section Loops

variable {test test' : Locals → Exec Bool} {body body' : Locals → Exec Flow} {again again' : Locals → Exec Locals}

/-- The second loop may have more iterations to go, if running out of them does not count. -/
theorem iterate_obeys (ht : ∀ L, R.Admits L → R.Keeps (fun _ => True) (test L) (test' L))
    (hb : ∀ L, R.Admits L → R.Keeps R.Leads (body L) (body' L))
    (ha : ∀ L, R.Admits L → R.Keeps R.Admits (again L) (again' L)) {n k : Nat}
    (h : Fueled R.excuses n k) (hL : R.Admits L) :
    R.Keeps R.Leads (iterate test body again n L) (iterate test' body' again' k L) := by
  induction n generalizing k L with
  | zero =>
    rw [iterate.eq_def, iterate.eq_def]
    refine (ht L hL).bind fun c _ => .ite (h.exhausted ?_) (.pure hL)
    rintro rfl
    rfl
  | succ n ih =>
    obtain ⟨k, rfl, hk⟩ := h.of_succ
    rw [iterate_succ, iterate_succ]
    refine (ht L hL).bind fun b _ => .ite ?_ (.pure hL)
    exact (hb L hL).bind fun _ => andThen_obeys fun L hL => (ha L hL).bind fun _ => ih hk

theorem repeatCounted_obeys {x : VarName} {step : Int} (hb : ∀ L, R.Admits L → R.Keeps R.Leads (body L) (body' L))
    (ha : ∀ L, R.Admits L → R.Keeps R.Admits (again L) (again' L)) (k : Nat) (i : Int) (hL : R.Admits L) :
    R.Keeps R.Leads (repeatCounted x step body again k i L) (repeatCounted x step body' again' k i L) := by
  induction k generalizing i L with
  | zero => exact .pure hL
  | succ k ih =>
    rw [repeatCounted_succ, repeatCounted_succ]
    refine (hb _ (hL.insert x (holds_scalar _))).bind fun _ => andThen_obeys fun L hL => ?_
    exact (ha L hL).bind fun _ => ih (i + step)

end Loops

theorem store_obeys (hstores : ∀ b, R.refers b → R.owns b) (ha : R.Holds a) (idx x : Value) :
    R.Obeys (fun _ => True) (store a idx x) := by
  cases a with
  | array v => exact View.write_obeys (hstores _ (holds_array.mp ha)) idx x
  | _ => exact .fail

section Code

variable (hcall : R.Callers call call')
include hcall

theorem condition_obeys (hL : R.Admits L) {c : Expr} (hc : Mention R.names c.subterms) :
    R.Keeps (fun _ => True) (condition call L c) (condition call' L c) := by
  refine (expr_obeys hL c (fun _ => hcall) hc).bind fun v _ => ?_
  split
  · exact .pure trivial
  · exact .fail

theorem bindMerge_obeys {side : Expr × Expr → Expr}
    (h : ∀ p ∈ m.toList, Mention R.names (side p.2).subterms) (hL : R.Admits L) :
    R.Keeps R.Admits (bindMerge call m side L) (bindMerge call' m side L) := by
  have values : ∀ es : List (VarName × Expr × Expr), (∀ p ∈ es, Mention R.names (side p.2).subterms) →
      R.Keeps (fun vs => ∀ e ∈ vs, R.Holds e.2) (mergeValues call L side es) (mergeValues call' L side es) := by
    intro es
    induction es with
    | nil => exact fun _ => .pure fun e he => absurd he List.not_mem_nil
    | cons e es ih =>
      intro hes
      refine (expr_obeys hL _ (fun _ => hcall) (hes e List.mem_cons_self)).bind fun v hv => ?_
      exact (ih fun p hp => hes p (List.mem_cons_of_mem _ hp)).bind fun vs hvs =>
        .pure (List.forall_mem_cons.mpr ⟨hv, hvs⟩)
  exact (values _ h).bind fun _ hvs => .pure (hL.insertAll hvs)

theorem header_obeys (hL : R.Admits L) {c : Counter}
    (hc : ∀ e ∈ [c.start, c.stop, c.step], Mention R.names e.subterms) :
    R.Keeps (fun _ => True) (header call L c) (header call' L c) := by
  have bound : ∀ e ∈ [c.start, c.stop, c.step], R.Keeps R.Holds (expr call L e) (expr call' L e) :=
    fun e he => expr_obeys hL e (fun _ => hcall) (hc e he)
  refine (bound _ (by simp)).bind fun _ _ => Keeps.reads.bind fun _ _ => (bound _ (by simp)).bind fun _ _ => ?_
  exact Keeps.reads.bind fun _ _ => (bound _ (by simp)).bind fun _ _ => Keeps.reads.bind fun _ _ => .pure trivial

end Code

mutual

theorem stmt_obeys (hcall : R.Callers call call') (hfuel : Fueled R.excuses fuel fuel') :
    ∀ {s : Stmt}, Mention R.names s.subterms → (s.stores = true →
      ∀ b, R.refers b → R.owns b) → ∀ {L : Locals}, R.Admits L →
      R.Keeps R.Leads (stmt call fuel s L) (stmt call' fuel' s L)
  | .assign target value, hs, hstores, L, hL => by
    obtain ⟨htarget, hvalue⟩ := Mention.append.mp hs
    rw [stmt, stmt]
    refine (expr_obeys hL value (fun _ => hcall) hvalue).bind fun v hv => ?_
    cases target with
    | var x t => exact .pure (hL.insert x hv)
    | index a i t =>
      have ha : Mention R.names a.subterms := htarget.subset fun _ hd => Expr.subterms_of_child (by simp) hd
      have hi : Mention R.names i.subterms := htarget.subset fun _ hd => Expr.subterms_of_child (by simp) hd
      refine (expr_obeys hL a (fun _ => hcall) ha).bind fun a ha => (expr_obeys hL i (fun _ => hcall) hi).bind
        fun i _ => ?_
      exact (store_obeys (hstores rfl) ha i v).bind fun _ _ => .pure hL
    | _ => exact .fail
  | .ret value, hs, _, L, hL => by
    rw [stmt, stmt]
    exact (expr_obeys hL value (fun _ => hcall) hs).bind fun _ hv => .pure hv
  | .ite c yes no m, hs, hstores, L, hL => by
    simp only [Stmt.subterms, Mention.append] at hs
    obtain ⟨⟨⟨hc, hm⟩, hyes⟩, hno⟩ := hs
    rw [stmt_ite, stmt_ite]
    refine (condition_obeys hcall hL hc).bind fun b _ => ?_
    have hb :
        R.Keeps R.Leads (block call fuel (if b then yes else no) L) (block call' fuel' (if b then yes else no) L) := by
      cases b with
      | true =>
        exact block_obeys hcall hfuel hyes (fun h : Stmt.blockStores yes =
        true => hstores (by simp [Stmt.stores, h])) hL
      | false =>
        exact block_obeys hcall hfuel hno (fun h : Stmt.blockStores no = true => hstores (by simp [Stmt.stores, h])) hL
    have hside :
        ∀ p ∈ m.toList, Mention R.names ((if b then Prod.fst else Prod.snd : Expr × Expr → Expr) p.2).subterms := by
      cases b with
      | true => exact fun p hp => (hm.sides p hp).1
      | false => exact fun p hp => (hm.sides p hp).2
    refine hb.bind fun _ => andThen_obeys fun L hL => ?_
    exact (bindMerge_obeys hcall hside hL).bind fun _ hL => .pure hL
  | .whileLoop c body m, hs, hstores, L, hL => by
    simp only [Stmt.subterms, Mention.append] at hs
    obtain ⟨⟨hc, hm⟩, hbody⟩ := hs
    rw [stmt, stmt]
    refine (bindMerge_obeys hcall (fun p hp => (hm.sides p hp).1) hL).bind fun L hL => ?_
    exact iterate_obeys (fun _ hL => condition_obeys hcall hL hc) (fun _ hL => block_obeys hcall hfuel hbody hstores hL)
      (fun _ hL => bindMerge_obeys hcall (fun p hp => (hm.sides p hp).2) hL) hfuel hL
  | .forLoop c body m, hs, hstores, L, hL => by
    simp only [Stmt.subterms, Mention.append] at hs
    obtain ⟨⟨⟨⟨hstart, hstop⟩, hstep⟩, hm⟩, hbody⟩ := hs
    rw [stmt_forLoop, stmt_forLoop]
    refine (header_obeys hcall hL (by simp [hstart, hstop, hstep])).bind fun hd _ => .ite .fail ?_
    refine (bindMerge_obeys hcall (fun p hp => (hm.sides p hp).1) hL).bind fun L hL => ?_
    exact repeatCounted_obeys (fun _ hL => block_obeys hcall hfuel hbody hstores hL)
      (fun _ hL => bindMerge_obeys hcall (fun p hp => (hm.sides p hp).2) hL) _ _ hL

/-- Running code keeps to the regime, if the functions that it calls do; but stores must be allowed. -/
theorem block_obeys (hcall : R.Callers call call') (hfuel : Fueled R.excuses fuel fuel') :
    ∀ {ss : List Stmt}, Mention R.names (Stmt.blockSubterms ss) →
      (Stmt.blockStores ss = true → ∀ b, R.refers b → R.owns b) →
      ∀ {L : Locals}, R.Admits L → R.Keeps R.Leads (block call fuel ss L) (block call' fuel' ss L)
  | [], _, _, L, hL => by
    rw [block_nil, block_nil]
    exact .pure hL
  | s :: ss, hss, hstores, L, hL => by
    obtain ⟨hs, hss⟩ := Mention.append.mp hss
    rw [block_cons, block_cons]
    refine (stmt_obeys hcall hfuel hs (fun h => hstores (by simp [Stmt.blockStores, h]))
      hL).bind fun _ => andThen_obeys fun _ hL => ?_
    exact block_obeys hcall hfuel hss (fun h => hstores (by simp [Stmt.blockStores, h])) hL

end

theorem body_obeys (hcall : R.Callers call call') (hfuel : Fueled R.excuses fuel fuel') {f : Func}
    (hf : Mention R.names f.subterms) (hstores : Stmt.blockStores f.body = true → ∀ b, R.refers b → R.owns b)
    (hargs : R.All args) : R.Keeps R.Holds (body call fuel f args) (body call' fuel' f args) := by
  refine (block_obeys hcall hfuel hf hstores (.params f.params hargs)).bind fun r hr => ?_
  cases r with
  | returned v => exact .pure hr
  | next L => exact .fail

end Eval

/-- Calls keep to a regime for which both sessions have the same functions under the names in bounds, if those mention
only such names, and store nothing unless stores are allowed. -/
theorem Session.call_obeys {s t : Session} (hfind : ∀ fn ∈ R.names, s.find? fn = t.find? fn)
    (hcode : ∀ fn ∈ R.names, ∀ f, s.find? fn = some f →
      Mention R.names f.subterms ∧ (Stmt.blockStores f.body = true → ∀ b, R.refers b → R.owns b))
    {n m : Nat} (h : Fueled R.excuses n m) : R.Callers (s.call n) (t.call m) := by
  induction n generalizing m with
  | zero =>
    refine fun fn _ args _ => h.exhausted ?_
    rintro rfl
    rfl
  | succ n ih =>
    obtain ⟨m, rfl, hm⟩ := h.of_succ
    intro fn hfn args hargs
    cases hf : s.find? fn with
    | none =>
      rw [Session.call_succ_none hf, Session.call_succ_none (hfind fn hfn ▸ hf)]
      exact .fail
    | some f =>
      obtain ⟨hmention, hstores⟩ := hcode fn hfn f hf
      rw [Session.call_succ hf, Session.call_succ (hfind fn hfn ▸ hf)]
      exact .ite .fail (Eval.body_obeys (ih hm) hm hmention hstores hargs)

/-! ## Which names are called -/

/-- The regime under which only the names in `N` are called. All buffers are in bounds. -/
def Regime.calling (N : Set FnName) (excuses : Fault → Prop) : Regime where
  names := N
  refers _ := True
  owns _ := True
  fit _ := True
  turns _ _ := True
  excuses := excuses
  refers_of_owns := id
  refl _ := trivial
  trans _ _ := trivial
  fit_of_turns _ _ := trivial
  alloc _ _ := ⟨trivial, trivial⟩
  modify _ _ _ := trivial

theorem Regime.calling_holds {B : Fault → Prop} {v : Value} (h : ∀ fn ∈ v.mentions, fn ∈ N) : (calling N B).Holds v :=
  ⟨h, fun _ _ => trivial⟩

end ArrayIR
