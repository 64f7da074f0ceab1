/-
  ArrayIR.Proofs.Appending — the builder never takes back what it has emitted.

  Every operation of the builder appends to the scope being built (`Tidy.appends`),
  and so does an adverb over expressions. Its result is a name that the appended code binds: that of
  the array it has allocated, or of its accumulator (`Build.map_appends` and the
  others).
-/

import ArrayIR.Proofs.Building.Neat

namespace ArrayIR

/-- A success appends code to the scope, and gives a result as `P` says. -/
def Appends {α : Type} (P : α → Block → Prop) (x : Build α) : Prop :=
  ∀ ⦃b : Builder⦄ ⦃a : α⦄ ⦃b' : Builder⦄, x b = .ok a b' → ∃ out, b'.block = b.block ++ out ∧ P a out

/-- It appends code, whatever its result. -/
abbrev Appending {α : Type} (x : Build α) : Prop := Appends (fun _ _ => True) x

/-- A name that the code binds. -/
def BoundIn (e : Expr) (out : Block) : Prop := ∃ y t, e = .var y t ∧ y ∈ Stmt.blockBinds out

variable {e : Expr} {out : Block}

theorem BoundIn.append (h : BoundIn e out) (more : Block) : BoundIn e (out ++ more) := by
  obtain ⟨y, t, rfl, hy⟩ := h
  refine ⟨y, t, rfl, ?_⟩
  rw [Stmt.blockBinds_append]
  exact List.mem_append_left _ hy

theorem BoundIn.prepend (h : BoundIn e out) (before : Block) : BoundIn e (before ++ out) := by
  obtain ⟨y, t, rfl, hy⟩ := h
  refine ⟨y, t, rfl, ?_⟩
  rw [Stmt.blockBinds_append]
  exact List.mem_append_right _ hy

namespace Appends

variable {α β : Type} {P : α → Block → Prop} {Q : β → Block → Prop}

theorem pure {a : α} (h : P a []) : Appends P (pure a) := by
  intro b a' b' hx
  obtain ⟨rfl, rfl⟩ := state_pure_ok hx
  exact ⟨[], (List.append_nil _).symm, h⟩

theorem fail (e : Error) : Appends P (fail e) := by
  intro b a b' hx
  cases hx

theorem lift (x : Except Error α) : Appending (liftM x : Build α) := by
  intro b a b' hx
  obtain ⟨-, rfl⟩ := state_lift_ok hx
  exact ⟨[], (List.append_nil _).symm, trivial⟩

variable {x : Build α}

theorem bind {f : α → Build β} (h : Appends P x)
    (next : ∀ a out, P a out → Appends (fun c more => Q c (out ++ more)) (f a)) : Appends Q (x >>= f) := by
  intro b c b' hx
  obtain ⟨a, b1, ha, hc⟩ := state_bind_ok hx
  obtain ⟨out, hout, hp⟩ := h ha
  obtain ⟨more, hmore, hq⟩ := next a out hp hc
  exact ⟨out ++ more, by rw [hmore, hout, List.append_assoc], hq⟩

theorem mono {P' : α → Block → Prop} (h : Appends P x) (hp : ∀ a out, P a out → P' a out) : Appends P' x := by
  intro b a b' hx
  obtain ⟨out, hout, ha⟩ := h hx
  exact ⟨out, hout, hp a out ha⟩

theorem ignore (h : Appends P x) : Appending x := h.mono fun _ _ _ => trivial

/-- What is done first adds to the code only. -/
theorem andThen {f : α → Build Expr} (h : Appending x) (next : ∀ a, Appends BoundIn (f a)) :
    Appends BoundIn (x >>= f) :=
  Appends.bind h fun a out _ => (next a).mono fun _ _ he => he.prepend out

/-- What is done afterwards adds to the code only. -/
theorem keeping {x : Build Expr} {f : Expr → Build Expr} (h : Appends BoundIn x)
    (next : ∀ e, Appends (fun e' _ => e' = e) (f e)) : Appends BoundIn (x >>= f) :=
  h.bind fun e _ he => (next e).mono fun _ more heq => heq ▸ he.append more

theorem returning (h : Appending x) : Appends (fun e' _ => e' = e) (x >>= fun _ => Pure.pure e) :=
  Appends.bind h fun _ _ _ => .pure rfl

end Appends

/-- Every operation of the builder appends. -/
theorem Tidy.appends {α : Type} {x : Build α} (h : Tidy x) : Appending x := by
  intro b a b' hx
  have hb := h b
  rw [hx] at hb
  obtain ⟨_, out, hw⟩ := hb
  exact ⟨out, hw.block, trivial⟩

namespace Build

/-! ## Operations of the builder -/

theorem compile_appends {α : Type} (c : Compile α) : Appending (compile c) := by
  intro b a b' hx
  unfold compile at hx
  split at hx
  · cases hx
    exact ⟨[], (List.append_nil _).symm, trivial⟩
  · cases hx

theorem freshVar_appends (t : Ty) (name : String) : Appends (fun e _ => ∃ x, e = .var x t) (freshVar t name) := by
  intro b e b' hx
  cases hx
  exact ⟨[], (List.append_nil _).symm, _, rfl⟩

theorem freshName_appends (name : String) : Appending (freshName name) := by
  intro b e b' hx
  cases hx
  exact ⟨[], (List.append_nil _).symm, trivial⟩

theorem declare_appends (x : VarName) (t : Ty) : Appends (fun e _ => e = .var x t) (declare x t) := by
  intro b e b' hx
  cases hx
  exact ⟨[], (List.append_nil _).symm, rfl⟩

theorem emit_appends (s : Stmt) : Appends (fun _ out => out = [s]) (emit s) := by
  intro b a b' hx
  cases hx
  exact ⟨[s], rfl, rfl⟩

theorem nested_appends {α : Type} (inner : Build α) : Appending (nested inner) := by
  intro b a b' hx
  unfold nested at hx
  split at hx
  · cases hx
    exact ⟨[], (List.append_nil _).symm, trivial⟩
  · cases hx

theorem temp_appends (value : Expr) (name : String) : Appends BoundIn (temp value name) := by
  refine (freshVar_appends value.ty name).bind fun e out he =>
    (emit_appends (.assign e value)).bind fun _ more hmore => ?_
  obtain ⟨y, rfl⟩ := he
  subst hmore
  refine .pure ⟨y, value.ty, rfl, ?_⟩
  simp [Stmt.blockBinds_append, Stmt.blockBinds, Stmt.binds]

theorem forLoop_appends {α : Type} (start stop step : Expr) (merge : Merge) (body : Expr → Build α) :
    Appends (fun _ out => ∀ x ∈ merge.keys, x ∈ Stmt.blockBinds out) (forLoop start stop step merge body) := by
  refine Appends.bind (Tidy.cast _ _).appends fun start _ _ => Appends.bind (Tidy.cast _ _).appends fun stop _ _ => ?_
  refine Appends.bind (Tidy.cast _ _).appends fun step _ _ => Appends.bind (freshName_appends _) fun x _ _ => ?_
  refine (declare_appends _ _).bind fun counter _ _ => Appends.bind (nested_appends _) fun ⟨code, a⟩ _ _ => ?_
  refine (emit_appends _).bind fun _ more hmore => .pure fun x hx => ?_
  subst hmore
  simp [Stmt.blockBinds_append, Stmt.blockBinds, Stmt.binds, hx]

theorem accumulate_appends (start stop init : Expr) (body : Expr → Expr → Build Expr) :
    Appends BoundIn (accumulate start stop init body) := by
  refine .andThen (freshName_appends _) fun x => (declare_appends x _).bind fun acc out hacc => ?_
  refine (freshVar_appends _ _).bind fun after out' _ => (forLoop_appends _ _ _ _ _).bind fun _ more hmore => .pure ?_
  have hx : x ∈ Stmt.blockBinds more := hmore x (by
    show x ∈ (NameMap.insert _ _ _).entries.map (·.1)
    simp [NameMap.insert, NameMap.empty, insertEntry])
  have hbound : BoundIn acc more := ⟨x, init.ty, hacc, hx⟩
  exact ((hbound.append []).prepend out').prepend out

/-! ## Adverbs over expressions -/

theorem allocShaped_appends (elt : ScalarTy) {dims : List Expr} (h : dims ≠ []) (name : String) :
    Appends BoundIn (allocShaped elt dims name) := by
  unfold allocShaped
  rw [if_neg (by simpa using h)]
  refine .andThen (Tidy.castAll _).appends fun dims => .andThen (Tidy.prod _ _).appends fun count => ?_
  exact .andThen (temp_appends _ _).ignore fun data =>
    .andThen (Tidy.rowMajorStrides _ _).appends fun _ => temp_appends _ _

theorem allocLike_appends (first : Expr) {outer : List Expr} (h : outer ≠ []) :
    Appends BoundIn (allocLike first outer) := by
  unfold allocLike
  split
  · exact allocShaped_appends _ h _
  · refine .andThen (Tidy.shape _ _).appends fun _ => .andThen (Tidy.extents _ _).appends fun inner => ?_
    exact allocShaped_appends _ (by simp [h]) _
  · exact .fail _

theorem map_appends (f : Expr) (xs : List Expr) (axis : Nat) : Appends BoundIn (Adverb.map domain f xs axis) := by
  refine .andThen (Tidy.commonExtent _ _).appends fun n => ?_
  refine .andThen (Tidy.applyAt _ _ _ _).appends fun first => ?_
  refine .keeping (allocLike_appends first (by simp)) fun result => ?_
  exact Appends.bind (Tidy.setIndex _ _ _).appends fun _ _ _ => .returning (forLoop_appends _ _ _ _ _).ignore

theorem reduce_appends (f combine : Expr) (init : Option Expr) (xs : List Expr) (axis : Nat) :
    Appends BoundIn (Adverb.reduce domain f combine init xs axis) := by
  refine .andThen (Tidy.commonExtent _ _).appends fun n => ?_
  exact .andThen (Tidy.seed _ _ _ _ _).appends fun acc => accumulate_appends _ _ _ _

theorem scan_appends (f combine emit : Expr) (init : Option Expr) (xs : List Expr) (axis : Nat) :
    Appends BoundIn (Adverb.scan domain f combine emit init xs axis) := by
  refine .andThen (Tidy.commonExtent _ _).appends fun n => ?_
  refine .andThen (Tidy.seed _ _ _ _ _).appends fun acc => ?_
  refine .andThen (Tidy.call _ _ _).appends fun first => .keeping (allocLike_appends first (by simp)) fun result => ?_
  exact Appends.bind (Tidy.setIndex _ _ _).appends fun _ _ _ => .returning (accumulate_appends _ _ _ _).ignore

theorem allPairs_appends (f x y : Expr) (axis : Nat) : Appends BoundIn (Adverb.allPairs domain f x y axis) := by
  refine .andThen (Tidy.shape x (some axis)).appends fun nx => .andThen (Tidy.shape y (some axis)).appends fun ny => ?_
  refine .andThen (Tidy.sliceAlong _ _ _).appends fun x0 => ?_
  refine .andThen (Tidy.sliceAlong _ _ _).appends fun y0 => ?_
  refine .andThen (Tidy.call _ _ _).appends fun first => .keeping (allocLike_appends first (by simp)) fun result => ?_
  exact .returning (forLoop_appends _ _ _ _ _).ignore

theorem coerce_bound (t : Ty) (context : String) (h : BoundIn e out) :
    Appends (fun e' more => BoundIn e' (out ++ more)) (coerce e t context) := by
  obtain ⟨y, u, rfl, hy⟩ := h
  have same : Appends (fun e' more => BoundIn e' (out ++ more)) (pure (.var y u)) :=
    .pure (BoundIn.append ⟨y, u, rfl, hy⟩ [])
  unfold coerce
  split
  · exact same
  · split
    · unfold cast
      split
      · exact .fail _
      · split
        · exact same
        · exact (temp_appends _ _).mono fun _ _ he => he.prepend out
    · exact .fail _

end Build

end ArrayIR
