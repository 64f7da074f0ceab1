/-
  ArrayIR.Proofs.Discipline.Replacing — replacing expressions bottom-up.

  A pass that replaces expressions node by node keeps to a discipline if its step
  does on every node, whenever the replacements of the node's children do
  (`Frame.replace_lays`). A relation between what is replaced and what replaces it is
  carried along.
-/

import ArrayIR.Proofs.Discipline.Walk

namespace ArrayIR

namespace Expr

variable {m : Type → Type} [Monad m] (step : Expr → List (Replacement m) → m Expr)

theorem self_replace (e : Expr) : (e.replace step).self = step e (e.children.map (replace step)) := by
  rw [replace, fold_eq]

theorem kids_replace (e : Expr) : (e.replace step).kids = (e.children.map (replace step)).mapM (·.self) := by
  rw [replace, fold_eq]

/-- Whether the node is a reference to a function or a closure over one. -/
def isLiteral : Expr → Bool
  | fnRef .. | closure .. => true
  | _ => false

/-- The callables that an adverb applies. -/
def operands : Expr → List Expr
  | map f _ _ _ | allPairs f _ _ _ | tiledMap f _ _ _ _ => [f]
  | reduce f c _ _ _ _ | tiledReduce f c _ _ _ _ _ => [f, c]
  | scan f c e _ _ _ _ => [f, c, e]
  | _ => []

theorem operands_subset {e o : Expr} (h : o ∈ e.operands) : o ∈ e.children := by
  cases e <;> simp_all [operands, children] <;> tauto

/-- A projection out of a closure, made out of what replaces the closure. -/
def reproject {σ : Type} (x : PassM σ Expr) : Expr → PassM σ Expr
  | capture _ i t => return capture (← x) i t
  | e => return e

end Expr

namespace Discipline

namespace Frame

variable {D : Discipline} {σ : Type} {F : D.Frame σ} {Rel : Expr → Expr → Prop} {V : Set VarName}
  {e : Expr} {es : List Expr}

/-- In any state the computation gives what can be emitted in place of the expression. -/
def Replaces (F : D.Frame σ) (Rel : Expr → Expr → Prop) (V : Set VarName) (e : Expr) (x : PassM σ Expr) : Prop :=
  ∀ w st, F.Steps V w st (fun w' c => D.Sees w' c ∧ Rel e c) x

/-- The same for one expression after the other. -/
def ReplacesAll (F : D.Frame σ) (Rel : Expr → Expr → Prop) (V : Set VarName) (es : List Expr)
    (x : PassM σ (List Expr)) : Prop :=
  ∀ w st, F.Steps V w st (fun w' cs => (∀ c ∈ cs, D.Sees w' c) ∧ List.Forall₂ Rel es cs) x

theorem replacesAll_selves {r : Expr → Replacement (PassM σ)} (h : ∀ e ∈ es, F.Replaces Rel V e (r e).self) :
    F.ReplacesAll Rel V es ((es.map r).mapM (·.self)) := by
  induction es with
  | nil => exact fun w st => .pure fun _ _ => ⟨fun _ hc => absurd hc List.not_mem_nil, .nil⟩
  | cons e es ih =>
    intro w st
    rw [List.map_cons, List.mapM_cons]
    refine (h e List.mem_cons_self w st).bind fun w1 c st1 _ ⟨hc, hrel⟩ => ?_
    refine (ih (fun e he => h e (List.mem_cons_of_mem _ he)) w1 st1).map fun w2 cs hw2 ⟨hcs, hrels⟩ =>
      ⟨fun d hd => ?_, .cons hrel hrels⟩
    rcases List.mem_cons.mp hd with rfl | hd
    · exact hc.mono hw2
    · exact hcs d hd

/-- If the step keeps to the discipline on every node, given that the replacements of the children and of
their children do, then the replacement does on every expression. -/
theorem replace_lays {N : Expr → Prop} {step : Expr → List (Replacement (PassM σ)) → PassM σ Expr}
    (hstep : ∀ {e : Expr}, e.Fits N V → (∀ c ∈ e.children, F.Replaces Rel V c (c.replace step).self ∧
      ∀ d ∈ c.children, F.Replaces Rel V d (d.replace step).self) →
      F.Replaces Rel V e (step e (e.children.map (Expr.replace step)))) (he : e.Fits N V) :
    F.Replaces Rel V e (e.replace step).self := by
  have hall : F.Replaces Rel V e (e.replace step).self ∧
      ∀ d ∈ e.children, F.Replaces Rel V d (d.replace step).self := by
    induction e using Expr.induction with
    | step e ih =>
      have hbelow : ∀ c ∈ e.children, F.Replaces Rel V c (c.replace step).self ∧
          ∀ d ∈ c.children, F.Replaces Rel V d (d.replace step).self := fun c hc => ih c hc (he.child hc)
      refine ⟨?_, fun c hc => (hbelow c hc).1⟩
      rw [Expr.self_replace]
      exact hstep he hbelow
  exact hall.1

/-- A node that is put together again from the replacements of its children. -/
theorem rebuild_lays {below : List (Replacement (PassM σ))} (hne : ∀ x t, e ≠ .var x t)
    (hkids : F.ReplacesAll Rel V e.children (below.mapM (·.self)))
    (hnode : ∀ {w : World} {st : σ} {cs : List Expr}, F.stands V w st → List.Forall₂ Rel e.children cs →
      D.Node w.session (e.withChildren cs) ∧ Rel e (e.withChildren cs)) :
    F.Replaces Rel V e (e.rebuild below) := by
  intro w st hst
  refine .passMap (hkids w st hst) fun w1 cs st1 hw1 ⟨⟨hcs, hrel⟩, hm⟩ => ?_
  obtain ⟨hn, hr⟩ := hnode (stands_later hst hm hw1) hrel
  have hlen : cs.length = e.children.length := hrel.length_eq.symm
  refine ⟨⟨Expr.fits_of_children (Expr.withChildren_ne_var hne hlen) hn ?_, hr⟩, hm⟩
  rw [Expr.children_withChildren hlen]
  exact hcs

/-- What a callable that is no literal captured are projections out of it. -/
theorem captures_ok {vs : List Expr} (h : Build.captures e = .ok vs) (he : e.isLiteral = false) :
    ∀ v ∈ vs, ∃ fn ts i t, e.ty = .closure fn ts ∧ t ∈ ts ∧ v = .capture e i t := by
  intro v hv
  unfold Build.captures at h
  split at h
  · cases he
  · cases h
    exact absurd hv List.not_mem_nil
  · cases he
  · rename_i hty
    cases h
    obtain ⟨⟨t, i⟩, hp, rfl⟩ := List.mem_map.mp hv
    exact ⟨_, _, i, t, hty, (List.mem_zipIdx' hp).2 ▸ List.getElem_mem _, rfl⟩
  · cases h

/-- Projections out of an expression become projections out of what replaces it. -/
theorem projections_lays {x : PassM σ Expr} (hx : F.Replaces Rel V e x) {us : List Expr} {s : Session}
    (hus : ∀ u ∈ us, ∃ i t, D.Typed s t ∧ u = .capture e i t) (w : World) (st : σ) (hs : D.le s w.session) :
    F.Steps V w st (fun w' cs => ∀ c ∈ cs, D.Sees w' c) (us.mapM (Expr.reproject x)) := by
  induction us generalizing w st with
  | nil => exact .pure fun _ _ _ hc => absurd hc List.not_mem_nil
  | cons u us ih =>
    obtain ⟨⟨i, t, ht, rfl⟩, hrest⟩ := List.forall_mem_cons.mp hus
    rw [List.mapM_cons]
    have hone : F.Steps V w st D.Sees (do return .capture (← x) i t) := (hx w st).map fun w1 c hw1 hc =>
      sees_made rfl rfl (ht.mono (D.trans hs hw1.1)) (by simpa using hc.1)
    refine hone.bind fun w1 c st1 hw1 hc => (ih hrest w1 st1 (D.trans hs hw1.1)).map fun w2 cs hw2 hcs d hd => ?_
    rcases List.mem_cons.mp hd with rfl | hd
    · exact hc.mono hw2
    · exact hcs d hd

/-- The captures of a callable, replaced. -/
theorem captures_lays {r : Replacement (PassM σ)} {w : World} {st : σ}
    (hself : e.isLiteral = false → F.Replaces Rel V e r.self) (hkids : F.ReplacesAll Rel V e.children r.kids)
    (htyped : e.isLiteral = false → ∀ fn ts, e.ty = .closure fn ts → ∀ t ∈ ts, D.Typed w.session t) :
    F.Steps V w st (fun w' cs => ∀ c ∈ cs, D.Sees w' c) (r.captures e) := by
  refine (Steps.lift (.lift fun vs hvs w' _ => hvs)).bind fun w1 vs st1 hw1 hvs => ?_
  have hnone : F.Steps V w1 st1 (fun w' cs => ∀ c ∈ cs, D.Sees w' c) (pure []) := .pure fun _ _ _ hc =>
    absurd hc List.not_mem_nil
  have hprojections : e.isLiteral = false → F.Steps V w1 st1 (fun w' cs => ∀ c ∈ cs, D.Sees w' c)
      (vs.mapM (Expr.reproject r.self)) := by
    intro hlit
    refine projections_lays (hself hlit) (s := w1.session) (fun u hu => ?_) w1 st1 (D.refl _)
    obtain ⟨fn, ts, i, t, hty, ht, rfl⟩ := captures_ok hvs hlit u hu
    exact ⟨i, t, (htyped hlit fn ts hty t ht).mono hw1.1, rfl⟩
  cases e with
  | closure fn cs t =>
    show F.Steps _ _ _ _ (if vs.isEmpty then pure [] else r.kids)
    split
    · exact hnone
    · exact (hkids w1 st1).mono fun _ _ _ => And.left
  | fnRef fn t =>
    cases hvs
    exact hnone
  | _ => exact hprojections rfl

end Frame

/-! ## Computations that emit nothing -/

/-- Where it succeeds, the computation has emitted nothing. -/
def Silent {α : Type} (x : Build α) : Prop := ∀ b a b', x b = .ok a b' → b'.block = b.block

namespace Silent

variable {α β : Type} {σ : Type}

theorem pure (a : α) : Silent (Pure.pure a : Build α) := fun _ _ _ h => (state_pure_ok h).2 ▸ rfl

theorem lift (x : Except Error α) : Silent (liftM x : Build α) := fun _ _ _ h => (state_lift_ok h).2 ▸ rfl

theorem bind {x : Build α} {f : α → Build β} (hx : Silent x) (hf : ∀ a, Silent (f a)) : Silent (x >>= f) := by
  intro b c b' h
  obtain ⟨a, b1, ha, h⟩ := state_bind_ok h
  exact (hf a b1 c b' h).trans (hx b a b1 ha)

theorem passBind {x : PassM σ α} {f : α → PassM σ β} (hx : ∀ st, Silent (x st))
    (hf : ∀ a st, Silent (f a st)) (st : σ) :
    Silent ((x >>= f) st) := bind (hx st) fun p => hf p.1 p.2

theorem passLift {x : Build α} (hx : Silent x) (st : σ) : Silent ((liftM x : PassM σ α) st) := bind hx fun _ => pure _

theorem compile (x : Compile α) : Silent (Build.compile x) := by
  intro b a b' h
  unfold Build.compile at h
  split at h
  · cases h
    rfl
  · cases h

theorem lookupFn (fn : FnName) : Silent (Build.lookupFn fn) := bind (fun _ _ _ h => by cases h; rfl) fun _ => lift _

theorem mapM {x : α → PassM σ β} {as : List α} (h : ∀ a ∈ as, ∀ st, Silent (x a st)) (st : σ) :
    Silent (as.mapM x st) := by
  induction as generalizing st with
  | nil => exact pure _
  | cons a as ih =>
    rw [List.mapM_cons]
    exact passBind (h a List.mem_cons_self)
      (fun _ => passBind (fun st => ih (fun a ha => h a (List.mem_cons_of_mem _ ha)) st) fun _ _ => pure _) st

theorem callee (e : Expr) : Silent (Build.callee e) := by
  unfold Build.callee
  split
  · exact lookupFn _
  · exact fun _ _ _ h => by cases h

theorem captures {r : Replacement (PassM σ)} (hself : ∀ st, Silent (r.self st))
    (hkids : ∀ st, Silent (r.kids st)) (e : Expr) (st : σ) : Silent (r.captures e st) := by
  refine passBind (fun st => passLift (lift _) st) (fun vs st => ?_) st
  have hprojections : ∀ st, Silent (vs.mapM (Expr.reproject r.self) st) := by
    refine mapM fun v _ st => ?_
    unfold Expr.reproject
    split
    · exact passBind hself (fun _ _ => pure _) st
    · exact pure _
  cases e with
  | closure fn cs t =>
    show Silent ((if vs.isEmpty then Pure.pure [] else r.kids : PassM σ (List Expr)) st)
    split
    · exact pure _
    · exact hkids st
  | _ => exact hprojections st

end Silent

/-- What emits nothing can be run outside of the scope it is meant for. -/
theorem Lays.silent {D : Discipline} {α : Type} {w : World} {V : Set VarName} {P : World → α → Prop} {x : Build α}
    (h : D.Lays ⟨w.session, V⟩ P x) (hx : Silent x) :
    D.Lays w (fun w' a => w'.names = w.names ∧ P ⟨w'.session, V⟩ a) x := by
  intro b hb
  have hin := h b hb
  cases hr : x b with
  | error e b' =>
    rw [hr] at hin
    exact hin
  | ok a b' =>
    rw [hr] at hin
    obtain ⟨hle, out, hout, -, hp⟩ := hin
    rw [hx b a b' hr] at hout
    have hnil : out = [] := List.self_eq_append_right.mp hout
    subst hnil
    rw [Stmt.blockDefines_nil, extend_nil] at hp
    refine ⟨hle, [], ?_, trivial, extend_nil, hp⟩
    rw [hx b a b' hr, List.append_nil]

end Discipline

end ArrayIR
