/-
  ArrayIR.Proofs.Discipline.Lays — emitting code that keeps to a discipline.

  A discipline says how a session may develop, and which nodes emitted code may have
  in a given session. Both only grow: what is allowed stays allowed when the session
  develops. A world is a session together with the names in scope.

  `Lays w P x` says that from the world `w` on the computation `x` appends code that
  keeps to the discipline, and gives a result as `P` says in the world that this code
  leaves. Where `x` fails, the session has developed as it may nevertheless. There is
  one rule for each way of putting computations together.
-/

import ArrayIR.Pass.Renaming
import ArrayIR.Proofs.Building.Laying
import ArrayIR.Proofs.Discipline.Fits
import ArrayIR.Proofs.Success

namespace ArrayIR

/-- How sessions develop, and what may be emitted in each. -/
structure Discipline where
  le : Session → Session → Prop
  refl : ∀ s, le s s
  trans : ∀ {s t u}, le s t → le t u → le s u
  /-- Names can be taken at any time. -/
  named : ∀ s n, le s { s with nextName := n }
  find : ∀ {s t}, le s t → ∀ {fn f}, s.find? fn = some f → t.find? fn = some f
  /-- The functions that types may name. -/
  known : Session → FnName → Prop
  known_mono : ∀ {s t}, le s t → ∀ {fn}, known s fn → known t fn
  /-- What a node has to be like, its type apart. -/
  form : Session → Expr → Prop
  form_mono : ∀ {s t}, le s t → ∀ {e}, form s e → form t e
  form_made : ∀ {s e}, e.isMade = true → form s e
  form_subst : ∀ {s e} (r : Renaming), (∀ x t, e ≠ .var x t) → form s e → form s (r.subst e)

/-- A session, and the names in scope. -/
structure World where
  session : Session
  names : Set VarName

namespace Discipline

variable (D : Discipline)

def Typed (s : Session) (t : Ty) : Prop := ∀ f ∈ t.mentions, D.known s f

def Node (s : Session) (e : Expr) : Prop := D.Typed s e.ty ∧ D.form s e

def rule (s : Session) : Rule := { node := D.Node s }

/-- The second world comes after the first. -/
def Below (w w' : World) : Prop := D.le w.session w'.session ∧ w.names ⊆ w'.names

/-- The expression can be emitted. -/
def Sees (w : World) (e : Expr) : Prop := e.Fits (D.Node w.session) w.names

/-- What a computation from `b` on has come to. -/
def Outcome {α : Type} (w : World) (P : World → α → Prop) (b : Builder) : EStateM.Result Fault Builder α → Prop
  | .ok a b' => D.le b.session b'.session ∧ ∃ out, b'.block = b.block ++ out ∧
      Stmt.blockFits (D.rule b'.session) out w.names ∧ P ⟨b'.session, extend w.names (Stmt.blockDefines out)⟩ a
  | .error _ b' => D.le b.session b'.session

/-- From `w` on the computation appends what the discipline allows, and gives what `P` says. -/
def Lays {α : Type} (w : World) (P : World → α → Prop) (x : Build α) : Prop :=
  ∀ b, D.le w.session b.session → D.Outcome w P b (x b)

variable {D} {w w' w'' : World} {s s' : Session} {e c : Expr} {t : Ty}

/-! ## Worlds -/

theorem Below.refl (w : World) : D.Below w w := ⟨D.refl _, subset_rfl⟩

theorem Below.trans (h : D.Below w w') (h' : D.Below w' w'') : D.Below w w'' :=
  ⟨D.trans h.1 h'.1, h.2.trans h'.2⟩

theorem Below.of {V W : Set VarName} (hs : D.le s s') (hV : V ⊆ W) : D.Below ⟨s, V⟩ ⟨s', W⟩ := ⟨hs, hV⟩

/-- More names in the same session. -/
theorem Below.extend (w : World) (xs : List VarName) : D.Below w ⟨w.session, extend w.names xs⟩ :=
  ⟨D.refl _, subset_extend⟩

theorem Typed.mono (h : D.Typed s t) (hs : D.le s s') : D.Typed s' t := fun f hf => D.known_mono hs (h f hf)

theorem Node.mono (h : D.Node s e) (hs : D.le s s') : D.Node s' e := ⟨h.1.mono hs, D.form_mono hs h.2⟩

theorem rule_implies (h : D.le s s') : (D.rule s).Implies (D.rule s') :=
  ⟨fun _ hd => hd.mono h, fun _ => id, fun _ => id, fun _ _ => id⟩

theorem Sees.mono (h : D.Sees w e) (hw : D.Below w w') : D.Sees w' e := Expr.Fits.mono h (fun _ hd => hd.mono hw.1) hw.2

theorem Sees.typed (h : D.Sees w e) : D.Typed w.session e.ty := h.node.1

theorem Sees.child (h : D.Sees w e) (hc : c ∈ e.children) : D.Sees w c := Expr.Fits.child h hc

/-! ## Types and nodes -/

theorem typed_scalar {elt : ScalarTy} : D.Typed s (.scalar elt) := by simp [Typed, Ty.mentions]

theorem typed_extents {rank : Nat} : D.Typed s (Ty.extents rank) := by simp [Typed, Ty.mentions_extents]

theorem node_made (he : e.isMade = true) (ht : D.Typed s e.ty) : D.Node s e := ⟨ht, D.form_made he⟩

theorem sees_var {x : VarName} (ht : D.Typed w.session t) (hx : x ∈ w.names) : D.Sees w (.var x t) :=
  Expr.fits_var.mpr ⟨node_made rfl ht, hx⟩

theorem sees_made (hv : e.var? = none) (he : e.isMade = true) (ht : D.Typed w.session e.ty)
    (hc : ∀ c ∈ e.children, D.Sees w c) : D.Sees w e :=
  Expr.fits_of_children (fun x t h => by rw [h] at hv; cases hv) (node_made he ht) hc

/-! ## Computations -/

namespace Lays

variable {α β : Type} {P P' : World → α → Prop} {Q : World → β → Prop} {x : Build α}

/-- A result that is there already leaves the names in scope as they are. -/
theorem done {a : α} (h : ∀ s, D.le w.session s → P ⟨s, w.names⟩ a) : D.Lays w P (pure a) := by
  intro b hb
  refine ⟨D.refl _, [], (List.append_nil _).symm, trivial, ?_⟩
  rw [Stmt.blockDefines_nil, extend_nil]
  exact h _ hb

theorem pure {a : α} (h : ∀ w', D.Below w w' → P w' a) : D.Lays w P (pure a) := done fun _ hs => h _ ⟨hs, subset_rfl⟩

theorem throw (e : Fault) : D.Lays w P (throw e) := fun b _ => D.refl b.session

theorem fail (e : Error) : D.Lays w P (fail e) := throw (.error e)

theorem lift {x : Except Error α} (h : ∀ a, x = .ok a → ∀ w', D.Below w w' → P w' a) :
    D.Lays w P (liftM x : Build α) := by
  cases x with
  | error e => exact fail e
  | ok a => exact pure (h a rfl)

theorem bind {f : α → Build β} (hx : D.Lays w P x)
    (hf : ∀ w' a, D.Below w w' → P w' a → D.Lays w' Q (f a)) : D.Lays w Q (x >>= f) := by
  intro b hb
  have h := hx b hb
  show D.Outcome w Q b (EStateM.bind x f b)
  unfold EStateM.bind
  cases hxb : x b with
  | error e b1 =>
    rw [hxb] at h
    exact h
  | ok a b1 =>
    rw [hxb] at h
    obtain ⟨hle, out, hout, hfit, hp⟩ := h
    have h' := hf _ a ⟨D.trans hb hle, subset_extend⟩ hp b1 (D.refl _)
    show D.Outcome w Q b (f a b1)
    cases hfb : f a b1 with
    | error e b2 =>
      rw [hfb] at h'
      exact D.trans hle h'
    | ok c b2 =>
      rw [hfb] at h'
      obtain ⟨hle', more, hmore, hfit', hq⟩ := h'
      refine ⟨D.trans hle hle', out ++ more, by rw [hmore, hout, List.append_assoc], ?_, ?_⟩
      · exact Stmt.blockFits_append.mpr ⟨Stmt.blockFits.mono (rule_implies hle') hfit subset_rfl, hfit'⟩
      · rw [Stmt.blockDefines_append, extend_append]
        exact hq

/-- The builder may be looked at. -/
theorem look {f : Builder → Build β} (h : ∀ b, D.Lays w Q (f b)) : D.Lays w Q (get >>= f) := fun b hb => h b b hb

/-- A result that is only put in another form. -/
theorem map {f : α → β} (hx : D.Lays w P x) (h : ∀ w' a, D.Below w w' → P w' a → Q w' (f a)) :
    D.Lays w Q (x >>= fun a => Pure.pure (f a)) := by
  intro b hb
  have hxb := hx b hb
  show D.Outcome w Q b (EStateM.bind x _ b)
  unfold EStateM.bind
  cases hr : x b with
  | error e b' =>
    rw [hr] at hxb
    exact hxb
  | ok a b' =>
    rw [hr] at hxb
    obtain ⟨hle, out, hout, hfit, hp⟩ := hxb
    exact ⟨hle, out, hout, hfit, h _ _ ⟨D.trans hb hle, subset_extend⟩ hp⟩

theorem mono (hx : D.Lays w P x) (h : ∀ w' a, D.Below w w' → P w' a → P' w' a) : D.Lays w P' x := by
  have hmap := hx.map (f := id) h
  rwa [show (x >>= fun a => Pure.pure (id a)) = x from bind_pure x] at hmap

end Lays

/-! ## The builder's own operations -/

open Build

theorem emit_lays {stmt : Stmt} (h : stmt.Fits (D.rule w.session) w.names) :
    D.Lays w (fun w' _ => w'.names = extend w.names stmt.defines) (emit stmt) := by
  intro b hb
  refine ⟨D.refl _, [stmt], rfl, Stmt.blockFits_singleton.mpr (Stmt.Fits.mono (rule_implies hb) h subset_rfl), ?_⟩
  show extend _ _ = _
  rw [Stmt.blockDefines_cons, Stmt.blockDefines_nil, List.append_nil]

/-- Code in a scope of its own, which may have names that the enclosing one has not. -/
theorem nested_lays {α : Type} {P : World → α → Prop} {inner : Build α} {V : Set VarName}
    (h : D.Lays ⟨w.session, V⟩ P inner) :
    D.Lays w (fun w' p => w'.names = w.names ∧ Stmt.blockFits (D.rule w'.session) p.1 V ∧
      P ⟨w'.session, extend V (Stmt.blockDefines p.1)⟩ p.2) (nested inner) := by
  intro b hb
  have hin := h { b with block := [] } hb
  unfold nested
  cases hr : inner { b with block := [] } with
  | error e b' =>
    rw [hr] at hin
    exact hin
  | ok a b' =>
    rw [hr] at hin
    obtain ⟨hle, out, hout, hfit, hp⟩ := hin
    rw [List.nil_append] at hout
    subst hout
    refine ⟨hle, [], (List.append_nil _).symm, trivial, ?_⟩
    rw [Stmt.blockDefines_nil, extend_nil]
    exact ⟨rfl, hfit, hp⟩

/-- What a computation over sessions has come to. -/
def Developed {α : Type} (D : Discipline) (s : Session) (P : Session → α → Prop) : EStateM.Result Fault Session α → Prop
  | .ok a s' => D.le s s' ∧ P s' a
  | .error _ s' => D.le s s'

namespace Developed

variable {α β : Type} {P P' : Session → α → Prop} {Q : Session → β → Prop} {x : Compile α}

theorem pure {a : α} (h : P s a) : D.Developed s P ((Pure.pure a : Compile α) s) := ⟨D.refl s, h⟩

theorem lift {x : Except Error α} (h : ∀ a, x = .ok a → P s a) : D.Developed s P ((liftM x : Compile α) s) := by
  cases x with
  | error e => exact D.refl s
  | ok a => exact ⟨D.refl s, h a rfl⟩

/-- What has developed from a later session has from an earlier one. -/
theorem after {r : EStateM.Result Fault Session α} (h : D.Developed s' P r) (hs : D.le s s') : D.Developed s P r := by
  cases r with
  | error e t => exact D.trans hs h
  | ok a t => exact ⟨D.trans hs h.1, h.2⟩

theorem bind {f : α → Compile β} (hx : D.Developed s P (x s))
    (hf : ∀ s' a, D.le s s' → P s' a → D.Developed s' Q (f a s')) : D.Developed s Q ((x >>= f) s) := by
  show D.Developed s Q (EStateM.bind x f s)
  unfold EStateM.bind
  cases hr : x s with
  | error e s1 =>
    rw [hr] at hx
    exact hx
  | ok a s1 =>
    rw [hr] at hx
    exact (hf s1 a hx.1 hx.2).after hx.1

theorem mono {r : EStateM.Result Fault Session α} (h : D.Developed s P r) (hP : ∀ s' a, D.le s s' → P s' a → P' s' a) :
    D.Developed s P' r := by
  cases r with
  | error e s' => exact h
  | ok a s' => exact ⟨h.1, hP s' a h.1 h.2⟩

end Developed

theorem compile_lays {α : Type} {P : Session → α → Prop} {x : Compile α}
    (h : ∀ s, D.le w.session s → D.Developed s P (x s)) :
    D.Lays w (fun w' a => P w'.session a) (compile x) := by
  intro b hb
  have hx := h b.session hb
  unfold compile
  cases hr : x b.session with
  | error e s' =>
    rw [hr] at hx
    exact hx
  | ok a s' =>
    rw [hr] at hx
    exact ⟨hx.1, [], (List.append_nil _).symm, trivial, hx.2⟩

theorem freshName_lays (name : String) : D.Lays w (fun _ _ => True) (freshName name) :=
  fun _ _ => ⟨D.named _ _, [], (List.append_nil _).symm, trivial, trivial⟩

theorem declare_lays (x : VarName) (t : Ty) : D.Lays w (fun _ e => e = .var x t) (declare x t) :=
  fun _ _ => ⟨D.refl _, [], (List.append_nil _).symm, trivial, rfl⟩

theorem freshVar_lays (t : Ty) (name : String) : D.Lays w (fun _ e => ∃ x, e = .var x t) (freshVar t name) :=
  (freshName_lays name).bind fun _ x _ _ => (declare_lays x t).mono fun _ _ _ he => ⟨x, he⟩

theorem lookupTy_lays (x : VarName) : D.Lays w (fun _ _ => True) (lookupTy x) := by
  refine .look fun b => ?_
  cases b.env.get? x with
  | none => exact .fail _
  | some t => exact .pure fun _ _ => trivial

theorem lookupFn_lays (fn : FnName) : D.Lays w (fun w' f => w'.session.find? fn = some f) (lookupFn fn) := by
  intro b _
  show D.Outcome w _ b ((liftM (b.session.lookup fn) : Build Func) b)
  unfold Session.lookup
  cases hf : b.session.find? fn with
  | none => exact D.refl _
  | some f => exact ⟨D.refl _, [], (List.append_nil _).symm, trivial, hf⟩

end Discipline

end ArrayIR
