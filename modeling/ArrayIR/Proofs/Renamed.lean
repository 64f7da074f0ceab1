/-
  ArrayIR.Proofs.Renamed — an expression and its renamed copy are in step.

  A renaming lets a name stand for another name or for a constant. If every name an
  expression reads has a value alike to that of what it stands for, then evaluating
  the expression and evaluating its copy are in step (`Eval.expr_inStep`). With the
  empty renaming the copy is the expression itself.
-/

import ArrayIR.Pass.Renaming
import ArrayIR.Proofs.Lockstep

namespace ArrayIR

/-! ## Reading names -/

variable {e c : Expr} {w : Pairing} {r : Renaming} {L' L : Locals}

namespace Expr

theorem self_mem_subterms (e : Expr) : e ∈ e.subterms := by
  rw [subterms_eq]
  exact List.mem_cons_self

theorem subterms_of_child (h : c ∈ e.children) {d : Expr} (hd : d ∈ c.subterms) : d ∈ e.subterms := by
  rw [subterms_eq]
  exact List.mem_cons_of_mem _ (List.mem_flatMap.mpr ⟨c, h, hd⟩)

/-- The names an expression reads. -/
def reads (e : Expr) : List VarName := e.subterms.filterMap var?

@[simp] theorem reads_var (x : VarName) (t : Ty) : (var x t).reads = [x] := by
  simp [reads, subterms_eq, children, var?]

theorem mem_reads_var (x : VarName) (t : Ty) : x ∈ (var x t).reads := by simp

theorem reads_of_child (h : c ∈ e.children) {x : VarName} (hx : x ∈ c.reads) : x ∈ e.reads := by
  obtain ⟨d, hd, hv⟩ := List.mem_filterMap.mp hx
  exact List.mem_filterMap.mpr ⟨d, subterms_of_child h hd, hv⟩

/-- Whether the expression can stand for a name: it is a name, a constant or a function. -/
def isAtom : Expr → Bool
  | var _ _ | const _ _ | fnRef _ _ => true
  | _ => false

end Expr

namespace Renaming

/-- Names stand for names, constants and functions only. -/
def Atomic (r : Renaming) : Prop := ∀ x e, r.renames.get? x = some e → e.isAtom = true

/-- The value of an expression that can stand for a name. -/
def atomValue (locals : Locals) : Expr → Option Value
  | .var y _ => locals.get? y
  | .const c t => some (Eval.constant c t)
  | .fnRef f _ => some (.closure f [])
  | _ => none

/-- The value of what a name stands for. -/
def value? (r : Renaming) (locals : Locals) (x : VarName) : Option Value :=
  match r.renames.get? x with
  | some e => atomValue locals e
  | none => locals.get? x

/-- The renaming under which every name stands for itself. -/
def none : Renaming := { source := .empty }

theorem none_atomic : none.Atomic := by
  intro x e h
  simp [none] at h

theorem none_value? (locals : Locals) (x : VarName) : none.value? locals x = locals.get? x := by
  simp [none, value?]

theorem subst_var (r : Renaming) (x : VarName) (t : Ty) :
    r.subst (.var x t) = (r.renames.get? x).getD (.var x t) := rfl

theorem subst_eq (r : Renaming) (h : ∀ x t, e ≠ .var x t) : r.subst e = e.withChildren (e.children.map r.subst) := by
  rw [subst, Expr.fold_eq]
  cases e with
  | var x t => exact absurd rfl (h x t)
  | _ => rfl

theorem subst_none (e : Expr) : none.subst e = e := by
  refine Expr.induction (P := fun e => none.subst e = e) (fun e ih => ?_) e
  by_cases hv : ∃ x t, e = .var x t
  · obtain ⟨x, t, rfl⟩ := hv
    rw [subst_var]
    simp [none]
  · rw [subst_eq none fun x t h => hv ⟨x, t, h⟩, List.map_congr_left ih, List.map_id'', Expr.withChildren_children]
    exact fun _ => rfl

end Renaming

/-! ## What may run -/

/-- What the terms of a comparison ask of a node: it refers to functions that may run, buffers are read
and layouts looked at only where they are the same. -/
def Likeness.AdmitsNode (k : Likeness) : Expr → Prop
  | .call fn _ _ => k.contents ∧ k.fns fn
  | .fnRef fn _ | .closure fn _ _ => k.fns fn
  | .attr _ field _ => k.loose → field = .shape ∨ field = .size
  | .index .. | .map .. | .reduce .. | .scan .. | .allPairs .. | .tiledMap .. | .tiledReduce .. => k.contents
  | _ => True

def Likeness.Admits (k : Likeness) (e : Expr) : Prop := ∀ c ∈ e.subterms, k.AdmitsNode c

theorem Likeness.Admits.node {k : Likeness} (h : k.Admits e) : k.AdmitsNode e := h e e.self_mem_subterms

theorem Likeness.Admits.child {k : Likeness} (h : k.Admits e) (hc : c ∈ e.children) : k.Admits c :=
  fun d hd => h d (Expr.subterms_of_child hc hd)

theorem Likeness.strict_admits (e : Expr) : Likeness.strict.Admits e := by
  intro c _
  cases c <;> first | trivial | exact ⟨trivial, trivial⟩ | exact fun h => h.elim

/-! ## Expressions -/

/-- Every name read has a value alike to that of what it stands for. -/
def ReadsAlike (k : Likeness) (w : Pairing) (r : Renaming) (L L' : Locals) (e : Expr) : Prop :=
  ∀ x ∈ e.reads, OptionAlike k w.rel (L.get? x) (r.value? L' x)

theorem ReadsAlike.mono {k : Likeness} {w' : Pairing} (h : ReadsAlike k w r L L' e)
    (hle : w ≤ w') : ReadsAlike k w' r L L' e :=
  fun x hx => (h x hx).mono hle.rel

namespace Eval

variable {k : Likeness} {call call' : Caller}

/-- The statement proved below, of one expression. -/
def InStepCopy (k : Likeness) (call call' : Caller) (e : Expr) : Prop :=
  k.Admits e → ∀ {w : Pairing} {r : Renaming} {L L' : Locals}, r.Atomic → ReadsAlike k w r L L' e →
    InStep k w (Likes k) (expr call L e) (expr call' L' (r.subst e))

theorem exprs_inStep {es : List Expr} (ih : ∀ e ∈ es, InStepCopy k call call' e) (ha : ∀ e ∈ es, k.Admits e)
    (hr : r.Atomic) (h : ∀ e ∈ es, ReadsAlike k w r L L' e) :
    InStep k w (fun w => List.Forall₂ (Likes k w)) (exprs call L es) (exprs call' L' (es.map r.subst)) := by
  induction es generalizing w with
  | nil => exact .pure .nil
  | cons e es ihes =>
    obtain ⟨ihe, ih⟩ := List.forall_mem_cons.mp ih
    obtain ⟨hae, ha⟩ := List.forall_mem_cons.mp ha
    obtain ⟨he, h⟩ := List.forall_mem_cons.mp h
    refine (ihe hae hr he).bind fun w1 v u h1 hv => ?_
    refine (ihes ih ha fun e' he' => (h e' he').mono h1).bind fun w2 vs us h2 hvs => ?_
    exact .pure (.cons (hv.mono h2) hvs)

theorem optional_inStep {o : Option Expr} (ih : ∀ e ∈ o.toList, InStepCopy k call call' e)
    (ha : ∀ e ∈ o.toList, k.Admits e) (hr : r.Atomic) (h : ∀ e ∈ o.toList, ReadsAlike k w r L L' e) :
    InStep k w (fun w => OptionAlike k w.rel) (optional call L o) (optional call' L' (o.map r.subst)) := by
  cases o with
  | none => exact .pure trivial
  | some e =>
    have hm : e ∈ (some e).toList := by simp
    exact (ih e hm (ha e hm) hr (h e hm)).bind fun w1 v u _ hv => .pure hv

theorem constant_likes (c : Const) (t : Ty) (w : Pairing) : Likes k w (constant c t) (constant c t) := by
  cases c <;> rfl

theorem viewPart_likes {v u : View} (h : v.Alike k w.rel u) (field : Field)
    (hf : k.loose → field = .shape ∨ field = .size) : Likes k w (viewPart v field) (viewPart u field) := by
  have exact_ : ∀ {f : Field}, ¬ (f = .shape ∨ f = .size) → f = field →
      v.strides = u.strides ∧ v.offset = u.offset ∧ w.rel v.buffer u.buffer :=
    fun hn e => h.layout.resolve_right fun hl => hn (e ▸ hf hl.1)
  cases field with
  | shape =>
    rw [viewPart, viewPart, h.shape]
    exact ⟨_, rfl, Value.alike_ofInts u.shape id⟩
  | size => simp [viewPart, View.length, h.shape, Likes, Value.Alike]
  | data =>
    obtain ⟨-, -, hb⟩ := exact_ (by simp) rfl
    exact ⟨_, by rw [viewPart, h.elt], hb⟩
  | strides =>
    obtain ⟨hs, -, -⟩ := exact_ (by simp) rfl
    rw [viewPart, viewPart, hs, h.elt]
    exact ⟨_, rfl, Value.alike_ofInts u.strides _⟩
  | offset =>
    obtain ⟨-, ho, -⟩ := exact_ (by simp) rfl
    simp [viewPart, ho, Likes, Value.Alike]

/-- A name and what stands for it. -/
theorem atom_inStep (he : e.isAtom = true) {x : VarName} (t : Ty)
    (h : OptionAlike k w.rel (L.get? x) (Renaming.atomValue L' e)) :
    InStep k w (Likes k) (expr call L (.var x t)) (expr call' L' e) := by
  rw [expr]
  cases e with
  | var y u =>
    rw [Renaming.atomValue] at h
    rw [expr]
    cases hx : L.get? x <;> cases hy : L'.get? y <;> rw [hx, hy] at h
    · exact .fail
    · exact h.elim
    · exact h.elim
    · exact .pure h
  | const c u =>
    cases hx : L.get? x <;> rw [hx] at h
    · exact h.elim
    · exact .pure h
  | fnRef f u =>
    cases hx : L.get? x <;> rw [hx] at h
    · exact h.elim
    · exact .pure h
  | _ => exact absurd he (by simp [Expr.isAtom])

/-- Evaluating an expression and evaluating its copy are in step. -/
theorem expr_inStep (hcall : k.contents → CallersAlike k call call') (e : Expr) : InStepCopy k call call' e := by
  refine Expr.induction (P := InStepCopy k call call') (fun e ih => ?_) e
  intro ha w r L L' hr h
  have hac : ∀ c ∈ e.children, k.Admits c := fun c hc => ha.child hc
  have hc : ∀ c ∈ e.children, ReadsAlike k w r L L' c := fun c hc x hx => h x (Expr.reads_of_child hc hx)
  -- how a child is evaluated at a later pairing
  have child : ∀ {w' : Pairing}, w ≤ w' → ∀ c ∈ e.children,
      InStep k w' (Likes k) (expr call L c) (expr call' L' (r.subst c)) :=
    fun hle c hm => ih c hm (hac c hm) hr ((hc c hm).mono hle)
  have operands : ∀ {w' : Pairing}, w ≤ w' → ∀ es : List Expr, (∀ c ∈ es, c ∈ e.children) →
      InStep k w' (fun w => List.Forall₂ (Likes k w)) (exprs call L es) (exprs call' L' (es.map r.subst)) :=
    fun hle es hm => exprs_inStep (fun c h => ih c (hm c h)) (fun c h => hac c (hm c h)) hr
      fun c h => (hc c (hm c h)).mono hle
  have initial : ∀ {w' : Pairing}, w ≤ w' → ∀ o : Option Expr, (∀ c ∈ o.toList, c ∈ e.children) →
      InStep k w' (fun w => OptionAlike k w.rel) (optional call L o) (optional call' L' (o.map r.subst)) :=
    fun hle o hm => optional_inStep (fun c h => ih c (hm c h)) (fun c h => hac c (hm c h)) hr
      fun c h => (hc c (hm c h)).mono hle
  cases e with
  | var x t =>
    rw [Renaming.subst_var]
    have hx := h x (Expr.mem_reads_var x t)
    unfold Renaming.value? at hx
    cases hg : r.renames.get? x with
    | none =>
      rw [hg] at hx
      exact atom_inStep (e := .var x t) rfl t hx
    | some e' =>
      rw [hg] at hx
      exact atom_inStep (hr x e' hg) t hx
  | const c t => exact .pure (constant_likes c t w)
  | fnRef fn t => exact .pure ⟨_, rfl, ha.node, rfl⟩
  | prim op args t =>
    rw [Renaming.subst_eq r (by simp)]
    refine (operands le_rfl args fun _ => id).bind fun w1 vs us _ hvs => ?_
    exact .lift_bind (Value.alike_asScalars hvs) fun xs => .lift_bind (.refl (resultTy t)) fun s =>
      .lift_bind (.refl (op.eval xs s)) fun y => .pure rfl
  | call fn args t =>
    rw [Renaming.subst_eq r (by simp)]
    exact (operands le_rfl args fun _ => id).bind fun w1 vs us _ hvs => (hcall ha.node.1).call ha.node.2 hvs
  | index x idx t =>
    refine (child le_rfl x (by simp)).bind fun w1 v u h1 hv => ?_
    refine (child h1 idx (by simp)).bind fun w2 i j h2 hi => ?_
    exact index_inStep ha.node (hv.mono h2) hi
  | proj x i t =>
    refine (child le_rfl x (by simp)).bind fun w1 v u h1 hv => ?_
    cases hv.likewise with
    | tuple hxs =>
      rcases getElem?_alike hxs i with ⟨hx, hy⟩ | ⟨a, b, hx, hy, hab⟩ <;> simp only [hx, hy]
      · exact .fail
      · exact .pure hab
    | _ => exact .fail
  | attr x field t =>
    refine (child le_rfl x (by simp)).bind fun w1 v u h1 hv => ?_
    cases hv.likewise with
    | array hvu => exact .pure (viewPart_likes hvu field ha.node)
    | _ => exact .fail
  | cast x t =>
    refine (child le_rfl x (by simp)).bind fun w1 v u h1 hv => ?_
    exact .lift_bind hv.asScalar fun a => .lift_bind (.refl (resultTy t)) fun s => .pure rfl
  | alloc elt count t =>
    refine (child le_rfl count (by simp)).bind fun w1 v u h1 hv => ?_
    refine .lift_bind hv.asInt fun n => .ite Iff.rfl (fun _ => .fail) fun _ => ?_
    exact (alloc_inStep _).bind fun w3 b c _ hb => .pure ⟨c, rfl, hb.1⟩
  | view data shape strides offset size t =>
    refine (child le_rfl data (by simp)).bind fun w1 v u h1 hv => ?_
    cases hv.likewise with
    | buffer elt hb =>
      refine (child h1 shape (by simp)).bind fun w2 v u h2 hv => .lift_bind hv.asInts fun ds => ?_
      have h12 := h1.trans h2
      refine (child h12 strides (by simp)).bind fun w3 v u h3 hv => .lift_bind hv.asInts fun ss => ?_
      refine (child (h12.trans h3) offset (by simp)).bind fun w4 v u h4 hv => .lift_bind hv.asInt fun o => ?_
      exact .pure ⟨_, rfl, rfl, rfl, .inl ⟨rfl, rfl, (h2.trans (h3.trans h4)).rel hb⟩⟩
    | _ => exact .fail
  | tuple items t =>
    rw [Renaming.subst_eq r (by simp)]
    exact (operands le_rfl items fun _ => id).bind fun w1 vs us _ hvs =>
      .pure ⟨us, rfl, Value.alikeList_iff.mpr hvs⟩
  | slice start stop step t =>
    refine (child le_rfl start (by simp)).bind fun w1 v u h1 hv => .lift_bind hv.asBound fun a => ?_
    refine (child h1 stop (by simp)).bind fun w2 v u h2 hv => .lift_bind hv.asBound fun b => ?_
    refine (child (h1.trans h2) step (by simp)).bind fun w3 v u _ hv => .lift_bind hv.asBound fun c => ?_
    exact .pure rfl
  | closure fn captured t =>
    rw [Renaming.subst_eq r (by simp)]
    exact (operands le_rfl captured fun _ => id).bind fun w1 vs us _ hvs =>
      .pure ⟨us, rfl, ha.node, Value.alikeList_iff.mpr hvs⟩
  | capture c i t =>
    refine (child le_rfl c (by simp)).bind fun w1 v u h1 hv => ?_
    cases hv.likewise with
    | closure _ hxs =>
      rcases getElem?_alike hxs i with ⟨hx, hy⟩ | ⟨a, b, hx, hy, hab⟩ <;> simp only [hx, hy]
      · exact .fail
      · exact .pure hab
    | _ => exact .fail
  | map f args axis t =>
    rw [Renaming.subst_eq r (by simp)]
    refine (child le_rfl f (by simp)).bind fun w1 v u h1 hf => ?_
    refine (operands h1 args (by simp +contextual)).bind fun w2 vs us h2 hvs => ?_
    exact (Adverb.lockstep (hcall ha.node)).map (hf.mono h2) hvs axis
  | allPairs f args axis t =>
    rw [Renaming.subst_eq r (by simp)]
    refine (child le_rfl f (by simp)).bind fun w1 v u h1 hf => ?_
    refine (operands h1 args (by simp +contextual)).bind fun w2 vs us h2 hvs => ?_
    rcases hvs with _ | ⟨hx, _ | ⟨hy, _ | ⟨_, _⟩⟩⟩
    · exact .fail
    · exact .fail
    · exact (Adverb.lockstep (hcall ha.node)).allPairs (hf.mono h2) hx hy axis
    · exact .fail
  | tiledMap f args axes tile t =>
    rw [Renaming.subst_eq r (by simp)]
    refine (child le_rfl f (by simp)).bind fun w1 v u h1 hf => ?_
    refine (operands h1 args (by simp +contextual)).bind fun w2 vs us h2 hvs => ?_
    exact invoke_inStep (hcall ha.node) (hf.mono h2) hvs
  | reduce f c init args axis t =>
    have hs : r.subst (.reduce f c init args axis t) =
        .reduce (r.subst f) (r.subst c) (init.map r.subst) (args.map r.subst) axis t := by
      rw [Renaming.subst_eq r (by simp)]
      cases init <;> rfl
    rw [hs]
    refine (child le_rfl f (by simp)).bind fun w1 v u h1 hf => ?_
    refine (child h1 c (by simp)).bind fun w2 d d' h2 hd => ?_
    have h12 := h1.trans h2
    refine (initial h12 init (by simp +contextual)).bind fun w3 i i' h3 hi => ?_
    have h13 := h12.trans h3
    refine (operands h13 args (by simp +contextual)).bind fun w4 vs us h4 hvs => ?_
    have h24 := h3.trans h4
    exact (Adverb.lockstep (hcall ha.node)).reduce (hf.mono (h2.trans h24)) (hd.mono h24)
      (Adverb.lockstep_maybe _ (hi.mono h4.rel)) hvs axis
  | scan f c e init args axis t =>
    have hs : r.subst (.scan f c e init args axis t) =
        .scan (r.subst f) (r.subst c) (r.subst e) (init.map r.subst) (args.map r.subst) axis t := by
      rw [Renaming.subst_eq r (by simp)]
      cases init <;> rfl
    rw [hs]
    refine (child le_rfl f (by simp)).bind fun w1 v u h1 hf => ?_
    refine (child h1 c (by simp)).bind fun w2 d d' h2 hd => ?_
    have h12 := h1.trans h2
    refine (child h12 e (by simp)).bind fun w3 g g' h3 hg => ?_
    have h13 := h12.trans h3
    refine (initial h13 init (by simp +contextual)).bind fun w4 i i' h4 hi => ?_
    have h14 := h13.trans h4
    refine (operands h14 args (by simp +contextual)).bind fun w5 vs us h5 hvs => ?_
    have h35 := h4.trans h5
    have h25 := h3.trans h35
    exact (Adverb.lockstep (hcall ha.node)).scan (hf.mono (h2.trans h25)) (hd.mono h25) (hg.mono h35)
      (Adverb.lockstep_maybe _ (hi.mono h5.rel)) hvs axis
  | tiledReduce f c init args axes tile t =>
    rw [Renaming.subst_eq r (by simp)]
    refine (child le_rfl f (by simp)).bind fun w1 v u h1 hf => ?_
    refine (child h1 c (by simp)).bind fun w2 d d' h2 hd => ?_
    have h12 := h1.trans h2
    refine (child h12 init (by simp)).bind fun w3 i i' h3 hi => ?_
    have h13 := h12.trans h3
    refine (operands h13 args (by simp +contextual)).bind fun w4 vs us h4 hvs => ?_
    have h24 := h3.trans h4
    exact tiledReduce_inStep (hcall ha.node) (hf.mono (h2.trans h24)) (hd.mono h24) (hi.mono h4) hvs axes

end Eval

end ArrayIR
