/-
  ArrayIR.Proofs.Building.Inference — shape inference does what the operations of the builder do.

  Shapes are said in expressions of the caller. Inferring the shape of a call's
  result from arguments that may be used, whatever the callee is, does no more than
  the steps of building do, and gives a shape in expressions that may be used
  (`Laying.ofCall_lays`).
-/

import ArrayIR.Proofs.Building.Adverbs
import ArrayIR.Proofs.Success
import ArrayIR.Shape.Infer

namespace ArrayIR

/-- The bound is said in expressions as `P` says. -/
def Bound.Over (P : Expr → Prop) : Bound → Prop
  | .known e => P e
  | .absent | .unknown => True

variable {ss : List Shape}

namespace Shape

mutual

/-- The shape is said in expressions as `P` says. -/
def Over (P : Expr → Prop) : Shape → Prop
  | scalar _ known => ∀ e, known = some e → P e
  | array _ dims => ∀ e ∈ dims, P e
  | tuple items => OverAll P items
  | slice start stop step => start.Over P ∧ stop.Over P ∧ step.Over P
  | func _ captured => OverAll P captured
  | ptr _ | nothing => True

def OverAll (P : Expr → Prop) : List Shape → Prop
  | [] => True
  | s :: ss => s.Over P ∧ OverAll P ss

end

variable {P Q : Expr → Prop}

theorem overAll_iff : OverAll P ss ↔ ∀ s ∈ ss, s.Over P := by
  induction ss with
  | nil => simp [OverAll]
  | cons s ss ih => simp [OverAll, ih]

theorem bound_mono (h : ∀ e, P e → Q e) {b : Bound} (hb : b.Over P) : b.Over Q := by
  cases b with
  | known e => exact h e hb
  | _ => trivial

mutual

theorem Over.mono (h : ∀ e, P e → Q e) : ∀ {s : Shape}, s.Over P → s.Over Q
  | scalar _ _, hs => fun e he => h e (hs e he)
  | array _ _, hs => fun e he => h e (hs e he)
  | tuple _, hs => OverAll.mono h hs
  | slice _ _ _, hs => ⟨bound_mono h hs.1, bound_mono h hs.2.1, bound_mono h hs.2.2⟩
  | func _ _, hs => OverAll.mono h hs
  | ptr _, _ => trivial
  | nothing, _ => trivial

theorem OverAll.mono (h : ∀ e, P e → Q e) : ∀ {ss : List Shape}, OverAll P ss → OverAll Q ss
  | [], _ => trivial
  | _ :: _, hs => ⟨hs.1.mono h, OverAll.mono h hs.2⟩

end

end Shape

namespace Laying

open Shape

variable {L : Laying} {w w' : L.World} {e : Expr} {x idx f : Shape}

/-- A shape said in expressions that may be used. -/
def Shaped (L : Laying) (w : L.World) (s : Shape) : Prop := s.Over (L.Sees w)

variable {s : Shape} {elt : ScalarTy} {t : Ty} {es : List Expr}

theorem Shaped.mono (h : L.Shaped w s) (hw : L.Below w w') : L.Shaped w' s :=
  Over.mono (fun _ he => he.mono hw) h

theorem shaped_scalar (h : L.Sees w e) : L.Shaped w (.scalar elt (some e)) := by
  intro e' he
  cases he
  exact h

theorem shaped_unknown : L.Shaped w (.scalar elt none) := by
  intro e' he
  cases he

theorem shaped_tuple : L.Shaped w (.tuple ss) ↔ ∀ s ∈ ss, L.Shaped w s := overAll_iff

theorem shaped_func {fn : FnName} : L.Shaped w (.func fn ss) ↔ ∀ s ∈ ss, L.Shaped w s := overAll_iff

/-- Results that are shapes, all of them. -/
abbrev AllShaped (L : Laying) (w : L.World) (ss : List Shape) : Prop := ∀ s ∈ ss, L.Shaped w s

theorem AllShaped.mono (h : L.AllShaped w ss) (hw : L.Below w w') : L.AllShaped w' ss :=
  fun s hs => (h s hs).mono hw

/-! ## Values of the caller -/

/-- A part of a value that has the part's type may be used if the value may. -/
theorem sees_proj (h : L.Sees w e) {ts : List Ty} (hty : e.ty = .tuple ts) (i : Nat) (ht : t ∈ ts) :
    L.Sees w (.proj e i t) := by
  refine L.sees_made rfl rfl (fun f hf => ⟨e, List.mem_singleton_self _, ?_⟩) (by simpa using h)
  rw [hty]
  exact Ty.mem_mentionsAll.mpr ⟨t, ht, hf⟩

theorem sees_capture (h : L.Sees w e) {fn : FnName} {ts : List Ty} (hty : e.ty = .closure fn ts) (i : Nat)
    (ht : t ∈ ts) : L.Sees w (.capture e i t) := by
  refine L.sees_made rfl rfl (fun f hf => ⟨e, List.mem_singleton_self _, ?_⟩) (by simpa using h)
  rw [hty]
  exact List.mem_cons_of_mem _ (Ty.mem_mentionsAll.mpr ⟨t, ht, hf⟩)

mutual

theorem ofTyped_lays : ∀ {t : Ty} {w : L.World} {e : Expr}, L.Sees w e → e.ty = t → L.Lays w L.Shaped (ofTyped e t)
  | .scalar _, w, e, h, _ => by
    rw [ofTyped]
    exact .pure fun w' hw => shaped_scalar (h.mono hw)
  | .nothing, _, _, _, _ => by
    rw [ofTyped]
    exact .pure fun _ _ => trivial
  | .ptr _, _, _, _, _ => by
    rw [ofTyped]
    exact .pure fun _ _ => trivial
  | .array _ rank, w, e, h, _ => by
    rw [ofTyped]
    refine (shape_lays h none).bind fun w1 shape _ hs => (extents_lays hs rank).bind fun w2 dims _ hd => ?_
    exact .pure fun w' hw d hm => (hd.2 d hm).mono hw
  | .tuple ts, w, e, h, hty => by
    rw [ofTyped]
    refine (ofTypedList_lays (p := fun i t => .proj e i t) (fun i t ht w' hw => sees_proj (h.mono hw) hty i ht)
      (fun _ _ => rfl) 0).bind fun w1 ss _ hss => ?_
    exact .pure fun w' hw => shaped_tuple.mpr (AllShaped.mono hss hw)
  | .slice, _, _, _, _ => by
    rw [ofTyped]
    exact .pure fun _ _ => ⟨trivial, trivial, trivial⟩
  | .fn _, _, _, _, _ => by
    rw [ofTyped]
    exact .pure fun _ _ => trivial
  | .closure fn ts, w, e, h, hty => by
    rw [ofTyped]
    refine (ofTypedList_lays (p := fun i t => .capture e i t) (fun i t ht w' hw => sees_capture (h.mono hw) hty i ht)
      (fun _ _ => rfl) 0).bind fun w1 ss _ hss => ?_
    exact .pure fun w' hw => shaped_func.mpr (AllShaped.mono hss hw)

theorem ofTypedList_lays : ∀ {ts : List Ty} {w : L.World} {p : Nat → Ty → Expr},
    (∀ i, ∀ t ∈ ts, ∀ w', L.Below w w' → L.Sees w' (p i t)) → (∀ i t, (p i t).ty = t) → ∀ i,
    L.Lays w L.AllShaped (ofTypedList p i ts)
  | [], _, _, _, _, _ => by
    rw [ofTypedList]
    exact .pure fun _ _ _ hs => absurd hs List.not_mem_nil
  | t :: ts, w, p, h, hty, i => by
    rw [ofTypedList]
    refine (ofTyped_lays (h i t List.mem_cons_self w (.refl w)) (hty i t)).bind fun w1 s hw1 hs => ?_
    refine (ofTypedList_lays (fun j u hu w' hw => h j u (List.mem_cons_of_mem _ hu) w' (hw1.trans hw)) hty (i + 1)).bind
      fun w2 ss hw2 hss => .pure fun w3 hw3 => ?_
    exact List.forall_mem_cons.mpr ⟨hs.mono (hw2.trans hw3), AllShaped.mono hss hw3⟩

end

theorem valueBound_over (h : L.Sees w e) : (valueBound e).Over (L.Sees w) := by
  unfold valueBound
  split
  · trivial
  · exact h

theorem each_lays (ih : ∀ e ∈ es, ∀ {w : L.World}, L.Sees w e → L.Lays w L.Shaped (ofValue e)) :
    ∀ {w : L.World}, (∀ e ∈ es, L.Sees w e) → L.Lays w L.AllShaped (ofValues es) := by
  induction es with
  | nil =>
    intro w _
    rw [ofValues]
    exact .pure fun _ _ _ hs => absurd hs List.not_mem_nil
  | cons e es ihes =>
    intro w h
    obtain ⟨ihe, ih⟩ := List.forall_mem_cons.mp ih
    obtain ⟨he, hes⟩ := List.forall_mem_cons.mp h
    rw [ofValues]
    refine (ihe he).bind fun w1 s hw1 hs => (ihes ih fun c hc => (hes c hc).mono hw1).bind fun w2 ss hw2 hss => ?_
    exact .pure fun w3 hw3 => List.forall_mem_cons.mpr ⟨hs.mono (hw2.trans hw3), AllShaped.mono hss hw3⟩

theorem ofValue_lays (e : Expr) : ∀ {w : L.World}, L.Sees w e → L.Lays w L.Shaped (ofValue e) := by
  refine Expr.induction (P := fun e => ∀ {w : L.World}, L.Sees w e → L.Lays w L.Shaped (ofValue e)) (fun e ih => ?_) e
  intro w h
  unfold ofValue
  split
  · refine (each_lays (fun c hc => ih c hc) fun c hc => L.sees_child h hc).bind fun w1 ss _ hss => ?_
    exact .pure fun w' hw => shaped_tuple.mpr (AllShaped.mono hss hw)
  · rename_i start stop step
    have hc : ∀ c ∈ [start, stop, step], L.Sees w c := fun c hc => L.sees_child h hc
    simp only [List.forall_mem_cons] at hc
    refine .pure fun w' hw => ?_
    exact ⟨valueBound_over (hc.1.mono hw), valueBound_over (hc.2.1.mono hw), valueBound_over (hc.2.2.1.mono hw)⟩
  · exact .pure fun _ _ => trivial
  · split
    · refine (each_lays (fun c hc => ih c hc) fun c hc => L.sees_child h hc).bind fun w1 ss _ hss => ?_
      exact .pure fun w' hw => shaped_func.mpr (AllShaped.mono hss hw)
    · exact .fail _
  · exact ofTyped_lays h rfl

theorem ofValues_lays (h : ∀ e ∈ es, L.Sees w e) : L.Lays w L.AllShaped (ofValues es) :=
  each_lays (fun e _ _ he => ofValue_lays e he) h

/-! ## Indexing -/

theorem sliceExtent_lays {dim : Expr} {start stop step : Bound} (hd : L.Sees w dim) (h1 : start.Over (L.Sees w))
    (h2 : stop.Over (L.Sees w)) : L.Lays w L.Sees (sliceExtent dim start stop step) := by
  -- the bounds are worked off one by one, so each is taken with those after it left out
  have hstart : ∀ w1 e, L.Below w w1 → L.Sees w1 e → L.Lays w1 L.Sees (sliceExtent e start .absent .absent) := by
    intro w1 e hw1 he
    have hpure : L.Lays w1 L.Sees (pure e) := .pure fun w' hw => he.mono hw
    cases start with
    | absent => exact hpure
    | known d => exact hpure.bind fun w2 e hw2 he => prim_two_lays he (Sees.mono h1 (hw1.trans hw2)) _ _
    | unknown => exact .fail _
  have hstop : L.Lays w L.Sees (sliceExtent dim start stop .absent) := by
    cases stop with
    | absent => exact hstart w dim (.refl w) hd
    | known e => exact (prim_two_lays h2 hd _ _).bind hstart
    | unknown => exact .fail _
  cases step with
  | absent => exact hstop
  | known e =>
    show L.Lays w L.Sees (if _ then _ else _)
    split
    · exact hstop
    · exact .fail _
  | unknown => exact .fail _

theorem indexExtents_lays {dims : List Expr} {cs : List Shape} (hd : ∀ d ∈ dims, L.Sees w d) (hc : L.AllShaped w cs) :
    L.Lays w (fun w' es => ∀ e ∈ es, L.Sees w' e) (indexExtents dims cs) := by
  induction dims generalizing w cs with
  | nil =>
    rw [indexExtents]
    exact .pure fun _ _ _ he => absurd he List.not_mem_nil
  | cons d ds ih =>
    obtain ⟨hd, hds⟩ := List.forall_mem_cons.mp hd
    cases cs with
    | nil =>
      rw [indexExtents]
      · exact .pure fun w' hw => List.forall_mem_cons.mpr ⟨hd.mono hw, fun e he => (hds e he).mono hw⟩
      · simp
    | cons c cs =>
      obtain ⟨hc, hcs⟩ := List.forall_mem_cons.mp hc
      cases c with
      | scalar elt known =>
        rw [indexExtents]
        exact ih hds hcs
      | slice start stop step =>
        rw [indexExtents]
        refine (sliceExtent_lays hd hc.1 hc.2.1).bind fun w1 n hw1 hn => ?_
        refine (ih (fun e he => (hds e he).mono hw1) (AllShaped.mono hcs hw1)).bind fun w2 ns hw2 hns => ?_
        exact .pure fun w3 hw3 => List.forall_mem_cons.mpr ⟨hn.mono (hw2.trans hw3), fun e he => (hns e he).mono hw3⟩
      | _ => exact .fail _

theorem components_shaped (h : L.Shaped w idx) : L.AllShaped w idx.components := by
  cases idx with
  | tuple items => exact shaped_tuple.mp h
  | _ => exact List.forall_mem_cons.mpr ⟨h, by simp⟩

theorem item_lays {items : List Shape} (h : L.AllShaped w items) (idx : Shape) :
    L.Lays w L.Shaped (item items idx) := by
  unfold item
  split
  · split
    · split
      · rename_i i _ _ s hs
        refine .pure fun w' hw => (h s ?_).mono hw
        split at hs
        · cases hs
        · exact List.mem_of_getElem? hs
      · exact .fail _
    · exact .fail _
  · exact .fail _

theorem index_shape_lays (hx : L.Shaped w x) (hi : L.Shaped w idx) : L.Lays w L.Shaped (Shape.index x idx) := by
  cases x with
  | scalar elt known => exact .pure fun w' hw => hx.mono hw
  | tuple items => exact item_lays (shaped_tuple.mp hx) idx
  | array elt dims =>
    show L.Lays _ _ (if _ then _ else _)
    split
    · exact .fail _
    · refine (indexExtents_lays hx (components_shaped hi)).bind fun w1 es _ hes => ?_
      cases es with
      | nil => exact .pure fun _ _ => shaped_unknown
      | cons e es => exact .pure fun w' hw d hd => (hes d hd).mono hw
  | _ => exact .fail _

/-! ## The domain of shapes -/

/-- The caller's answers do what they may. -/
def Answers (L : Laying) (call : Caller) : Prop :=
  ∀ {w : L.World} fn {args}, L.AllShaped w args → L.Lays w L.Shaped (call fn args)

variable {call : Caller}

theorem extentAlong_lays (hx : L.Shaped w x) (axis : Nat) : L.Lays w L.Shaped (Shape.extentAlong x axis) := by
  unfold Shape.extentAlong
  cases x with
  | array elt dims =>
    cases hn : dims[axis]? with
    | none => simp only [hn]; exact .fail _
    | some n => simp only [hn]; exact .pure fun w' hw => shaped_scalar ((hx n (List.mem_of_getElem? hn)).mono hw)
  | _ => exact .fail _

theorem invoke_lays (hcall : L.Answers call) (hf : L.Shaped w f) {args : List Shape} (ha : L.AllShaped w args) :
    L.Lays w L.Shaped (Shape.invoke call f args) := by
  cases f with
  | func fn captured =>
    refine hcall fn fun s hs => ?_
    rcases List.mem_append.mp hs with hs | hs
    · exact shaped_func.mp hf s hs
    · exact ha s hs
  | _ => exact .fail _

theorem knownExtent_sees (hs : L.Shaped w s) (h : s.knownExtent = .ok e) : L.Sees w e := by
  unfold Shape.knownExtent at h
  split at h
  · cases h
    exact hs e rfl
  · cases h

theorem knownExtents_sees (hs : L.AllShaped w ss) (h : ss.mapM Shape.knownExtent = .ok es) : ∀ e ∈ es, L.Sees w e := by
  have hall := except_mapM_ok h
  clear h
  induction hall with
  | nil => simp
  | cons hse _ ih =>
    obtain ⟨hs, hss⟩ := List.forall_mem_cons.mp hs
    exact List.forall_mem_cons.mpr ⟨knownExtent_sees hs hse, ih hss⟩

theorem allocLike_shape_lays {first : Shape} {outer : List Shape} (hf : L.Shaped w first) (ho : L.AllShaped w outer) :
    L.Lays w L.Shaped (Shape.allocLike first outer) := by
  refine Lays.bind (P := fun w' es => ∀ e ∈ es, L.Sees w' e)
    (.lift fun es hes w' hw e he => (knownExtents_sees ho hes e he).mono hw) fun w1 dims hw1 hdims => ?_
  cases first with
  | scalar elt known => exact .pure fun w' hw e he => (hdims e he).mono hw
  | array elt inner =>
    refine .pure fun w' hw e he => ?_
    rcases List.mem_append.mp he with he | he
    · exact (hdims e he).mono hw
    · exact (hf e he).mono (hw1.trans hw)
  | _ => exact .fail _

/-- Shapes, and callables among them. -/
theorem shapes (hcall : L.Answers call) : L.Lawful (Shape.domain call) L.Shaped L.Shaped where
  mono hw h := h.mono hw
  fn_mono hw h := h.mono hw
  int i := shaped_scalar (sees_int i .i64)
  wholeAxis := ⟨trivial, trivial, sees_int _ _⟩
  tuple h := shaped_tuple.mpr h
  index hx hi := index_shape_lays hx hi
  extent axis hx := extentAlong_lays hx axis
  checkExtents axis _ _ := checkExtents_lays axis _
  invoke hf ha := invoke_lays hcall hf ha
  loop _ _ _ := .pure fun _ _ => trivial
  accumulate _ _ hinit hbody := hbody _ _ _ (.refl _) hinit shaped_unknown
  alloc hf ho _ := allocLike_shape_lays hf ho
  store _ _ _ := .pure fun _ _ => trivial

/-! ## Symbolic evaluation -/

/-- All variables have shapes said in expressions that may be used. -/
def EnvShaped (L : Laying) (w : L.World) (env : Env) : Prop := ∀ x s, env.get? x = some s → L.Shaped w s

variable {env : Env}

theorem EnvShaped.mono (h : L.EnvShaped w env) (hw : L.Below w w') : L.EnvShaped w' env :=
  fun x s hs => (h x s hs).mono hw

theorem EnvShaped.insert (h : L.EnvShaped w env) (hs : L.Shaped w s) (x : VarName) :
    L.EnvShaped w (env.insert x s) := by
  intro y u hu
  rw [NameMap.get?_insert] at hu
  split at hu
  · cases hu
    exact hs
  · exact h y u hu

theorem part_shaped {dims : List Expr} (h : ∀ d ∈ dims, L.Sees w d) (field : Field) :
    L.Shaped w (part elt dims field) := by
  cases field with
  | data => trivial
  | shape =>
    refine shaped_tuple.mpr fun s hs => ?_
    obtain ⟨d, hd, rfl⟩ := List.mem_map.mp hs
    exact shaped_scalar (h d hd)
  | strides =>
    refine shaped_tuple.mpr fun s hs => ?_
    obtain ⟨d, hd, rfl⟩ := List.mem_map.mp hs
    exact shaped_unknown
  | offset => exact shaped_unknown
  | size => exact shaped_unknown

theorem mentions_of_scalar? (h : t.scalar? = some elt) : t.mentions = [] := by
  cases t with
  | scalar _ => rfl
  | _ => cases h

theorem resultTy_lays (t : Ty) :
    L.Lays w (fun _ elt => t.scalar? = some elt) (liftM (resultTy t) : Build ScalarTy) := by
  refine .lift fun elt h w' _ => ?_
  unfold resultTy at h
  split at h
  · cases h
    assumption
  · cases h

theorem known_sees (hs : L.AllShaped w ss) (h : ss.mapM Shape.known? = some es) : ∀ e ∈ es, L.Sees w e := by
  induction ss generalizing es with
  | nil =>
    cases h
    simp
  | cons s ss ih =>
    obtain ⟨hs, hss⟩ := List.forall_mem_cons.mp hs
    rw [List.mapM_cons] at h
    obtain ⟨e, he, h⟩ := Option.bind_eq_some_iff.mp h
    obtain ⟨es', hes, h⟩ := Option.bind_eq_some_iff.mp h
    cases h
    refine List.forall_mem_cons.mpr ⟨?_, ih hss hes⟩
    cases s with
    | scalar elt known => exact hs e he
    | _ => cases he

theorem boundOf_lays {code : Build Shape} (h : L.Lays w L.Shaped code) :
    L.Lays w (fun w' b => b.Over (L.Sees w')) (boundOf e code) := by
  unfold boundOf
  split
  · exact .pure fun _ _ => trivial
  · refine h.bind fun w1 s _ hs => ?_
    split
    · exact .pure fun w' hw => (hs _ rfl).mono hw
    · exact .pure fun _ _ => trivial
    · exact .pure fun _ _ => trivial

/-- Evaluating the expression symbolically does what it may. -/
def Evaluates (L : Laying) (call : Caller) (e : Expr) : Prop :=
  ∀ {w : L.World} {env : Env}, L.EnvShaped w env → L.Lays w L.Shaped (expr call env e)

theorem exprs_lays (ih : ∀ e ∈ es, L.Evaluates call e) (henv : L.EnvShaped w env) :
    L.Lays w L.AllShaped (exprs call env es) := by
  induction es generalizing w with
  | nil =>
    rw [exprs]
    exact .pure fun _ _ _ hs => absurd hs List.not_mem_nil
  | cons e es ihes =>
    obtain ⟨ihe, ih⟩ := List.forall_mem_cons.mp ih
    rw [exprs]
    refine (ihe henv).bind fun w1 s hw1 hs => (ihes ih (henv.mono hw1)).bind fun w2 ss hw2 hss => ?_
    exact .pure fun w3 hw3 => List.forall_mem_cons.mpr ⟨hs.mono (hw2.trans hw3), AllShaped.mono hss hw3⟩

theorem optional_lays {o : Option Expr} (ih : ∀ e ∈ o.toList, L.Evaluates call e) (henv : L.EnvShaped w env) :
    L.Lays w (fun w' r => ∀ s, r = some s → L.Shaped w' s) (Shape.optional call env o) := by
  cases o with
  | none =>
    rw [Shape.optional]
    exact .pure fun _ _ s hs => by cases hs
  | some e =>
    rw [Shape.optional]
    refine (ih e (by simp) henv).bind fun w1 s _ hs => .pure fun w' hw u hu => ?_
    cases hu
    exact hs.mono hw

theorem expr_lays (hcall : L.Answers call) (e : Expr) : L.Evaluates call e := by
  refine Expr.induction (P := L.Evaluates call) (fun e ih => ?_) e
  intro w env henv
  have hd := shapes hcall
  cases e with
  | var x t =>
    rw [expr]
    cases hx : env.get? x with
    | none => exact .fail _
    | some s => exact .pure fun w' hw => (henv x s hx).mono hw
  | const c t =>
    have known : L.Lays w L.Shaped (do return .scalar (← resultTy t) (some (.const c t)) : Build Shape) :=
      (resultTy_lays t).bind fun w1 elt _ helt => .pure fun _ _ => shaped_scalar (sees_const (mentions_of_scalar? helt))
    cases c with
    | nothing =>
      rw [expr]
      exact .pure fun _ _ => trivial
    | _ =>
      rw [expr]
      · exact known
      · nofun
  | prim op args t =>
    rw [expr]
    refine (resultTy_lays t).bind fun w1 elt hw1 _ => (exprs_lays ih (henv.mono hw1)).bind fun w2 ss _ hss => ?_
    split
    · rename_i known hknown
      refine (prim_lays (known_sees hss hknown) op "dim").bind fun w3 d _ hd => .pure fun w' hw => ?_
      exact shaped_scalar (hd.mono hw)
    · exact .pure fun _ _ => shaped_unknown
  | call fn args t =>
    rw [expr]
    exact (exprs_lays ih henv).bind fun w1 ss _ hss => hcall fn hss
  | index x idx t =>
    rw [expr]
    refine (ih x (by simp) henv).bind fun w1 s hw1 hs => ?_
    refine (ih idx (by simp) (henv.mono hw1)).bind fun w2 i hw2 hi => ?_
    exact index_shape_lays (hs.mono hw2) hi
  | proj x i t =>
    rw [expr]
    refine (ih x (by simp) henv).bind fun w1 s _ hs => ?_
    split
    · split
      · rename_i u hu
        exact .pure fun w' hw => (shaped_tuple.mp hs u (List.mem_of_getElem? hu)).mono hw
      · exact .fail _
    · exact .fail _
  | attr x field t =>
    rw [expr]
    refine (ih x (by simp) henv).bind fun w1 s _ hs => ?_
    split
    · exact .pure fun w' hw => (part_shaped hs field).mono hw
    · exact .fail _
  | cast x t =>
    rw [expr]
    refine (resultTy_lays t).bind fun w1 elt hw1 _ => (ih x (by simp) (henv.mono hw1)).bind fun w2 s _ hs => ?_
    split
    · refine (cast_lays (hs _ rfl) elt).bind fun w3 d _ hd => .pure fun w' hw => ?_
      exact shaped_scalar (hd.mono hw)
    · exact .pure fun _ _ => shaped_unknown
    · exact .fail _
  | alloc elt n t =>
    rw [expr]
    exact .pure fun _ _ => trivial
  | view data shape strides offset size t =>
    rw [expr]
    split
    · exact .fail _
    · refine (ih shape (by simp) henv).bind fun w1 s _ hs => ?_
      split
      · refine Lays.bind (P := fun w' es => ∀ e ∈ es, L.Sees w' e)
          (.lift fun es hes w' hw e he => (knownExtents_sees (shaped_tuple.mp hs) hes e he).mono hw)
            fun w2 es _ hes => ?_
        exact .pure fun w' hw d hd => (hes d hd).mono hw
      · exact .fail _
  | tuple items t =>
    rw [expr]
    refine (exprs_lays ih henv).bind fun w1 ss _ hss => .pure fun w' hw => ?_
    exact shaped_tuple.mpr (AllShaped.mono hss hw)
  | slice start stop step t =>
    rw [expr]
    refine (boundOf_lays (ih start (by simp) henv)).bind fun w1 b1 hw1 h1 => ?_
    refine (boundOf_lays (ih stop (by simp) (henv.mono hw1))).bind fun w2 b2 hw2 h2 => ?_
    refine (boundOf_lays (ih step (by simp) (henv.mono (hw1.trans hw2)))).bind fun w3 b3 hw3 h3 => ?_
    refine .pure fun w4 hw4 => ⟨?_, ?_, ?_⟩
    · exact bound_mono (fun _ he => he.mono ((hw2.trans hw3).trans hw4)) h1
    · exact bound_mono (fun _ he => he.mono (hw3.trans hw4)) h2
    · exact bound_mono (fun _ he => he.mono hw4) h3
  | fnRef fn t =>
    rw [expr]
    exact .pure fun _ _ => trivial
  | closure fn captured t =>
    rw [expr]
    refine (exprs_lays ih henv).bind fun w1 ss _ hss => .pure fun w' hw => ?_
    exact shaped_func.mpr (AllShaped.mono hss hw)
  | capture c i t =>
    rw [expr]
    refine (ih c (by simp) henv).bind fun w1 s _ hs => ?_
    split
    · split
      · rename_i u hu
        exact .pure fun w' hw => (shaped_func.mp hs u (List.mem_of_getElem? hu)).mono hw
      · exact .fail _
    · exact .fail _
  | map f args axis t =>
    rw [expr]
    refine (ih f (by simp) henv).bind fun w1 f hw1 hf => ?_
    refine (exprs_lays (fun e he => ih e (by simp [he])) (henv.mono hw1)).bind fun w2 ss hw2 hss => ?_
    exact hd.map (hf.mono hw2) hss axis
  | reduce f c init args axis t =>
    rw [expr]
    refine (ih f (by simp) henv).bind fun w1 f hw1 hf => ?_
    refine (ih c (by simp) (henv.mono hw1)).bind fun w2 c hw2 hc => ?_
    have hw02 := hw1.trans hw2
    refine (optional_lays (fun e he => ih e (by simp [Option.mem_toList.mp he])) (henv.mono hw02)).bind
      fun w3 i hw3 hi => ?_
    refine (exprs_lays (fun e he => ih e (by simp [he])) (henv.mono (hw02.trans hw3))).bind fun w4 ss hw4 hss => ?_
    exact hd.reduce (hf.mono (hw2.trans (hw3.trans hw4))) (hc.mono (hw3.trans hw4))
      (fun s hs => (hi s hs).mono hw4) hss axis
  | scan f c e init args axis t =>
    rw [expr]
    refine (ih f (by simp) henv).bind fun w1 f hw1 hf => ?_
    refine (ih c (by simp) (henv.mono hw1)).bind fun w2 c hw2 hc => ?_
    have hw02 := hw1.trans hw2
    refine (ih e (by simp) (henv.mono hw02)).bind fun w3 e hw3 he => ?_
    refine (optional_lays (fun e he => ih e (by simp [Option.mem_toList.mp he]))
      (henv.mono (hw02.trans hw3))).bind fun w4 i hw4 hi => ?_
    have hw34 := hw3.trans hw4
    refine (exprs_lays (fun e he => ih e (by simp [he])) (henv.mono (hw02.trans hw34))).bind
      fun w5 ss hw5 hss => ?_
    exact hd.scan (hf.mono (hw2.trans (hw34.trans hw5))) (hc.mono (hw34.trans hw5)) (he.mono (hw4.trans hw5))
      (fun s hs => (hi s hs).mono hw5) hss axis
  | allPairs f args axis t =>
    rw [expr]
    refine (ih f (by simp) henv).bind fun w1 f hw1 hf => ?_
    refine (exprs_lays (fun e he => ih e (by simp [he])) (henv.mono hw1)).bind fun w2 ss hw2 hss => ?_
    split
    · simp only [List.forall_mem_cons] at hss
      exact hd.allPairs (hf.mono hw2) hss.1 hss.2.1 axis
    · exact .fail _
  | tiledMap f args axes tile t =>
    rw [expr]
    refine (ih f (by simp) henv).bind fun w1 f hw1 hf => ?_
    refine (exprs_lays (fun e he => ih e (by simp [he])) (henv.mono hw1)).bind fun w2 ss hw2 hss => ?_
    exact invoke_lays hcall (hf.mono hw2) hss
  | tiledReduce f c init args axes tile t =>
    rw [expr]
    refine (ih f (by simp) henv).bind fun w1 f hw1 hf => ?_
    refine (exprs_lays (fun e he => ih e (by simp [he])) (henv.mono hw1)).bind fun w2 ss hw2 hss => ?_
    exact invoke_lays hcall (hf.mono hw2) hss

theorem mergeEntries_lays (hcall : L.Answers call) {es : List (VarName × Expr × Expr)} (henv : L.EnvShaped w env) :
    L.Lays w L.EnvShaped (mergeEntries call es env) := by
  induction es generalizing w env with
  | nil =>
    rw [mergeEntries]
    exact .pure fun w' hw => henv.mono hw
  | cons p es ih =>
    rw [mergeEntries]
    exact (expr_lays hcall _ henv).bind fun w1 s hw1 hs => ih ((henv.mono hw1).insert hs _)

/-- What a statement leads to is said in expressions that may be used. -/
def FlowShaped (L : Laying) (w : L.World) : Flow → Prop
  | .next env => L.EnvShaped w env
  | .returned s => L.Shaped w s

mutual

theorem stmt_shape_lays (hcall : L.Answers call) : ∀ {stmt : Stmt} {w : L.World} {env : Env}, L.EnvShaped w env →
    L.Lays w L.FlowShaped (Shape.stmt call stmt env)
  | .assign target value, w, env, henv => by
    unfold Shape.stmt
    split
    · refine (expr_lays hcall _ henv).bind fun w1 s hw1 hs => .pure fun w' hw => ?_
      exact ((henv.mono hw1).insert hs _).mono hw
    · exact .pure fun w' hw => henv.mono hw
  | .ret value, w, env, henv => by
    rw [Shape.stmt]
    exact (expr_lays hcall _ henv).bind fun w1 s _ hs => .pure fun w' hw => hs.mono hw
  | .ite c yes no merge, w, env, henv => by
    rw [Shape.stmt]
    refine (block_shape_lays hcall henv).bind fun w1 flow _ hflow => ?_
    cases flow with
    | returned s => exact .pure fun w' hw => Shaped.mono hflow hw
    | next env =>
      refine (block_shape_lays hcall hflow).bind fun w2 flow _ hflow => ?_
      cases flow with
      | returned s => exact .pure fun w' hw => Shaped.mono hflow hw
      | next env =>
        exact (mergeEntries_lays hcall hflow).bind fun w3 env _ henv => .pure fun w' hw => henv.mono hw
  | .whileLoop _ _ merge, w, env, henv => by
    rw [Shape.stmt]
    exact (mergeEntries_lays hcall henv).bind fun w1 env _ henv => .pure fun w' hw => henv.mono hw
  | .forLoop _ _ merge, w, env, henv => by
    rw [Shape.stmt]
    exact (mergeEntries_lays hcall henv).bind fun w1 env _ henv => .pure fun w' hw => henv.mono hw

theorem block_shape_lays (hcall : L.Answers call) : ∀ {ss : List Stmt} {w : L.World} {env : Env}, L.EnvShaped w env →
    L.Lays w L.FlowShaped (block call ss env)
  | [], w, env, henv => by
    rw [block]
    exact .pure fun w' hw => henv.mono hw
  | stmt :: ss, w, env, henv => by
    rw [block]
    refine (stmt_shape_lays hcall henv).bind fun w1 flow _ hflow => ?_
    cases flow with
    | returned s => exact .pure fun w' hw => Shaped.mono hflow hw
    | next env => exact block_shape_lays hcall hflow

end

theorem params_shaped {xs : List VarName} (h : L.AllShaped w ss) : L.EnvShaped w (NameMap.ofList (xs.zip ss)) := by
  have hall : ∀ {es : List (VarName × Shape)} {m : Env}, (∀ p ∈ es, L.Shaped w p.2) → L.EnvShaped w m →
      L.EnvShaped w (m.insertAll es) := by
    intro es
    induction es with
    | nil => exact fun _ hm => hm
    | cons p es ih =>
      intro m hes hm
      rw [NameMap.insertAll_cons]
      exact ih (fun q hq => hes q (List.mem_cons_of_mem _ hq)) (hm.insert (hes p List.mem_cons_self) _)
  refine hall (fun p hp => h p.2 (List.of_mem_zip hp).2) fun x s hs => ?_
  rw [NameMap.get?_empty] at hs
  cases hs

theorem callAt_lays (depth : Nat) : L.Answers (callAt depth) := by
  induction depth with
  | zero =>
    intro w fn args ha
    rw [callAt]
    refine (L.lookupFn_lays fn).bind fun w1 f _ _ => ?_
    show L.Lays _ _ (if _ then _ else _)
    split <;> exact .fail _
  | succ depth ih =>
    intro w fn args ha
    rw [callAt]
    refine (L.lookupFn_lays fn).bind fun w1 f hw1 _ => ?_
    show L.Lays _ _ (if _ then _ else _)
    split
    · exact .fail _
    · refine (block_shape_lays ih (params_shaped (AllShaped.mono ha hw1))).bind fun w2 flow _ hflow => ?_
      cases flow with
      | returned s => exact .pure fun w' hw => Shaped.mono hflow hw
      | next env => exact .fail _

/-- The shape of a call's result is said in expressions that may be used. -/
theorem ofCall_lays {callable : Expr} {args : List Expr} (hc : L.Sees w callable) (ha : ∀ a ∈ args, L.Sees w a) :
    L.Lays w L.Shaped (Shape.ofCall callable args) := by
  refine (ofValue_lays callable hc).bind fun w1 f hw1 hf => ?_
  refine (ofValues_lays fun a h => (ha a h).mono hw1).bind fun w2 ss hw2 hss => ?_
  exact invoke_lays (callAt_lays _) (hf.mono hw2) hss

theorem allocResult_lays {callable : Expr} {inner outer : List Expr} (hc : L.Sees w callable)
    (hi : ∀ a ∈ inner, L.Sees w a) (ho : ∀ a ∈ outer, L.Sees w a) (name : String) :
    L.Lays w L.Room (Build.allocResult callable inner outer name) := by
  refine (ofCall_lays hc hi).bind fun w1 s hw1 hs => ?_
  refine Lays.bind (P := fun w' p => ∀ e ∈ p.2, L.Sees w' e) (.lift fun p hp w' hw e he => ?_) fun w2 p hw2 hp => ?_
  · cases s with
    | scalar elt known =>
      cases hp
      cases he
    | array elt dims =>
      cases hp
      exact (hs e he).mono hw
    | _ => cases hp
  · have hdims : ∀ e ∈ outer ++ p.2, L.Sees w2 e :=
      List.forall_mem_append.mpr ⟨fun e he => (ho e he).mono (hw1.trans hw2), hp⟩
    exact (allocShaped_lays p.1 hdims name).mono fun _ _ _ h => h.1

end Laying

end ArrayIR
