/-
  ArrayIR.Proofs.Discipline.Loops — lowering adverbs keeps to a discipline.

  The code of an adverb calls the lowered versions of its callables, and a call is
  redirected to that of the function called. So if the lowered functions may be
  called, and the nodes that are neither adverbs nor calls may stay, lowering keeps
  to the discipline (`Adverbs.walk`).
-/

import ArrayIR.Pass.Adverbs
import ArrayIR.Proofs.Discipline.Builder
import ArrayIR.Proofs.Discipline.Replacing

namespace ArrayIR

variable {e o : Expr} {fn : FnName}

namespace Expr

/-- The functions that a node applies: the one it calls, or those its operands refer to. -/
def applies : Expr → List FnName
  | call fn _ _ => [fn]
  | e => e.operands.flatMap fun o => (o.ty.callee?.map (·.1)).toList

theorem mem_applies (ho : o ∈ e.operands) {ts : List Ty} (h : o.ty.callee? = some (fn, ts)) : fn ∈ e.applies := by
  have hmem : fn ∈ e.operands.flatMap fun o => (o.ty.callee?.map (·.1)).toList :=
    List.mem_flatMap.mpr ⟨o, ho, by simp [h]⟩
  cases e with
  | call _ _ _ => exact absurd ho List.not_mem_nil
  | _ => exact hmem

end Expr

namespace Adverbs

open Discipline Discipline.Frame

variable {D : Discipline} {lower : LowerFn} {N : Expr → Prop} {s₀ : Session} {all : Prop} {V : Set VarName} {w : World}

/-- What is needed for lowering code with nodes as in `N`: types do not matter, nodes that are neither adverbs
nor calls may stay, and lowering a function applied gives one that may be called. -/
structure Suits (D : Discipline) (lower : LowerFn) (N : Expr → Prop) (s₀ : Session) : Prop where
  typed : ∀ s t, D.Typed s t
  stays : ∀ {s e cs}, D.le s₀ s → N e → e.isAdverb = false → (∀ fn args t, e ≠ .call fn args t) →
    D.form s (e.withChildren cs)
  lowered : ∀ {s e fn f}, D.le s₀ s → N e → fn ∈ e.applies → s.find? fn = some f →
    D.Developed s (fun s' g => s'.find? g.name = some g ∧ ∀ args t, D.form s' (.call g.name args t)) (lower f s)

/-- Any replacement will do. -/
abbrev Replaced (D : Discipline) (s₀ : Session) (all : Prop) (V : Set VarName) (e : Expr)
    (x : PassM Unit Expr) : Prop :=
  (same D s₀ all).Replaces (fun _ _ => True) V e x

theorem lower_lays (S : Suits D lower N s₀) {f : Func} (hs : D.le s₀ w.session) (he : N e) (hfn : fn ∈ e.applies)
    (hf : w.session.find? fn = some f) :
    D.Lays w (fun w' g => w'.session.find? g.name = some g ∧ ∀ args t, D.form w'.session (.call g.name args t))
      (Build.compile (lower f)) :=
  compile_lays fun _ hle => S.lowered (D.trans hs hle) he hfn (D.find hle hf)

variable {g : Func} {u : Unit}

/-- A function that may be called makes a callable that can be called. -/
theorem invocable_ref (S : Suits D lower N s₀) (hg : w.session.find? g.name = some g)
    (hcall : ∀ args t, D.form w.session (.call g.name args t)) : D.Invocable w (.fnRefTo g.name) where
  captured vs hvs v hv := by
    cases hvs
    exact absurd hv List.not_mem_nil
  call s hs fn ts f hfn hf args := by
    cases hfn
    cases (D.find hs hg).symm.trans hf
    exact ⟨S.typed _ _, D.form_mono hs (hcall args _)⟩

theorem invocable_closure (S : Suits D lower N s₀) {cs : List Expr} (hg : w.session.find? g.name = some g)
    (hcall : ∀ args t, D.form w.session (.call g.name args t)) (hcs : ∀ c ∈ cs, D.Sees w c) :
    D.Invocable w (.closureOver g.name cs) where
  captured vs hvs v hv := by
    simp only [Expr.closureOver, Build.captures, Expr.ty, List.length_map, ↓reduceIte, Except.ok.injEq] at hvs
    exact hcs v (hvs ▸ hv)
  call s hs fn ts f hfn hf args := by
    cases hfn
    cases (D.find hs hg).symm.trans hf
    exact ⟨S.typed _ _, D.form_mono hs (hcall args _)⟩

/-- A callable of an adverb, lowered, can be called. -/
theorem callable_lays (S : Suits D lower N s₀) (he : N e) (ho : o ∈ e.operands)
    (hself : Replaced D s₀ all V o (o.replace (step lower)).self)
    (hkids : ∀ c ∈ o.children, Replaced D s₀ all V c (c.replace (step lower)).self) :
    (same D s₀ all).Steps V w u D.Invocable (callable lower o (o.replace (step lower))) := by
  unfold callable
  refine (Steps.lift (callee_lays o)).bind fun w1 f _ hw1 hfound => .here fun hst1 => ?_
  obtain ⟨fn, ts, hfn, hf⟩ := hfound
  refine (Steps.lift (lower_lays S hst1.1 he (Expr.mem_applies ho hfn) hf)).bind fun w2 g _ hw2 hlow => ?_
  obtain ⟨hg, hcall⟩ := hlow
  have hall : (same D s₀ all).ReplacesAll (fun _ _ => True) V o.children (o.replace (step lower)).kids := by
    rw [Expr.kids_replace]
    exact replacesAll_selves hkids
  refine (captures_lays (fun _ => hself) hall fun _ _ _ _ t _ => S.typed _ t).bind fun w3 cs _ hw3 hcs => ?_
  have hg3 := D.find hw3.1 hg
  have hcall3 : ∀ args t, D.form w3.session (.call g.name args t) := fun args t => D.form_mono hw3.1 (hcall args t)
  cases o.ty with
  | fn name => exact .pure fun w' hw => (invocable_ref S hg3 hcall3).mono hw
  | _ => exact .pure fun w' hw => (invocable_closure S hg3 hcall3 hcs).mono hw

theorem initAndArgs_lays {init : Option Expr} {args : List Expr}
    (h : ∀ c ∈ init.toList ++ args, Replaced D s₀ all V c (c.replace (step lower)).self) :
    (same D s₀ all).Steps V w u (fun w' p => (∀ i, p.1 = some i → D.Sees w' i) ∧ ∀ c ∈ p.2, D.Sees w' c)
      (initAndArgs init ((init.toList ++ args).map (Expr.replace (step lower)))) := by
  cases init with
  | none =>
    refine (replacesAll_selves h w u).map fun w1 cs _ hcs => ⟨fun i hi => ?_, hcs.1⟩
    cases hi
  | some i =>
    obtain ⟨hi, hargs⟩ := List.forall_mem_cons.mp h
    refine (hi w u).bind fun w1 c u1 _ hc =>
      (replacesAll_selves hargs w1 u1).map fun w2 cs hw2 hcs => ⟨fun d hd => ?_, hcs.1⟩
    cases hd
    exact hc.1.mono hw2

theorem lowered_lays {code : Build Expr} (h : D.Lays w D.Sees code) (t : Ty) : D.Lays w D.Sees (step.lowered code t) :=
  h.bind fun _ _ _ he => coerce_lays he t _

/-- A node that is neither an adverb nor a call is put together again. -/
theorem rebuilt_lays (S : Suits D lower N s₀) (he : e.Fits N V) (hadv : e.isAdverb = false)
    (hcall : ∀ fn args t, e ≠ .call fn args t)
    (h : ∀ c ∈ e.children, Replaced D s₀ all V c (c.replace (step lower)).self) :
    Replaced D s₀ all V e (e.rebuild (e.children.map (Expr.replace (step lower)))) := by
  by_cases hv : ∃ x t, e = .var x t
  · obtain ⟨x, t, rfl⟩ := hv
    exact fun w u hst => Lays.done fun s hs =>
      ⟨⟨sees_var (S.typed _ _) (hst.2.1 (Expr.fits_var.mp he).2), trivial⟩, same_moves hs⟩
  · refine rebuild_lays (fun x t hx => hv ⟨x, t, hx⟩) (replacesAll_selves h) fun hst _ => ⟨⟨S.typed _ _, ?_⟩, trivial⟩
    exact S.stays hst.1 he.node hadv hcall

/-- What replaces a node can be emitted. -/
theorem step_lays (S : Suits D lower N s₀) (he : e.Fits N V)
    (ih : ∀ c ∈ e.children, Replaced D s₀ all V c (c.replace (step lower)).self ∧
      ∀ d ∈ c.children, Replaced D s₀ all V d (d.replace (step lower)).self) :
    Replaced D s₀ all V e (step lower e (e.children.map (Expr.replace (step lower)))) := by
  have hN : N e := he.node
  have hself : ∀ c ∈ e.children, Replaced D s₀ all V c (c.replace (step lower)).self := fun c hc => (ih c hc).1
  have hop : ∀ o ∈ e.operands, ∀ {w : World} {u : Unit},
      (same D s₀ all).Steps V w u D.Invocable (callable lower o (o.replace (step lower))) := fun o ho =>
    callable_lays S hN ho (ih o (Expr.operands_subset ho)).1 (ih o (Expr.operands_subset ho)).2
  have hlift : ∀ {w : World} {u : Unit} {code : Build Expr} {t : Ty}, D.Lays w D.Sees code →
      (same D s₀ all).Steps V w u (fun w' c => D.Sees w' c ∧ True) (liftM (step.lowered code t)) := fun hcode =>
    .lift ((lowered_lays hcode _).mono fun _ _ _ h => ⟨h, trivial⟩)
  cases e with
  | map f args axis t =>
    refine fun w u => (hop f (by simp [Expr.operands])).bind fun w1 f' u1 hw1 hf => ?_
    refine (replacesAll_selves (fun c hc => hself c (List.mem_cons_of_mem _ hc)) w1 u1).bind fun w2 cs _ hw2 hcs => ?_
    exact hlift ((expressions D).map (hf.mono hw2) hcs.1 axis)
  | reduce f c init args axis t =>
    refine fun w u => (hop f (by simp [Expr.operands])).bind fun w1 f' _ hw1 hf => ?_
    refine (hop c (by simp [Expr.operands])).bind fun w2 c' _ hw2 hc => ?_
    refine (initAndArgs_lays fun d hd => hself d (List.mem_cons_of_mem _ (List.mem_cons_of_mem _ hd))).bind
      fun w3 p _ hw3 hp => ?_
    exact hlift ((expressions D).reduce (hf.mono (hw2.trans hw3)) (hc.mono hw3) hp.1 hp.2 axis)
  | scan f c g init args axis t =>
    refine fun w u => (hop f (by simp [Expr.operands])).bind fun w1 f' _ hw1 hf => ?_
    refine (hop c (by simp [Expr.operands])).bind fun w2 c' _ hw2 hc => ?_
    refine (hop g (by simp [Expr.operands])).bind fun w3 g' _ hw3 hg => ?_
    have hrest : ∀ d ∈ init.toList ++ args, Replaced D s₀ all V d (d.replace (step lower)).self := fun d hd =>
      hself d (List.mem_cons_of_mem _ (List.mem_cons_of_mem _ (List.mem_cons_of_mem _ hd)))
    refine (initAndArgs_lays hrest).bind fun w4 p _ hw4 hp => ?_
    exact hlift ((expressions D).scan (hf.mono (hw2.trans (hw3.trans hw4))) (hc.mono (hw3.trans hw4))
      (hg.mono hw4) hp.1 hp.2 axis)
  | allPairs f args axis t =>
    rcases args with _ | ⟨x, _ | ⟨y, _ | ⟨z, zs⟩⟩⟩
    case cons.cons.nil =>
      refine fun w u => (hop f (by simp [Expr.operands])).bind fun w1 f' u1 hw1 hf => ?_
      refine (hself x (by simp) w1 u1).bind fun w2 x' u2 hw2 hx =>
        (hself y (by simp) w2 u2).bind fun w3 y' _ hw3 hy => ?_
      exact hlift ((expressions D).allPairs (hf.mono (hw2.trans hw3)) (hx.1.mono hw3) hy.1 axis)
    all_goals exact fun w u _ => .fail _
  | call fn args t =>
    refine fun w u => (Steps.lift (lookupFn_lays fn)).bind fun w1 f u1 _ hf => .here fun hst1 => ?_
    refine (Steps.lift (lower_lays S hst1.1 hN (by simp [Expr.applies]) hf)).bind fun w2 g u2 _ hg => ?_
    refine (replacesAll_selves hself w2 u2).map fun w3 cs hw3 hcs => ⟨?_, trivial⟩
    exact Expr.fits_of_children (fun x t h => by cases h) ⟨S.typed _ _, D.form_mono hw3.1 (hg.2 cs t)⟩ hcs.1
  | _ => exact rebuilt_lays S he rfl (fun _ _ _ h => by cases h) hself

/-- An expression without adverbs is replaced without emitting anything. -/
theorem replace_silent (h : ∀ d ∈ e.subterms, d.isAdverb = false) (u : Unit) :
    Silent ((e.replace (step lower)).self u) := by
  induction e using Expr.induction generalizing u with
  | step e ih =>
    have hkids : ∀ u, Silent ((e.children.map (Expr.replace (step lower))).mapM (·.self) u) :=
      Silent.mapM fun r hr u => by
        obtain ⟨c, hc, rfl⟩ := List.mem_map.mp hr
        exact ih c hc (fun d hd => h d (Expr.subterms_of_child hc hd)) u
    have hself := h e e.self_mem_subterms
    rw [Expr.self_replace]
    cases e with
    | map | reduce | scan | allPairs => cases hself
    | call fn args t =>
      refine .passBind (fun u => .passLift (.lookupFn fn) u) (fun f => ?_) u
      exact .passBind (fun u => .passLift (.compile _) u) fun g => .passBind hkids fun _ _ => .pure _
    | _ => exact .passBind hkids (fun _ _ => .pure _) u

/-- Code with nodes as in `N`; unless all names are in scope, without adverbs in the conditions of loops. -/
def rule (N : Expr → Prop) (all : Prop) : Rule where
  node := N
  cond e := all ∨ ∀ d ∈ e.subterms, d.isAdverb = false

theorem expr_lays (S : Suits D lower N s₀) (hst : (same D s₀ all).stands V w u) (he : e.Fits N V) :
    D.Lays w (fun w' r => D.Sees w' r.1 ∧ (same D s₀ all).Moves [] w.session u w'.session r.2)
      ((pass lower).expr e u) :=
  (replace_lays (step_lays S) he w u).mono (fun _ _ _ => And.left) hst

/-- The condition of a `while` loop. -/
theorem cond_lays (S : Suits D lower N s₀) {U : Set VarName} {ys : List VarName} {u' : Unit}
    (hw : (same D s₀ all).stands U w u) (hst : (same D s₀ all).stands V ⟨w.session, extend w.names ys⟩ u')
    (he : e.Fits N V) (hc : all ∨ ∀ d ∈ e.subterms, d.isAdverb = false) :
    D.Lays w (fun w' r => D.Sees ⟨w'.session, extend w'.names ys⟩ r.1 ∧
      (same D s₀ all).Moves [] w.session u' w'.session r.2) ((pass lower).expr e u') := by
  rcases hc with ha | hc
  · have hst' : (same D s₀ all).stands V w u' := by
      have hnames := hw.2.2 ha
      rw [hnames, extend_univ, ← hnames] at hst
      exact hst
    exact (expr_lays S hst' he).mono fun w' r _ ⟨hr, hm⟩ => ⟨hr.mono (.of (D.refl _) subset_extend), hm⟩
  · refine ((expr_lays S hst he).silent (replace_silent hc u')).mono fun w' r _ ⟨hn, hr, hm⟩ => ⟨?_, hm⟩
    rw [hn]
    exact hr

/-- Lowering adverbs keeps to a discipline that suits it. -/
def walk (S : Suits D lower N s₀) (all : Prop) : D.Walk (pass lower) (rule N all) where
  toFrame := same D s₀ all
  expr hst he := expr_lays S hst he
  cond hw hst he hc := cond_lays S hw hst he hc
  binding _ _ := same_binding _
  assign hst h := same_assign (x := (pass lower).expr)
    (fun hst he => (expr_lays S hst he).mono fun _ _ _ => And.left) (fun _ _ => rfl)
    (fun _ _ => node_made rfl (S.typed _ _)) hst h
  loop _ _ h := Lays.done fun _ hs => ⟨Stmt.Fits.mono (rule_implies hs) h subset_rfl, fun _ => id, same_moves hs⟩

end Adverbs

end ArrayIR
