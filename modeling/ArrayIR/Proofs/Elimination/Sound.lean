/-
  ArrayIR.Proofs.Elimination.Sound — functions without adverbs, and sessions that remember them rightly.

  The stages of the standard lowering get rid of adverbs in steps. A function whose
  adverbs apply literal callables, wherever it leads (`Session.Literal`), becomes one
  that leads to nothing tiled (`Settled`); lowering its adverbs makes it one that calls
  nothing with an adverb (`Clean`), and unrolling keeps it so.

  A stage may take its result from the cache instead. So what a stage promises of its
  result is stated for all later sessions (`Stage.Promise`), and a session is sound if
  every cached result is as its stage promised (`Session.Sound`).
-/

import ArrayIR.Proofs.Discipline.Loops
import ArrayIR.Proofs.Discipline.Tiles
import ArrayIR.Proofs.Discipline.Unrolling
import ArrayIR.Proofs.Reach
import ArrayIR.Stage

namespace ArrayIR

/-! ## Nodes -/

namespace Expr

/-- The functions that a node calls, or refers to as a literal callable. -/
def links : Expr → List FnName
  | call fn _ _ => [fn]
  | fnRef _ t | closure _ _ t => (t.callee?.map (·.1)).toList
  | _ => []

/-- The function that a node calls. -/
def calls : Expr → List FnName
  | call fn _ _ => [fn]
  | _ => []

/-- The callables that an adverb applies are literal ones. -/
def LiteralOperands (e : Expr) : Prop := ∀ o ∈ e.operands, o.isLiteral = true

/-- No adverb that runs on tiles, and any other applies literal callables. -/
def Untiled (e : Expr) : Prop := e.isTiled = false ∧ e.LiteralOperands

/-- No adverb of any kind. -/
def Lowered (e : Expr) : Prop := e.isAdverb = false ∧ e.isTiled = false

variable {e : Expr} {cs : List Expr}

theorem isAdverb_withChildren : (e.withChildren cs).isAdverb = e.isAdverb := by
  unfold withChildren
  split <;> rfl

theorem isTiled_withChildren : (e.withChildren cs).isTiled = e.isTiled := by
  unfold withChildren
  split <;> rfl

theorem isLiteral_withChildren : (e.withChildren cs).isLiteral = e.isLiteral := by
  unfold withChildren
  split <;> rfl

theorem links_withChildren : (e.withChildren cs).links = e.links := by
  unfold withChildren
  split <;> rfl

theorem calls_withChildren : (e.withChildren cs).calls = e.calls := by
  unfold withChildren
  split <;> rfl

/-- The operands of a node over other children are among these. -/
theorem operands_withChildren {R : Expr → Expr → Prop} (h : List.Forall₂ R e.children cs) :
    List.Forall₂ R e.operands (e.withChildren cs).operands := by
  cases e with
  | map f args axis t => obtain _ | ⟨h1, _⟩ := h; exact .cons h1 .nil
  | allPairs f args axis t => obtain _ | ⟨h1, _⟩ := h; exact .cons h1 .nil
  | tiledMap f args axes tile t => obtain _ | ⟨h1, _⟩ := h; exact .cons h1 .nil
  | reduce f c init args axis t =>
    cases init with
    | none => obtain _ | ⟨h1, _ | ⟨h2, _⟩⟩ := h; exact .cons h1 (.cons h2 .nil)
    | some i => obtain _ | ⟨h1, _ | ⟨h2, _ | ⟨_, _⟩⟩⟩ := h; exact .cons h1 (.cons h2 .nil)
  | scan f c g init args axis t =>
    cases init with
    | none => obtain _ | ⟨h1, _ | ⟨h2, _ | ⟨h3, _⟩⟩⟩ := h; exact .cons h1 (.cons h2 (.cons h3 .nil))
    | some i => obtain _ | ⟨h1, _ | ⟨h2, _ | ⟨h3, _ | ⟨_, _⟩⟩⟩⟩ := h; exact .cons h1 (.cons h2 (.cons h3 .nil))
  | tiledReduce f c init args axes tile t =>
    obtain _ | ⟨h1, _ | ⟨h2, _ | ⟨_, _⟩⟩⟩ := h
    exact .cons h1 (.cons h2 .nil)
  | _ =>
    have hnil : ∀ d : Expr, d.isAdverb = false → d.isTiled = false → d.operands = [] := by
      intro d hadverb htiled
      cases d with
      | map | allPairs | reduce | scan => cases hadverb
      | tiledMap | tiledReduce => cases htiled
      | _ => rfl
    rw [hnil _ (isAdverb_withChildren.trans rfl) (isTiled_withChildren.trans rfl)]
    exact .nil

theorem LiteralOperands.withChildren (he : e.LiteralOperands)
    (h : List.Forall₂ (fun c d => c.isLiteral = true → d.isLiteral = true) e.children cs) :
    (e.withChildren cs).LiteralOperands := by
  have hops := operands_withChildren h
  unfold LiteralOperands at he ⊢
  generalize e.operands = os at he hops
  generalize (e.withChildren cs).operands = ds at hops ⊢
  induction hops with
  | nil => exact he
  | cons hod _ ih =>
    obtain ⟨ho, hos⟩ := List.forall_mem_cons.mp he
    exact List.forall_mem_cons.mpr ⟨hod ho, ih hos⟩

/-- Substitution keeps literal callables. -/
theorem isLiteral_subst (r : Renaming) (h : e.isLiteral = true) : (r.subst e).isLiteral = true := by
  have hne : ∀ x t, e ≠ .var x t := by
    rintro x t rfl
    cases h
  rwa [Renaming.subst_eq r hne, isLiteral_withChildren]

theorem LiteralOperands.subst (he : e.LiteralOperands) (r : Renaming) (hne : ∀ x t, e ≠ .var x t) :
    (r.subst e).LiteralOperands := by
  rw [Renaming.subst_eq r hne]
  refine he.withChildren ?_
  rw [List.forall₂_map_right_iff]
  exact List.forall₂_same.mpr fun c _ => isLiteral_subst r

end Expr

/-! ## Functions -/

namespace Session

open ArrayIR.Expr (links calls LiteralOperands)

/-- Wherever the function leads, adverbs apply literal callables. -/
def Literal (s : Session) (f : Func) : Prop := s.Everywhere links LiteralOperands f

/-- Besides, there is nothing tiled. -/
def Ready (s : Session) (f : Func) : Prop := s.Everywhere links Expr.Untiled f

/-- Besides, the function leads nowhere outside the session. -/
def Settled (s : Session) (f : Func) : Prop := s.Secure links Expr.Untiled f

/-- The function and all that it calls are free of adverbs. -/
def Clean (s : Session) (f : Func) : Prop := s.Secure calls Expr.Lowered f

variable {s t : Session} {f g k : Func} {fn : FnName} {e : Expr}

/-- A literal callable of a function leads to the function it refers to. -/
theorem links_of_operand {o : Expr} (hsub : o ∈ f.subterms) (ho : o.isLiteral = true) {ts : List Ty}
    (hfn : o.ty.callee? = some (fn, ts)) (hk : s.find? fn = some k) : s.Links links f k := by
  refine ⟨o, hsub, fn, ?_, hk⟩
  cases o with
  | fnRef | closure => simpa [links, Expr.ty] using ⟨ts, hfn⟩
  | _ => cases ho

/-- The functions applied in code with literal callables are reached. -/
theorem links_of_applies (hsub : e ∈ f.subterms) (he : e.LiteralOperands) (hfn : fn ∈ e.applies)
    (hk : s.find? fn = some k) :
    s.Links links f k := by
  have hoperand : fn ∈ e.operands.flatMap (fun o => (o.ty.callee?.map (·.1)).toList) → s.Links links f k := by
    intro h
    obtain ⟨o, ho, hfn⟩ := List.mem_flatMap.mp h
    obtain ⟨⟨_, ts⟩, hty, rfl⟩ := Option.map_eq_some_iff.mp (Option.mem_toList.mp hfn)
    exact links_of_operand (Stmt.mem_blockSubterms_of_child (Expr.operands_subset ho) hsub) (he o ho) hty hk
  cases e with
  | call fn' args t => exact ⟨_, hsub, fn, hfn, hk⟩
  | _ => exact hoperand hfn

/-- So are those that are looked up for lowering tiled adverbs. -/
theorem links_of_follows (hsub : e ∈ f.subterms) (he : e.LiteralOperands)
    (hfn : fn ∈ e.follows) (hk : s.find? fn = some k) :
    s.Links links f k := by
  cases e with
  | call | fnRef | closure => exact ⟨_, hsub, fn, hfn, hk⟩
  | tiledMap | tiledReduce =>
    exact links_of_applies hsub he (by simpa [Expr.follows, Expr.applies, Expr.operands] using hfn) hk
  | _ => exact absurd hfn List.not_mem_nil

theorem links_subset_refs : e.links ⊆ e.refs := by
  intro fn hfn
  cases e with
  | call | fnRef | closure => simp_all [links, Expr.refs, Expr.ty]
  | _ => exact absurd hfn List.not_mem_nil

/-- A registered function of which the search finds nothing tiled. -/
theorem settled_of_reachesTiled (hf : s.find? f.name = some f) (h : s.reachesTiled f = .ok false) (hlit : s.Literal f) :
    s.Settled f :=
  Secure.imp (secure_of_reachesTiled (fun _ _ => links_subset_refs) hf h)
    fun k hk e he hplain => ⟨hplain, hlit k hk e he⟩

theorem Ready.reached (h : s.Ready f) (hk : s.Links links f k) : s.Ready k := Everywhere.reached h (.single hk)

theorem Literal.reached (h : s.Literal f) (hk : s.Links links f k) : s.Literal k := Everywhere.reached h (.single hk)

end Session

/-! ## Cached results -/

open Session (Grows)

namespace Stage

/-- The name of the stage in the session's cache. -/
def key : Stage → String
  | identity => identityPass.key
  | rename _ => Renaming.pass.key
  | adverbs => "lower_adverbs"
  | tiling sizes => "lower_tiled_adverbs(" ++ Tiling.sizesText sizes ++ ")"
  | unroll factor => (Unrolling.pass factor).key

/-- What the stage promises of `g`, which it made of `f`, in a session and all later ones. -/
def Promise : Stage → Session → Func → Func → Prop
  | identity, _, _, _ | rename _, _, _, _ => True
  | adverbs, s, f, g => ∀ t, Grows s t → t.Ready f → t.Clean g
  | tiling _, s, f, g => ∀ t, Grows s t → t.Literal f → t.Settled g
  | unroll _, s, f, g => ∀ t, Grows s t → t.Clean f → t.Clean g

theorem Promise.mono {stage : Stage} {s t : Session} {f g : Func} (h : stage.Promise s f g) (hst : Grows s t) :
    stage.Promise t f g := by
  cases stage with
  | identity | rename => trivial
  | adverbs | tiling | unroll => exact fun u hu => h u (hst.trans hu)

/-- The seventh character of a key tells apart the stages that promise different things. -/
theorem key_seventh (stage : Stage) : stage.key.toList[6]? = match stage with
    | identity | rename _ => none
    | adverbs => some 'a'
    | tiling _ => some 't'
    | unroll _ => some 'n' := by
  cases stage with
  | identity | adverbs => rfl
  | rename r =>
    show "rename".toList[6]? = none
    rfl
  | tiling sizes =>
    show ("lower_tiled_adverbs(" ++ Tiling.sizesText sizes ++ ")").toList[6]? = _
    rw [String.toList_append, String.toList_append, List.append_assoc]
    rfl
  | unroll factor =>
    show ("loop_unrolling(" ++ toString factor.val ++ ")").toList[6]? = _
    rw [String.toList_append, String.toList_append, List.append_assoc]
    rfl

/-- Stages with the same key promise the same. -/
theorem Promise.of_key {a b : Stage} {s : Session} {f g : Func} (h : a.key = b.key)
    (ha : a.Promise s f g) : b.Promise s f g := by
  have hseventh := congrArg (fun key => key.toList[6]?) h
  simp only [key_seventh] at hseventh
  cases a <;> cases b <;> first | exact ha | trivial | cases hseventh

end Stage

namespace Session

variable {s t : Session} {f g : Func} {stage : Stage}

/-- Every cached result is registered, and is as its stage promises. -/
def Sound (s : Session) : Prop :=
  ∀ key fn g, ((key, fn), g) ∈ s.passCache → s.find? g.name = some g ∧
    ∃ f, s.find? fn = some f ∧ ∀ stage : Stage, stage.key = key → stage.Promise s f g

theorem Sound.mono (h : s.Sound) (hgrows : Grows s t) (hcache : t.passCache = s.passCache) : t.Sound := by
  intro key fn g hg
  rw [hcache] at hg
  obtain ⟨hreg, f, hf, hpromise⟩ := h key fn g hg
  exact ⟨hgrows.find hreg, f, hgrows.find hf, fun stage hkey => (hpromise stage hkey).mono hgrows⟩

theorem Sound.cached (h : s.Sound) (stage : Stage) (hf : s.find? f.name = some f)
    (hg : s.cached stage.key f.name = some g) :
    s.find? g.name = some g ∧ stage.Promise s f g := by
  obtain ⟨⟨⟨key, fn⟩, g'⟩, hentry, rfl⟩ := Option.map_eq_some_iff.mp hg
  have hname : (key, fn) = (stage.key, f.name) := by simpa using List.find?_some hentry
  cases hname
  obtain ⟨hreg, f', hf', hpromise⟩ := h _ _ _ (List.mem_of_find?_eq_some hentry)
  cases hf'.symm.trans hf
  exact ⟨hreg, hpromise stage rfl⟩

theorem Sound.insertCached (h : s.Sound) (hf : s.find? f.name = some f) (hg : s.find? g.name = some g)
    (hpromise : stage.Promise s f g) : (s.insertCached stage.key f.name g).Sound := by
  have hgrows : Grows s (s.insertCached stage.key f.name g) := .of_eq rfl
  intro key fn k hk
  rcases List.mem_cons.mp hk with hk | hk
  · cases hk
    exact ⟨hg, f, hf, fun other hkey => Stage.Promise.of_key hkey.symm (hpromise.mono hgrows)⟩
  · obtain ⟨hreg, f', hf', hrest⟩ := h key fn k hk
    exact ⟨hreg, f', hf', fun other hkey => (hrest other hkey).mono hgrows⟩

/-- The second session has the functions of the first, and is sound if that is. -/
structure Develops (s t : Session) : Prop where
  grows : Grows s t
  sound : s.Sound → t.Sound

theorem Develops.refl (s : Session) : s.Develops s := ⟨.refl s, id⟩

theorem Develops.trans {u : Session} (h : s.Develops t) (h' : t.Develops u) : s.Develops u :=
  ⟨h.grows.trans h'.grows, h'.sound ∘ h.sound⟩

/-- Nothing but functions has come. -/
theorem Grows.develops (h : Grows s t) (hcache : t.passCache = s.passCache) : s.Develops t := ⟨h, (·.mono h hcache)⟩

theorem develops_register (h : s.register g = .ok t) : s.Develops t :=
  (Grows.register h).develops (by rw [eq_of_register h])

end Session

end ArrayIR
