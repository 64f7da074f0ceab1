/-
  ArrayIR.Proofs.Elimination.Stages — every stage keeps its promise.

  For each stage there is a discipline under which what it emits has the nodes it
  promises. The promise holds in all later sessions in which the source is as the
  stage needs it, so the discipline speaks of those (`cleaning`). Lowering tiled
  adverbs is different: what it publishes along the way must not be in the way of the
  source, for a name that the source mentions and nobody has taken may be taken by
  then. So there the discipline also says that all that is new is settled
  (`settling`).
-/

import ArrayIR.Proofs.Elimination.Sound

namespace ArrayIR

open Session (Grows Develops Gains find?_name register_ok)

namespace Discipline

/-- What has developed under the one discipline has under the other, if sessions may develop more freely. -/
theorem Developed.imp {α : Type} {D D' : Discipline} {s : Session} {P : Session → α → Prop}
    {r : EStateM.Result Fault Session α} (h : D.Developed s P r) (hle : ∀ s', D.le s s' → D'.le s s') :
    D'.Developed s P r := by
  cases r with
  | error e s' => exact hle s' h
  | ok a s' => exact ⟨hle s' h.1, h.2⟩

end Discipline

/-! ## Lowered code -/

/-- No adverb, and no call but of a clean function. -/
def CleanNode (s : Session) (e : Expr) : Prop := e.Lowered ∧ ∀ fn ∈ e.calls, ∃ g, s.find? fn = some g ∧ s.Clean g

/-- Code with such nodes in all later sessions as `C` says. -/
def cleaning (C : Session → Prop) : Discipline where
  le := Develops
  refl := .refl
  trans := .trans
  named s n := Grows.develops (.of_eq rfl) rfl
  find h := h.grows.find
  known _ _ := True
  known_mono _ := id
  form s e := ∀ t, Grows s t → C t → CleanNode t e
  form_mono h _ he t ht := he t (h.grows.trans ht)
  form_made {s e} he t _ _ := by
    cases e with
    | call | fnRef | closure | map | reduce | scan | allPairs | tiledMap | tiledReduce => cases he
    | _ => exact ⟨⟨rfl, rfl⟩, fun fn hfn => absurd hfn List.not_mem_nil⟩
  form_subst r hne he t ht hC := by
    rw [Renaming.subst_eq r hne]
    obtain ⟨⟨hadverb, htiled⟩, hcalls⟩ := he t ht hC
    refine ⟨⟨Expr.isAdverb_withChildren.trans hadverb, Expr.isTiled_withChildren.trans htiled⟩, ?_⟩
    rwa [Expr.calls_withChildren]

section Cleaning

variable {C : Session → Prop} {s : Session} {f : Func}

theorem cleaning_typed (C : Session → Prop) (s : Session) (t : Ty) : (cleaning C).Typed s t := fun _ _ => trivial

/-- Code without adverbs that calls clean functions makes a clean function. -/
theorem clean_of_fits {g : Func} (h : Stmt.blockFits ((cleaning C).rule s) g.body Set.univ) {t : Session}
    (ht : Grows s t) (hC : C t) :
    t.Clean g :=
  Session.secure_of_nodes fun e he => (Stmt.blockFits.nodes h e he).2 t ht hC

/-- A pass that keeps to the discipline, and adds nothing to the function, makes a clean function. -/
theorem cleaning_apply {σ : Type} {p : Pass σ} {R : Rule} (K : (cleaning C).Walk p R) (st : σ)
    (henter : p.enter f = pure ()) (hleave : ∀ st g, p.leave st g = .ok g) (hloose : K.loose)
    (hst : K.stands Set.univ ⟨s, Set.univ⟩ st) (hf : Stmt.blockFits R f.body Set.univ) :
    (cleaning C).Developed s (fun s' r => s'.find? r.1.name = some r.1 ∧ ∀ t, Grows s' t → C t → t.Clean r.1)
    (p.apply st f s) := by
  have henters : K.Enters Set.univ (fun _ => Set.univ) s (p.enter f st ⟨s, f.env, []⟩) := by
    rw [henter]
    exact ⟨.refl s, rfl, hst⟩
  refine K.apply_develops henters hf (.inl hloose) fun _ _ code _ b _ _ _ hfits =>
    Discipline.Walk.publish_develops fun g s' hg _ hreg => ?_
  rw [hleave] at hg
  cases hg
  have hgrows : Grows b.session s' := (Grows.fresh _ _).trans (.register hreg)
  exact ⟨Session.develops_register hreg, (register_ok hreg).1, fun t ht hC => clean_of_fits hfits (hgrows.trans ht) hC⟩

/-- The result of a stage, cached or not, is registered and as promised. -/
theorem applyCached_develops {σ : Type} {p : Pass σ} {stage : Stage} {st : σ} (hkey : p.key = stage.key) (hs : s.Sound)
    (hf : s.find? f.name = some f)
    (happly : (cleaning C).Developed s (fun s' r => s'.find? r.1.name = some r.1 ∧
      stage.Promise s' f r.1) (p.apply st f s)) :
    (cleaning C).Developed s (fun s' g => s'.find? g.name = some g ∧ stage.Promise s' f g) (p.applyCached st f s) := by
  cases hcached : s.cached p.key f.name with
  | some g =>
    rw [Pass.applyCached_known hcached]
    exact .pure (hs.cached stage hf (hkey ▸ hcached))
  | none =>
    rw [Pass.applyCached_new hcached, hkey]
    refine happly.bind fun s1 r hle hr => ?_
    obtain ⟨hg, hpromise⟩ := hr
    refine ⟨⟨.of_eq rfl, fun hs1 => hs1.insertCached (hle.grows.find hf) hg hpromise⟩, hg, ?_⟩
    exact hpromise.mono (.of_eq rfl)

end Cleaning

/-! ## Lowering adverbs -/

section Adverbs

variable {C : Session → Prop} {lower : Adverbs.LowerFn}

/-- How a function applied has to be lowered. -/
def LowersAdverbs (lower : Adverbs.LowerFn) : Prop :=
  ∀ {s : Session} {f : Func} {C : Session → Prop}, s.Sound → s.find? f.name = some f →
    (cleaning C).Developed s (fun s' g => s'.find? g.name = some g ∧ Stage.adverbs.Promise s' f g) (lower f s)

theorem adverbs_suits (hlower : LowersAdverbs lower) (f : Func) {s0 : Session} (hs : s0.Sound) :
    Adverbs.Suits (cleaning (·.Ready f)) lower (· ∈ f.subterms) s0 where
  typed := cleaning_typed _
  stays {_ e cs} _ he hadverb hcall t _ hready := by
    refine ⟨⟨Expr.isAdverb_withChildren.trans hadverb, Expr.isTiled_withChildren.trans (hready f .refl e he).1⟩, ?_⟩
    rw [Expr.calls_withChildren]
    cases e with
    | call fn args t => exact absurd rfl (hcall fn args t)
    | _ => exact fun fn hfn => absurd hfn List.not_mem_nil
  lowered {s e fn k} hle he hfn hk := by
    refine (hlower (hle.sound hs) (find?_name hk)).mono fun s' g hle' ⟨hg, hpromise⟩ =>
      ⟨hg, fun args t u hu hready => ?_⟩
    have hlinks := Session.links_of_applies he (hready f .refl e he).2 hfn (hu.find (hle'.grows.find hk))
    refine ⟨⟨rfl, rfl⟩, fun fn' hfn' => ?_⟩
    rw [List.mem_singleton.mp hfn']
    exact ⟨g, hu.find hg, hpromise u hu (hready.reached hlinks)⟩

theorem adverbs_apply (hlower : LowersAdverbs lower) (f : Func) {s : Session} (hs : s.Sound) :
    (cleaning C).Developed s (fun s' r => s'.find? r.1.name = some r.1 ∧ Stage.adverbs.Promise s' f r.1)
      ((Adverbs.pass lower).apply () f s) := by
  have hrule : Rule.Implies { node := (· ∈ f.subterms) } (Adverbs.rule (· ∈ f.subterms) True) :=
    ⟨fun _ => id, fun _ _ => .inl trivial, fun _ => id, fun _ _ => id⟩
  have hfits : Stmt.blockFits (Adverbs.rule (· ∈ f.subterms) True) f.body Set.univ :=
    Stmt.blockFits.mono hrule (Stmt.blockFits_univ fun _ he => he) subset_rfl
  exact (cleaning_apply (Adverbs.walk (adverbs_suits hlower f hs) True) () rfl (fun _ _ => rfl) trivial
    ⟨.refl s, subset_rfl, fun _ => rfl⟩ hfits).imp fun _ => id

theorem lowerCached_lowers (depth : Nat) : LowersAdverbs (Adverbs.lowerCached depth) := by
  induction depth with
  | zero => exact fun {s _ _} _ _ => .refl s
  | succ depth ih => exact fun {s f C} hs hf => applyCached_develops rfl hs hf (adverbs_apply ih f hs)

end Adverbs

/-! ## Stages that rename, unroll or do nothing -/

section Others

variable {C : Session → Prop} {s : Session}

theorem unroll_apply (factor : UnrollFactor) (f : Func) :
    (cleaning C).Developed s (fun s' r => s'.find? r.1.name = some r.1 ∧ (Stage.unroll factor).Promise s' f r.1)
      ((Unrolling.pass factor).apply () f s) := by
  have hnode : ∀ e ∈ f.subterms, (cleaning (·.Clean f)).Node s e := fun e he =>
    ⟨cleaning_typed _ _ _, fun t _ hclean => hclean.node he⟩
  exact (cleaning_apply (Unrolling.walk (cleaning_typed _) s factor) () rfl (fun _ _ => rfl) trivial
    ⟨.refl s, subset_rfl, fun _ => rfl⟩ (Stmt.blockFits_univ hnode)).imp fun _ => id

/-- Where nothing is asked for, all expressions will do. -/
theorem fits_of_false (e : Expr) : e.Fits ((cleaning fun _ => False).Node s) Set.univ :=
  Expr.fits_univ fun _ _ => ⟨cleaning_typed _ _ _, fun _ _ h => h.elim⟩

theorem identityPass_expr (e : Expr) : identityPass.expr e = pure e := Unrolling.replace_rebuild e

/-- The pass that changes nothing keeps to every discipline. -/
def identityWalk (D : Discipline) (s₀ : Session) : D.Walk identityPass { node := D.Node s₀ } :=
  Discipline.Walk.keeping identityPass_expr (fun _ => rfl) (fun _ _ => rfl) fun (_ : True → _) _ h =>
    Discipline.Lays.done fun _ hs => ⟨Stmt.Fits.mono (Discipline.rule_implies hs) h subset_rfl, fun _ => id⟩

theorem identity_apply (f : Func) :
    (cleaning C).Developed s (fun s' r => s'.find? r.1.name = some r.1 ∧ Stage.identity.Promise s' f r.1)
      (identityPass.apply () f s) := by
  have happly := cleaning_apply (f := f) (identityWalk (cleaning fun _ => False) s) () rfl (fun _ _ => rfl) trivial
    ⟨.refl s, subset_rfl, fun _ => rfl⟩ (Stmt.blockFits_univ fun e _ => (fits_of_false e).node)
  exact (happly.imp fun _ => id).mono fun _ _ _ ⟨hg, _⟩ => ⟨hg, trivial⟩

theorem rename_apply (r : Renaming) (f : Func) :
    (cleaning C).Developed s (fun s' p => s'.find? p.1.name = some p.1 ∧ (Stage.rename r).Promise s' f p.1)
      (Renaming.pass.apply r f s) := by
  let D := cleaning fun _ => False
  have hrule : Rule.Implies { node := D.Node s } (D.source s r.source) :=
    ⟨fun _ => id, fun _ => id, fun _ _ _ _ => cleaning_typed _ _ _, fun _ _ _ _ _ _ _ _ => cleaning_typed _ _ _⟩
  have hstands : D.Stands s r.source True Set.univ ⟨s, Set.univ⟩ r :=
    ⟨.refl s, rfl, fun _ => rfl, fun _ _ e _ => fits_of_false e, fun _ _ _ => trivial⟩
  have happly := cleaning_apply (f := f) (D.copying s r.source True) r rfl (fun _ _ => rfl) trivial hstands
    (Stmt.blockFits.mono hrule (Stmt.blockFits_univ fun e _ => (fits_of_false e).node) subset_rfl)
  exact (happly.imp fun _ => id).mono fun _ _ _ ⟨hg, _⟩ => ⟨hg, trivial⟩

end Others

/-! ## Lowering tiled adverbs -/

/-- Nothing tiled, and no link but to settled functions. -/
def SettledNode (s : Session) (e : Expr) : Prop := e.Untiled ∧ ∀ fn ∈ e.links, ∃ g, s.find? fn = some g ∧ s.Settled g

theorem SettledNode.mono {s t : Session} {e : Expr} (h : SettledNode s e) (hst : Grows s t) : SettledNode t e :=
  ⟨h.1, fun fn hfn => (h.2 fn hfn).imp fun _ ⟨hg, hs⟩ => ⟨hst.find hg, hs.mono hst⟩⟩

/-- What is new in the second session is settled. -/
def NewSettled (s t : Session) : Prop := Gains Session.Settled s t

section Settling

variable {s t u : Session} {f g k : Func}

/-- What is settled is not in the way of literal callables. -/
theorem NewSettled.literal (h : NewSettled s t) (hst : Grows s t) (hf : s.Literal f) : t.Literal f :=
  Session.Everywhere.grow hst hf fun fn g hnone hg j hj e he => ((h fn g hnone hg).everywhere j hj e he).2

theorem NewSettled.trans (h : NewSettled s t) (h' : NewSettled t u) (htu : Grows t u) : NewSettled s u :=
  Gains.trans (·.mono htu) h h' htu

/-- Code with such nodes, made for the function `f`. -/
def settling (f : Func) : Discipline where
  le s t := s.Develops t ∧ (s.Literal f → NewSettled s t)
  refl s := ⟨.refl s, fun _ => Gains.of_eq rfl⟩
  trans h h' := ⟨h.1.trans h'.1, fun hf => (h.2 hf).trans (h'.2 ((h.2 hf).literal h.1.grows hf)) h'.1.grows⟩
  named s n := ⟨Grows.develops (.of_eq rfl) rfl, fun _ => Gains.of_eq rfl⟩
  find h := h.1.grows.find
  known _ _ := True
  known_mono _ := id
  form s e := s.Literal f → SettledNode s e
  form_mono h _ he hf := (he (hf.anti h.1.grows)).mono h.1.grows
  form_made {s e} he _ := by
    cases e with
    | call | fnRef | closure | map | reduce | scan | allPairs | tiledMap | tiledReduce => cases he
    | _ => exact ⟨⟨rfl, fun o ho => absurd ho List.not_mem_nil⟩, fun fn hfn => absurd hfn List.not_mem_nil⟩
  form_subst r hne he hf := by
    obtain ⟨⟨htiled, hops⟩, hlinks⟩ := he hf
    refine ⟨⟨?_, hops.subst r hne⟩, ?_⟩
    · rw [Renaming.subst_eq r hne]
      exact Expr.isTiled_withChildren.trans htiled
    · rw [Renaming.subst_eq r hne, Expr.links_withChildren]
      exact hlinks

theorem settling_typed (f : Func) (s : Session) (t : Ty) : (settling f).Typed s t := fun _ _ => trivial

/-- A node that refers to nothing but a settled function. -/
theorem settling_node {e : Expr} (he : e.Untiled) (hlinks : e.links = [k.name]) (hk : s.find? k.name = some k)
    (hsettled : s.Literal f → s.Settled k) : (settling f).Node s e := by
  refine ⟨settling_typed _ _ _, fun hf => ⟨he, fun fn hfn => ?_⟩⟩
  rw [hlinks] at hfn
  rw [List.mem_singleton.mp hfn]
  exact ⟨k, hk, hsettled hf⟩

/-- Settled functions may be used in lowered code. -/
theorem settling_usable (hk : s.find? k.name = some k) (hsettled : s.Literal f → s.Settled k) :
    Tiling.Usable (settling f) s True k where
  found := hk
  ref := settling_node ⟨rfl, fun o ho => absurd ho List.not_mem_nil⟩ rfl hk hsettled
  closure s' hs' cs _ := settling_node ⟨rfl, fun o ho => absurd ho List.not_mem_nil⟩ rfl (hs'.1.grows.find hk) fun hf =>
    (hsettled (hf.anti hs'.1.grows)).mono hs'.1.grows
  call s' hs' args t _ := settling_node ⟨rfl, fun o ho => absurd ho List.not_mem_nil⟩ rfl
    (hs'.1.grows.find hk) fun hf =>
    (hsettled (hf.anti hs'.1.grows)).mono hs'.1.grows
  result := settling_typed _ _ _
  inlinable := by
    have hrule : Rule.Implies { node := (settling f).Node s } ((settling f).source s k.env) :=
      ⟨fun _ => id, fun _ => id, fun _ _ _ _ => settling_typed _ _ _, fun _ _ _ _ _ _ _ _ => settling_typed _ _ _⟩
    have hnodes : ∀ e ∈ k.subterms, (settling f).Node s e :=
      fun e he => ⟨settling_typed _ _ _, fun hf => (hsettled hf).node he⟩
    exact .inl ⟨trivial, Stmt.blockFits.mono hrule (Stmt.blockFits_univ hnodes) subset_rfl⟩

/-- How a function applied has to be lowered. -/
def LowersTiles (lower : Tiling.LowerFn) : Prop :=
  ∀ {s : Session} {f : Func} {st : Tiling.State}, Tiling.Begins s f st →
    (settling f).Developed s (fun s' r => s'.find? r.1.name = some r.1 ∧ (s.Literal f → s'.Settled r.1)) (lower st f s)

variable {lower : Tiling.LowerFn}

theorem tiles_suits (hlower : LowersTiles lower) (f : Func) (s0 : Session) :
    Tiling.Suits (settling f) lower { node := (· ∈ f.subterms) } s0 True (fun _ _ => True) where
  plain_mono _ _ := trivial
  var _ _ _ := settling_typed _ _ _
  cond _ := .inl trivial
  join _ _ := trivial
  assign _ _ _ _ _ _ _ := ⟨settling_typed _ _ _, trivial⟩
  captured _ _ _ _ _ _ := settling_typed _ _ _
  stays {s e cs} _ he hput hkept := by
    refine ⟨settling_typed _ _ _, fun hf => ⟨⟨Expr.isTiled_withChildren.trans ?_, ?_⟩, ?_⟩⟩
    · cases e with
      | tiledMap | tiledReduce => cases hput
      | _ => rfl
    · exact (hf f .refl e he).withChildren (hkept.imp fun _ _ h => h.literal)
    · rw [Expr.links_withChildren]
      cases e with
      | call | fnRef | closure => cases hput
      | _ => exact fun fn hfn => absurd hfn List.not_mem_nil
  result _ _ := settling_typed _ _ _
  reached h := Session.reachesTiled_mono h.1.grows
  counted h := Session.numDynamicTiles_mono h.1.grows
  kept {s e fn k} _ he hfn hk hplain := settling_usable (find?_name hk) fun hf =>
    Session.settled_of_reachesTiled (find?_name hk) hplain
      (hf.reached (Session.links_of_follows he (hf f .refl e he) hfn hk))
  lowered {s e fn k st} _ he hfn hk _ hbegin := by
    have hlit : s.Literal f → s.Literal k := fun hf => hf.reached (Session.links_of_follows he (hf f .refl e he) hfn hk)
    have hle : ∀ s', (settling k).le s s' → (settling f).le s s' := fun s' h => ⟨h.1, fun hf => h.2 (hlit hf)⟩
    refine ((hlower hbegin).imp hle).mono fun s' r hs' ⟨hg, hsettled⟩ => ?_
    exact settling_usable hg fun hf => hsettled (hlit (hf.anti hs'.1.grows))

/-- A function is completed with its body and its result. -/
theorem leave_keeps {st : Tiling.State} (h : Tiling.leave st f = .ok g) : g.body = f.body ∧ g.result = f.result := by
  unfold Tiling.leave at h
  split at h
  · obtain ⟨p, -, h⟩ := except_bind_ok h
    cases p <;> cases h <;> exact ⟨rfl, rfl⟩
  · cases h
    exact ⟨rfl, rfl⟩

theorem tiles_apply (hlower : LowersTiles lower) (sizes : List Int64) (f : Func) {st : Tiling.State}
    (hbegin : Tiling.Begins s f st) :
    (settling f).Developed s (fun s' r => s'.find? r.1.name = some r.1 ∧ (s.Literal f → s'.Settled r.1))
      ((Tiling.pass lower sizes).apply st f s) := by
  let K := Tiling.walk (tiles_suits hlower f s) sizes
  have henters : K.Enters Set.univ (fun _ => Set.univ) s (Tiling.enter f st ⟨s, f.env, []⟩) :=
    Tiling.enters _ sizes ((settling f).refl s) hbegin (fun _ => subset_rfl) (fun _ _ => rfl)
      (fun _ _ _ _ => trivial) fun _ _ => trivial
  refine K.apply_develops henters (Stmt.blockFits_univ fun _ he => he)
    (.inl trivial) fun _ _ code st2 b _ _ hle hfits => ?_
  refine Discipline.Walk.publish_develops fun g s' hg _ hreg => ?_
  obtain ⟨hbody, -⟩ := leave_keeps hg
  have hgrows : Grows b.session s' := (Grows.fresh _ _).trans (.register hreg)
  have hsettled : b.session.Literal f → s'.Settled g := by
    intro hf
    refine Session.secure_of_nodes fun e he => SettledNode.mono ((Stmt.blockFits.nodes hfits e ?_).2 hf) hgrows
    rwa [Func.subterms, hbody] at he
  refine ⟨⟨Session.develops_register hreg, fun hf => ?_⟩, (register_ok hreg).1, fun hf => ?_⟩
  · exact Gains.register hreg (hsettled (hf.anti (.fresh _ _)))
  · exact hsettled ((hle.2 hf).literal hle.1.grows hf)

theorem lowerAt_lowers (depth : Nat) : LowersTiles (Tiling.lowerAt depth) := by
  induction depth with
  | zero => exact fun {s f _} _ => (settling f).refl s
  | succ depth ih => exact fun {_ f st} hbegin => tiles_apply ih st.sizes f hbegin

end Settling

/-! ## All stages -/

namespace Stage

variable {C : Session → Prop} {s : Session} {f : Func}

theorem tiling_apply (sizes : List Int64) :
    (cleaning C).Developed s (fun s' r => s'.find? r.1.name = some r.1 ∧ (tiling sizes).Promise s' f r.1)
      ((Tiling.passIn s sizes).apply { sizes := sizes } f s) := by
  have hbegin : Tiling.Begins s f { sizes := sizes } := ⟨rfl, rfl, fun p hp => by cases hp⟩
  refine ((tiles_apply (lowerAt_lowers s.numFunctions) sizes f hbegin).imp fun s' h => h.1).mono
    fun s' r hs' ⟨hg, hsettled⟩ => ⟨hg, ?_⟩
  exact fun t ht hf => (hsettled (hf.anti (hs'.grows.trans ht))).mono ht

/-- A stage keeps its promise. -/
theorem apply_develops (stage : Stage) (f : Func) (hs : s.Sound) :
    (cleaning C).Developed s (fun s' g => s'.find? g.name = some g ∧ stage.Promise s' f g) (stage.apply f s) := by
  cases stage with
  | identity => exact (identity_apply f).bind fun _ _ _ h => .pure h
  | rename r => exact (rename_apply r f).bind fun _ _ _ h => .pure h
  | adverbs => exact (adverbs_apply (lowerCached_lowers s.numFunctions) f hs).bind fun _ _ _ h => .pure h
  | tiling sizes => exact (tiling_apply sizes).bind fun _ _ _ h => .pure h
  | unroll factor => exact (unroll_apply factor f).bind fun _ _ _ h => .pure h

/-- So it does if its results are cached. -/
theorem applyCached_develops (stage : Stage) (hs : s.Sound) (hf : s.find? f.name = some f) :
    (cleaning C).Developed s (fun s' g => s'.find? g.name = some g ∧ stage.Promise s' f g) (stage.applyCached f s) := by
  cases stage with
  | identity => exact ArrayIR.applyCached_develops rfl hs hf (identity_apply f)
  | rename r => exact ArrayIR.applyCached_develops rfl hs hf (rename_apply r f)
  | adverbs =>
    rw [applyCached, get_bind_apply]
    exact ArrayIR.applyCached_develops rfl hs hf (adverbs_apply (lowerCached_lowers s.numFunctions) f hs)
  | tiling sizes =>
    rw [applyCached, get_bind_apply]
    exact ArrayIR.applyCached_develops rfl hs hf (tiling_apply sizes)
  | unroll factor => exact ArrayIR.applyCached_develops rfl hs hf (unroll_apply factor f)

end Stage

end ArrayIR
