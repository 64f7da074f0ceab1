/-
  ArrayIR.Proofs.Growth.Extends — sessions are only added to.

  What a pass does to the session while it rebuilds a body depends on what it lowers on
  the way, and for the passes that lower nothing there is nothing to say
  (`Pass.Keeps`). So any pass, be it applied or looked up, whether it succeeds or fails,
  extends the session (`Stage.apply_extends`, `Stage.applyCached_extends`): functions
  and results of passes stay, and what is new verifies.

  A result is cached under a key that was free when the pass started. In between the
  pass may have lowered the same function on the way; that does not matter to what was
  cached at the start.
-/

import ArrayIR.Proofs.Discipline.Lax
import ArrayIR.Proofs.Elimination.Pipeline

namespace ArrayIR

open Session (Grows)

/-! ## What the passes do on the way -/

section Keeps

variable {G : Growth} {s : Session} {f : Func}

theorem identity_keeps (s : Session) (f : Func) : identityPass.Keeps G () f s :=
  Growth.keeps_of_walk (identityWalk G.lax s) trivial (Growth.enters_of_pure _ rfl ⟨G.refl s, subset_rfl, fun _ => rfl⟩)
    (Stmt.blockFits_univ fun e _ => Growth.node s e)

theorem rename_keeps (r : Renaming) (s : Session) (f : Func) : Renaming.pass.Keeps G r f s := by
  have hstands : G.lax.Stands s r.source True Set.univ ⟨s, Set.univ⟩ r :=
    ⟨G.refl s, rfl, fun _ => rfl, fun _ _ e _ => Growth.sees rfl e, fun _ _ _ => trivial⟩
  exact Growth.keeps_of_walk (G.lax.copying s r.source True) trivial (Growth.enters_of_pure _ rfl hstands)
    (Growth.source_fits s r.source f.body)

theorem unroll_keeps (factor : UnrollFactor) (s : Session) (f : Func) : (Unrolling.pass factor).Keeps G () f s :=
  Growth.keeps_of_walk (Unrolling.walk Growth.typed s factor) trivial
    (Growth.enters_of_pure _ rfl ⟨G.refl s, subset_rfl, fun _ => rfl⟩) (Stmt.blockFits_univ fun e _ => Growth.node s e)

/-- Lowering adverbs does to the session what lowering the functions applied does. -/
theorem adverbs_keeps {lower : Adverbs.LowerFn}
    (h : ∀ {s' e fn k}, G.le s s' → e ∈ f.subterms → fn ∈ e.applies → s'.find? fn = some k →
      G.lax.Developed s' (fun t g => t.find? g.name = some g) (lower k s')) : (Adverbs.pass lower).Keeps G () f s := by
  have hrule : Rule.Implies { node := (· ∈ f.subterms) } (Adverbs.rule (· ∈ f.subterms) True) :=
    ⟨fun _ => id, fun _ _ => .inl trivial, fun _ => id, fun _ _ => id⟩
  have hfits : Stmt.blockFits (Adverbs.rule (· ∈ f.subterms) True) f.body Set.univ :=
    Stmt.blockFits.mono hrule (Stmt.blockFits_univ fun _ he => he) subset_rfl
  exact Growth.keeps_of_walk (Adverbs.walk (Growth.adverbs_suits h) True) trivial
    (Growth.enters_of_pure _ rfl ⟨G.refl s, subset_rfl, fun _ => rfl⟩) hfits

/-- Lowering tiled adverbs does to the session what lowering the functions followed does, of which only those
matter that reach a tiled adverb. -/
theorem tiles_keeps {lower : Tiling.LowerFn} {st : Tiling.State} (sizes : List Int64) (hbegin : Tiling.Begins s f st)
    (h : ∀ {s' e fn k st'}, G.le s s' → e ∈ f.subterms → fn ∈ e.follows → s'.find? fn = some k →
      s'.reachesTiled k = .ok true →
      Tiling.Begins s' k st' → G.lax.Developed s' (fun t r => t.find? r.1.name = some r.1) (lower st' k s')) :
    (Tiling.pass lower sizes).Keeps G st f s := by
  let K := Tiling.walk (Growth.tiles_suits (N := (· ∈ f.subterms)) h) sizes
  have henters : K.Enters Set.univ (fun _ => Set.univ) s (Tiling.enter f st ⟨s, f.env, []⟩) :=
    Tiling.enters _ sizes (G.refl s) hbegin (fun _ => subset_rfl) (fun _ _ => rfl)
      (fun _ _ _ _ => trivial) fun _ _ => trivial
  exact Growth.keeps_of_walk K trivial henters (Stmt.blockFits_univ fun _ he => he)

end Keeps

/-! ## Extending a session -/

namespace Session

variable {s t u : Session} {f g : Func} {key : String} {fn : FnName}

/-- Every result in the cache is a function of the session, and verifies. -/
def Published (s : Session) : Prop :=
  ∀ key fn g, s.cached key fn = some g → s.find? g.name = some g ∧ g.verify = .ok ()

/-- All that was there is there unchanged. -/
structure Retains (s t : Session) : Prop where
  grows : Grows s t
  cached : ∀ {key fn g}, s.cached key fn = some g → t.cached key fn = some g
  published : s.Published → t.Published

namespace Retains

/-- Only functions and results count. -/
theorem of_eq (hfunctions : t.functions = s.functions) (hcache : t.passCache = s.passCache) : Retains s t := by
  have hcached : ∀ key fn, t.cached key fn = s.cached key fn :=
    fun key fn => by rw [Session.cached, hcache, Session.cached]
  refine ⟨.of_eq hfunctions, fun h => (hcached _ _).trans h, fun hs key fn g hg => ?_⟩
  exact (hs key fn g ((hcached key fn).symm.trans hg)).imp_left (Grows.of_eq hfunctions).find

theorem refl (s : Session) : Retains s s := of_eq rfl rfl

theorem trans (h : Retains s t) (h' : Retains t u) : Retains s u where
  grows := h.grows.trans h'.grows
  cached hg := h'.cached (h.cached hg)
  published hs := h'.published (h.published hs)

theorem register (h : s.register g = .ok t) : Retains s t where
  grows := .register h
  cached hr := by rwa [eq_of_register h]
  published hs key fn k hk := by
    rw [eq_of_register h] at hk
    exact (hs key fn k hk).imp_left (Grows.register h).find

end Retains

/-- All that was there is there unchanged, and what is new verifies. -/
structure Extends (s t : Session) : Prop extends Retains s t where
  verified : ∀ {fn g}, s.find? fn = none → t.find? fn = some g → g.verify = .ok ()

namespace Extends

theorem of_eq (hfunctions : t.functions = s.functions) (hcache : t.passCache = s.passCache) : Extends s t where
  toRetains := .of_eq hfunctions hcache
  verified hnone hg := by
    rw [find?, hfunctions] at hg
    exact absurd (hg.symm.trans hnone) (by simp)

theorem refl (s : Session) : Extends s s := of_eq rfl rfl

theorem trans (h : Extends s t) (h' : Extends t u) : Extends s u where
  toRetains := h.toRetains.trans h'.toRetains
  verified {fn g} hnone hg := by
    cases ht : t.find? fn with
    | none => exact h'.verified ht hg
    | some k =>
      cases (h'.grows.find ht).symm.trans hg
      exact h.verified hnone ht

theorem register (hg : g.verify = .ok ()) (h : s.register g = .ok t) : Extends s t where
  toRetains := .register h
  verified hnone hk := by rwa [eq_of_new h hnone hk]

end Extends

theorem cached_insertCached (s : Session) (key : String) (fn : FnName) (g : Func) (key' : String) (fn' : FnName) :
    (s.insertCached key fn g).cached key' fn' = if (key, fn) = (key', fn') then some g else s.cached key' fn' := by
  unfold cached insertCached
  rw [List.find?_cons]
  by_cases h : (key, fn) = (key', fn')
  · simp [h]
  · simp [h]

/-- A result may be added under a key that was free at the start. -/
theorem Extends.insertCached (h : Extends s t) (hfree : s.cached key fn = none) (hg : t.find? g.name = some g)
    (hverify : g.verify = .ok ()) : Extends s (t.insertCached key fn g) where
  grows := h.grows.trans (.of_eq rfl)
  cached {key' fn' k} hk := by
    have hne : (key, fn) ≠ (key', fn') := by
      rintro ⟨⟩
      exact absurd (hk.symm.trans hfree) (by simp)
    rw [cached_insertCached, if_neg hne]
    exact h.cached hk
  published hs key' fn' k hk := by
    rw [cached_insertCached] at hk
    split at hk
    · cases hk
      exact ⟨hg, hverify⟩
    · exact h.published hs key' fn' k hk
  verified hnone hk := h.verified hnone hk

end Session

open Session (Extends)

/-- Sessions that are only added to. -/
def extension : Growth where
  le := Extends
  refl := .refl
  trans := .trans
  named _ _ := .of_eq rfl rfl
  grows h := h.grows

/-- The computation extends the session, and gives a function that is registered and verifies. -/
abbrev Session.Publishes (s : Session) (r : EStateM.Result Fault Session Func) : Prop :=
  extension.lax.Developed s (fun t g => t.find? g.name = some g ∧ g.verify = .ok ()) r

section Passes

variable {σ : Type} {p : Pass σ} {st : σ} {f : Func} {s : Session}

/-- Where verified functions may be registered, a pass may be applied. -/
theorem Pass.Keeps.apply_develops {G : Growth} (hreg : ∀ {s t g}, g.verify = .ok () → s.register g = .ok t → G.le s t)
    (h : p.Keeps G st f s) :
    G.lax.Developed s (fun t r => t.find? r.1.name = some r.1 ∧ r.1.verify = .ok ()) (p.apply st f s) := by
  cases hr : p.apply st f s with
  | error e t => exact h.apply_error hr
  | ok r t =>
    obtain ⟨s1, hle, hverify, hregister⟩ := h.apply_ok hr
    exact ⟨G.trans hle (hreg hverify hregister), (Session.register_ok hregister).1, hverify⟩

theorem Pass.Keeps.applyCached_extends (h : p.Keeps extension st f s) (hs : s.Published) :
    s.Publishes (p.applyCached st f s) := by
  cases hcached : s.cached p.key f.name with
  | some g =>
    rw [Pass.applyCached_known hcached]
    exact .pure (hs p.key f.name g hcached)
  | none =>
    rw [Pass.applyCached_new hcached]
    have happly := h.apply_develops Extends.register
    show s.Publishes (EStateM.bind (p.apply st f) _ s)
    unfold EStateM.bind
    cases hr : p.apply st f s with
    | error e t =>
      rw [hr] at happly
      exact happly
    | ok r t =>
      rw [hr] at happly
      obtain ⟨hle, hg, hverify⟩ := happly
      exact ⟨hle.insertCached hcached hg hverify, hg, hverify⟩

/-- The functions applied are lowered, and the results cached. -/
theorem lowerCached_extends (depth : Nat) (hs : s.Published) (f : Func) :
    s.Publishes (Adverbs.lowerCached depth f s) := by
  induction depth generalizing s f with
  | zero => exact .refl s
  | succ depth ih =>
    refine Pass.Keeps.applyCached_extends (adverbs_keeps fun {s' e fn k} hle _ _ _ => ?_) hs
    exact (ih (hle.published hs) k).mono fun _ _ _ hg => hg.1

/-- Functions followed are lowered, and the results registered. -/
theorem lowerAt_develops {G : Growth} (hreg : ∀ {s t g}, g.verify = .ok () → s.register g = .ok t →
    G.le s t) (depth : Nat) {st : Tiling.State} (hbegin : Tiling.Begins s f st) :
    G.lax.Developed s (fun t r => t.find? r.1.name = some r.1) (Tiling.lowerAt depth st f s) := by
  induction depth generalizing s f st with
  | zero => exact G.refl s
  | succ depth ih =>
    have hkeeps : (Tiling.pass (Tiling.lowerAt depth) st.sizes).Keeps G st f s :=
      tiles_keeps st.sizes hbegin fun _ _ _ _ _ hbegin' => ih hbegin'
    exact (hkeeps.apply_develops hreg).mono fun _ _ _ hg => hg.1

/-- So does lowering tiled adverbs itself. -/
theorem tiling_keeps {G : Growth} (hreg : ∀ {s t g}, g.verify = .ok () → s.register g = .ok t →
    G.le s t) (sizes : List Int64) (s : Session) (f : Func) : (Tiling.passIn s sizes).Keeps G { sizes := sizes } f s :=
  tiles_keeps sizes ⟨rfl, rfl, fun p hp => by cases hp⟩ fun _ _ _ _ _ hbegin => lowerAt_develops hreg _ hbegin

end Passes

/-! ## Stages -/

namespace Stage

variable {G : Growth} {stage : Stage} {s : Session} {f : Func}

/-- While it rebuilds a body, the stage lets the session develop as `G` says. -/
def Keeps (G : Growth) (f : Func) (s : Session) : Stage → Prop
  | identity => identityPass.Keeps G () f s
  | rename r => Renaming.pass.Keeps G r f s
  | adverbs => (Adverbs.passIn s).Keeps G () f s
  | tiling sizes => (Tiling.passIn s sizes).Keeps G { sizes := sizes } f s
  | unroll factor => (Unrolling.pass factor).Keeps G () f s

/-- The pass behind a stage. -/
theorem as_pass (stage : Stage) (f : Func) (s : Session) : ∃ (σ : Type) (p : Pass σ) (st : σ),
    p.key = stage.key ∧ (∀ G, stage.Keeps G f s → p.Keeps G st f s) ∧
      stage.apply f s = (p.apply st f >>= fun r => pure r.1 : Compile Func) s ∧
        stage.applyCached f s = p.applyCached st f s := by
  cases stage with
  | identity => exact ⟨Unit, identityPass, (), rfl, fun _ => id, rfl, rfl⟩
  | rename r => exact ⟨Renaming, Renaming.pass, r, rfl, fun _ => id, rfl, rfl⟩
  | adverbs => exact ⟨Unit, Adverbs.passIn s, (), rfl, fun _ => id, get_bind_apply _, get_bind_apply _⟩
  | tiling sizes => exact ⟨Tiling.State, Tiling.passIn s sizes, { sizes := sizes }, rfl,
    fun _ => id, get_bind_apply _, get_bind_apply _⟩
  | unroll factor => exact ⟨Unit, Unrolling.pass factor, (), rfl, fun _ => id, rfl, rfl⟩

theorem keeps_extension (stage : Stage) (f : Func) (hs : s.Published) : stage.Keeps extension f s := by
  cases stage with
  | identity => exact identity_keeps s f
  | rename r => exact rename_keeps r s f
  | adverbs =>
    refine adverbs_keeps fun {s' _ _ k} hle _ _ _ => ?_
    exact (lowerCached_extends s.numFunctions (hle.published hs) k).mono fun _ _ _ hg => hg.1
  | tiling sizes => exact tiling_keeps Extends.register sizes s f
  | unroll factor => exact unroll_keeps factor s f

theorem apply_extends (stage : Stage) (f : Func) (hs : s.Published) : s.Publishes (stage.apply f s) := by
  obtain ⟨σ, p, st, -, hkeeps, happly, -⟩ := stage.as_pass f s
  rw [happly]
  exact ((hkeeps _ (stage.keeps_extension f hs)).apply_develops Extends.register).bind fun _ _ _ h => .pure h

theorem applyCached_extends (stage : Stage) (f : Func) (hs : s.Published) : s.Publishes (stage.applyCached f s) := by
  obtain ⟨σ, p, st, -, hkeeps, -, hcached⟩ := stage.as_pass f s
  rw [hcached]
  exact (hkeeps _ (stage.keeps_extension f hs)).applyCached_extends hs

/-- Stages one after the other extend the session, whichever of them fails. -/
theorem pipeline_extends (stages : List Stage) (f : Func) (hs : s.Published) :
    extension.lax.Developed s (fun _ _ => True) (pipeline stages f s) := by
  induction stages generalizing s f with
  | nil => exact .pure trivial
  | cons stage stages ih =>
    rw [pipeline, List.foldlM_cons]
    exact (stage.applyCached_extends f hs).bind fun s' g hle _ => ih g (hle.published hs)

end Stage

theorem lower_extends {s : Session} (f : Func) (hs : s.Published) :
    extension.lax.Developed s (fun _ _ => True) (lower f s) := by
  show extension.lax.Developed s _ ((liftM s.options.stages >>= fun stages => Stage.pipeline stages f : Compile Func) s)
  have hstages : extension.lax.Developed s (fun t _ => t = s) ((liftM s.options.stages : Compile (List Stage)) s) :=
    .lift fun _ _ => rfl
  refine hstages.bind fun t stages _ ht => ?_
  subst ht
  exact Stage.pipeline_extends stages f hs

end ArrayIR
