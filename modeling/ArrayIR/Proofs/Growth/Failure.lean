/-
  ArrayIR.Proofs.Growth.Failure — what a pass that fails leaves behind.

  A pass registers its result last, so one that fails leaves nothing of its own. But
  lowering adverbs lowers the functions that the code applies as it comes upon them,
  and registers and caches the results; so does lowering tiled adverbs with those that
  reach a tiled adverb, without caching. What has been lowered by then stays when the
  pass fails later on (`Failure.lowered_callee_outlives_failure`). All of it verifies, and
  nothing that was there is lost; and where nothing had to be lowered on the way, only
  names have been taken (`Stage.failure_leaves`).
-/

import ArrayIR.Proofs.Growth.History

namespace ArrayIR

open Session (Grows Extends Op history)

section

variable {stage : Stage} {s t : Session} {f g : Func} {e : Fault}

/-! ## Failures come from the body -/

/-- A stage that fails has let the session develop as it does while it rebuilds a body. -/
theorem Stage.Keeps.of_error {G : Growth} (hkeeps : stage.Keeps G f s)
    (h : stage.apply f s = .error e t ∨ stage.applyCached f s = .error e t) : G.le s t := by
  obtain ⟨σ, p, st, -, hpass, happly, hcached⟩ := stage.as_pass f s
  have herror : p.apply st f s = .error e t := by
    rcases h with h | h
    · rcases state_bind_error (happly.symm.trans h) with h | ⟨_, _, -, h⟩
      · exact h
      · cases h
    · exact Pass.applyCached_error (hcached.symm.trans h)
  exact (hpass G hkeeps).apply_error herror

/-! ## Sessions that develop less freely -/

/-- Results of passes are neither added nor changed. -/
def uncached : Growth where
  le s t := Grows s t ∧ t.passCache = s.passCache
  refl s := ⟨.refl s, rfl⟩
  trans h h' := ⟨h.1.trans h'.1, h'.2.trans h.2⟩
  named _ _ := ⟨.of_eq rfl, rfl⟩
  grows h := h.1

/-- Only names are taken. -/
def untouched : Growth where
  le s t := t = { s with nextName := t.nextName }
  refl _ := rfl
  trans h h' := by rw [h', h]
  named _ _ := rfl
  grows h := .of_eq (by rw [h])

/-- Only lowering adverbs caches results on the way. -/
theorem Stage.keeps_uncached (hstage : stage ≠ .adverbs) : stage.Keeps uncached f s := by
  cases stage with
  | identity => exact identity_keeps s f
  | rename r => exact rename_keeps r s f
  | adverbs => exact absurd rfl hstage
  | tiling sizes =>
    exact tiling_keeps (G := uncached) (fun _ hreg => ⟨.register hreg, by rw [Session.eq_of_register hreg]⟩) sizes s f
  | unroll factor => exact unroll_keeps factor s f

/-- Nothing has to be lowered on the way: the results for the functions that are applied are known, or no
function that is followed reaches a tiled adverb. -/
def Stage.LowersNothing (f : Func) (s : Session) : Stage → Prop
  | adverbs => ∀ e ∈ f.subterms, ∀ fn ∈ e.applies, ∀ k, s.find? fn = some k →
    ∃ g, s.cached Stage.adverbs.key fn = some g
  | tiling _ => ∀ e ∈ f.subterms, ∀ fn ∈ e.follows, ∀ k, s.find? fn = some k → s.reachesTiled k ≠ .ok true
  | _ => True

/-- A function whose result is known is lowered without a change. -/
theorem lowerCached_untouched {depth : Nat} (hcached : s.cached Stage.adverbs.key f.name = some g)
    (hg : s.find? g.name = some g) :
    untouched.lax.Developed s (fun t g => t.find? g.name = some g) (Adverbs.lowerCached depth f s) := by
  cases depth with
  | zero => exact untouched.refl s
  | succ depth =>
    rw [Adverbs.lowerCached, Pass.applyCached_known hcached]
    exact ⟨untouched.refl s, hg⟩

theorem Stage.keeps_untouched (hs : s.Published) (h : stage.LowersNothing f s) : stage.Keeps untouched f s := by
  cases stage with
  | identity => exact identity_keeps s f
  | rename r => exact rename_keeps r s f
  | adverbs =>
    refine adverbs_keeps fun {s' e fn k} hle he hfn hk => ?_
    have hback : Grows s' s := .of_eq (by rw [hle])
    obtain ⟨g, hg⟩ := h e he fn hfn k (hback.find hk)
    have hcached : s'.cached Stage.adverbs.key k.name = some g := by
      rw [Session.name_of_find? hk, hle]
      exact hg
    exact lowerCached_untouched hcached ((untouched.grows hle).find (hs _ fn g hg).1)
  | tiling sizes =>
    refine tiles_keeps sizes ⟨rfl, rfl, fun p hp => by cases hp⟩ fun {s' e fn k st} hle he hfn hk hreached _ => ?_
    have hback : Grows s' s := .of_eq (by rw [hle])
    exact absurd (Session.reachesTiled_mono hback hreached) (h e he fn hfn k (hback.find hk))
  | unroll factor => exact unroll_keeps factor s f

end

/-- A pass that fails, looked up or not, loses nothing; what it leaves verifies, and is cached only by lowering
adverbs; and if nothing had to be lowered on the way, then only names have been taken. -/
theorem Stage.failure_leaves (options : Options) (ops : List Op) (stage : Stage) (f : Func) {e : Fault} {t : Session}
    (h : stage.apply f (history options ops) = .error e t ∨ stage.applyCached f (history options ops) = .error e t) :
    let s := history options ops
    (∀ fn k, s.find? fn = some k → t.find? fn = some k) ∧
    (∀ key fn g, s.cached key fn = some g → t.cached key fn = some g) ∧
    (∀ fn k, s.find? fn = none → t.find? fn = some k → k.verify = .ok ()) ∧
    (∀ key fn g, s.cached key fn = none → t.cached key fn = some g → t.find? g.name = some g) ∧
    (stage ≠ .adverbs → t.passCache = s.passCache) ∧
    (stage.LowersNothing f s → t = { s with nextName := t.nextName }) := by
  intro s
  have hs : s.Published := Session.history_published options ops
  have hextends : Extends s t := (stage.keeps_extension f hs).of_error h
  refine ⟨fun _ _ => hextends.grows.find, fun _ _ _ => hextends.cached, fun _ _ => hextends.verified, ?_, ?_, ?_⟩
  · exact fun key fn g _ hg => (hextends.published hs key fn g hg).1
  · exact fun hstage => (Stage.Keeps.of_error (Stage.keeps_uncached hstage) h).2
  · exact fun hnothing => Stage.Keeps.of_error (Stage.keeps_untouched hs hnothing) h

namespace Failure

open Sample (identity)

/-- Calls a function that is registered, and then one that is not. -/
def callsMissing : Func where
  name := "callsMissing"
  params := ["x"]
  paramTys := [.i64]
  result := .i64
  env := .ofList [("x", .i64), ("y", .i64)]
  body := [.assign (.var "y" .i64) (.call "identity" [.var "x" .i64] .i64), .ret (.call "missing" [.var "y" .i64] .i64)]

def calling : List Op := [.register identity, .register callsMissing]

/-- Looking for tiled adverbs fails at the function that is missing, and has lowered nothing by then. -/
theorem callsMissing_tiling_fails : ∃ e t, (Stage.tiling []).apply callsMissing (history {} calling) = .error e t ∧
    t = { history {} calling with nextName := t.nextName } := by
  obtain ⟨e, t, h⟩ := exists_of_not_succeeds
    (show succeeds ((Stage.tiling []).apply callsMissing (history {} calling)) = false by decide +kernel)
  obtain ⟨-, -, -, -, -, hnothing⟩ := Stage.failure_leaves {} calling (.tiling []) callsMissing (.inl h)
  have hfollows : ∀ d ∈ callsMissing.subterms, ∀ fn ∈ d.follows, fn = "identity" ∨ fn = "missing" := by decide
  have hidentity : (history {} calling).reachesTiled identity = .ok false := rfl
  refine ⟨e, t, h, hnothing fun d hd fn hfn k hk => ?_⟩
  rcases hfollows d hd fn hfn with rfl | rfl
  · cases hk
    rw [hidentity]
    nofun
  · cases hk

/-- Lowering adverbs fails there too, and leaves the function that was called before, lowered. -/
theorem lowered_callee_outlives_failure : ∃ e t, Stage.adverbs.apply callsMissing (history {} calling) = .error e t ∧
    (history {} calling).numFunctions = 2 ∧ t.numFunctions = 3 ∧
    (history {} calling).cached Stage.adverbs.key "identity" = none ∧
    (t.cached Stage.adverbs.key "identity").isSome := by
  obtain ⟨e, t, h⟩ := exists_of_not_succeeds
    (show succeeds (Stage.adverbs.apply callsMissing (history {} calling)) = false by decide +kernel)
  have ht : Compile.after (Stage.adverbs.apply callsMissing) (history {} calling) = t := by rw [Compile.after, h]
  refine ⟨e, t, h, by decide +kernel, ?_, Option.isNone_iff_eq_none.mp (by decide +kernel), ?_⟩
  · rw [← ht]
    decide +kernel
  · rw [← ht]
    decide +kernel

end Failure

end ArrayIR
