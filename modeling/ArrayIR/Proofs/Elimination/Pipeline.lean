/-
  ArrayIR.Proofs.Elimination.Pipeline — the standard lowering leaves no adverb.

  Registering functions and running stages keeps a session sound, whether the stages
  succeed or fail (`Session.Reached.sound`). So the three stages of the standard
  lowering can be taken one after the other, wherever their results come from. Only the
  result for another function of the same name is in the way (`other_result_keeps_tile`).
-/

import ArrayIR.Proofs.Elimination.Stages

namespace ArrayIR

/-- The session in which a computation ends, be it with a result or with a failure. -/
def Compile.after {α : Type} (x : Compile α) (s : Session) : Session :=
  match x s with
  | .ok _ t | .error _ t => t

/-- Sessions that come about by registering functions, taking names, setting options and running stages. A stage can be
run on any function, but one whose result is kept only on a function that is registered under its name: results are
kept by name, and one for another function of the name would be taken for it (`other_result_keeps_tile`). -/
inductive Session.Reached : Session → Prop
  | start (options : Options) : Reached { options := options }
  | register {s t : Session} {f : Func} : Reached s → s.register f = .ok t → Reached t
  | named {s : Session} (n : Nat) : Reached s → Reached { s with nextName := n }
  | configure {s : Session} (options : Options) : Reached s → Reached { s with options := options }
  | apply {s : Session} (stage : Stage) (f : Func) : Reached s → Reached (Compile.after (stage.apply f) s)
  | pipeline {s : Session} (stages : List Stage) {f : Func} : Reached s → s.find? f.name = some f →
      Reached (Compile.after (Stage.pipeline stages f) s)

section

variable {s s' : Session} {f g : Func}

theorem Discipline.Developed.after_le {D : Discipline} {α : Type} {P : Session → α → Prop} {x : Compile α}
    (h : D.Developed s P (x s)) : D.le s (Compile.after x s) := by
  unfold Compile.after
  cases hx : x s with
  | error e t =>
    rw [hx] at h
    exact h
  | ok a t =>
    rw [hx] at h
    exact h.1

/-- A stage that succeeds gives a registered function as it promises. -/
theorem Stage.applyCached_promise {stage : Stage} (hs : s.Sound) (hf : s.find? f.name = some f)
    (h : stage.applyCached f s = .ok g s') : s.Develops s' ∧ s'.find? g.name = some g ∧ stage.Promise s' f g := by
  have hdeveloped := stage.applyCached_develops (C := fun _ => False) hs hf
  rw [h] at hdeveloped
  exact hdeveloped

theorem Stage.pipeline_develops (stages : List Stage) (hs : s.Sound) (hf : s.find? f.name = some f) :
    (cleaning fun _ => False).Developed s (fun s' g => s'.find? g.name = some g) (pipeline stages f s) := by
  induction stages generalizing s f with
  | nil => exact .pure hf
  | cons stage stages ih =>
    rw [pipeline, List.foldlM_cons]
    exact (stage.applyCached_develops hs hf).bind fun s' g hle ⟨hg, _⟩ => ih (hle.sound hs) hg

theorem Session.Reached.sound (h : s.Reached) : s.Sound := by
  induction h with
  | start options => exact fun _ _ _ hg => absurd hg List.not_mem_nil
  | register _ h ih => exact (develops_register h).sound ih
  | named n _ ih => exact ih.mono (.of_eq rfl) rfl
  | configure options _ ih => exact ih.mono (.of_eq rfl) rfl
  | apply stage f _ ih => exact (stage.apply_develops (C := fun _ => False) f ih).after_le.sound ih
  | pipeline stages _ hf ih => exact (Stage.pipeline_develops stages ih hf).after_le.sound ih

/-- What lowering tiled adverbs promises for the session it starts from. What it publishes on the way is
settled, so callables that were literal before are so after. -/
theorem Stage.tiling_settles {sizes : List Int64} (hs : s.Sound) (hf : s.find? f.name = some f) (hliteral : s.Literal f)
    (h : (Stage.tiling sizes).applyCached f s = .ok g s') : s'.Settled g := by
  rw [applyCached, get_bind_apply] at h
  rcases Pass.applyCached_ok h with ⟨hcached, rfl⟩ | ⟨st', s1, happly, rfl⟩
  · exact (hs.cached (.tiling sizes) hf hcached).2 s' (.refl s') hliteral
  · have hbegin : Tiling.Begins s f { sizes := sizes } := ⟨rfl, rfl, fun p hp => by cases hp⟩
    have hdeveloped := tiles_apply (lowerAt_lowers s.numFunctions) sizes f hbegin
    rw [Tiling.passIn] at happly
    rw [happly] at hdeveloped
    exact (hdeveloped.2.2 hliteral).mono (.of_eq rfl)

/-- Where adverbs apply literal callables, the standard lowering gets rid of all of them: neither the result
nor anything it calls has one, and it calls nothing unknown. -/
theorem lower_eliminates_adverbs (hs : s.Reached) (hf : s.find? f.name = some f)
    (hliteral : ∀ k, s.Reaches Expr.links f k → ∀ e ∈ k.subterms, ∀ o ∈ e.operands, o.isLiteral = true)
    (h : lower f s = .ok g s') :
    ∀ k, s'.Reaches Expr.calls g k → ∀ e ∈ k.subterms,
      (e.isAdverb = false ∧ e.isTiled = false) ∧ ∀ fn ∈ e.calls, ∃ j, s'.find? fn = some j := by
  obtain ⟨_, _, hget, h⟩ := state_bind_ok h
  cases hget
  obtain ⟨stages, _, hlift, h⟩ := state_bind_ok h
  obtain ⟨hstages, rfl⟩ := state_lift_ok hlift
  obtain ⟨unrolling, hunrolling, hstages⟩ := except_bind_ok hstages
  cases hstages
  obtain ⟨factor, -, hfactor⟩ := except_bind_ok hunrolling
  cases hfactor
  obtain ⟨f₁, s₁, h₁, h⟩ := state_bind_ok h
  obtain ⟨f₂, s₂, h₂, h⟩ := state_bind_ok h
  obtain ⟨f₃, s₃, h₃, h⟩ := state_bind_ok h
  obtain ⟨rfl, rfl⟩ := state_pure_ok h
  obtain ⟨hle₁, hf₁, -⟩ := Stage.applyCached_promise hs.sound hf h₁
  have hsettled : s₁.Settled f₁ := Stage.tiling_settles hs.sound hf hliteral h₁
  obtain ⟨hle₂, hf₂, hclean⟩ := Stage.applyCached_promise (hle₁.sound hs.sound) hf₁ h₂
  have hclean₂ : s₂.Clean f₂ := hclean s₂ (.refl s₂) (Session.Secure.everywhere (hsettled.mono hle₂.grows))
  obtain ⟨hle₃, -, hkept⟩ := Stage.applyCached_promise (hle₂.sound (hle₁.sound hs.sound)) hf₂ h₃
  exact hkept s₃ (.refl s₃) (hclean₂.mono hle₃.grows)

end

/-! ## A session that is lowered -/

namespace Elimination

open Sample (double)

/-- Double all elements of a vector. -/
def doubleAll : Func := .returning "doubleAll" [("a", .array .i64 1)]
  (.map (.fnRefTo "double") [.var "a" (.array .i64 1)] 0 (.array .i64 1))

/-- The same, tile by tile. -/
def doubleTiles : Func := .returning "doubleTiles" [("a", .array .i64 1)]
  (.tiledMap (.fnRefTo "doubleAll") [.var "a" (.array .i64 1)] [0] .fixed (.array .i64 1))

def doubling : Session := { functions := [doubleTiles, doubleAll, double] }

theorem doubling_reached : doubling.Reached :=
  .register (f := doubleTiles) (.register (f := doubleAll) (.register (f := double) (.start {}) rfl) rfl) rfl

/-- The session in which the tiles have been lowered already. -/
def doublingTiled : Session := Compile.after (Stage.pipeline [.tiling []] doubleTiles) doubling

/-- Doubling tile by tile is lowered to code without an adverb, with one stage taken from the cache. -/
theorem doubleTiles_lowered : ∃ g s', lower doubleTiles doublingTiled = .ok g s' ∧
    ∀ k, s'.Reaches Expr.calls g k → ∀ e ∈ k.subterms,
      (e.isAdverb = false ∧ e.isTiled = false) ∧ ∀ fn ∈ e.calls, ∃ j, s'.find? fn = some j := by
  have hreached : doublingTiled.Reached := doubling_reached.pipeline _ rfl
  have hfound : doublingTiled.find? doubleTiles.name = some doubleTiles :=
    (Stage.pipeline_develops [.tiling []] doubling_reached.sound rfl).after_le.grows.find rfl
  have hliteral : ∀ k ∈ doublingTiled.functions, ∀ e ∈ k.subterms,
      ∀ o ∈ e.operands, o.isLiteral = true := by decide +kernel
  obtain ⟨g, s', h⟩ := exists_of_succeeds (show succeeds (lower doubleTiles doublingTiled) = true by decide +kernel)
  exact ⟨g, s', h, lower_eliminates_adverbs hreached hfound (Session.everywhere_of_functions hliteral hfound) h⟩

def rows : Func := .returning "rows" [("x", .array .i64 2)] (.var "x" (.array .i64 2))

/-- Another function of the name, which maps a parameter over the rows. -/
def mapRows : Func := .returning "rows" [("c", .fn "doubleTiles"), ("x", .array .i64 2)]
  (.map (.var "c" (.fn "doubleTiles")) [.var "x" (.array .i64 2)] 0 (.array .i64 2))

def withRows : Session := { functions := rows :: doubling.functions }

/-- The session in which the result for the other function is kept. -/
def mistaken : Session := Compile.after (Stage.pipeline [.tiling []] mapRows) withRows

/-- A function that is called has a tiled adverb. -/
def callsTile (s : Session) (g : Func) : Bool :=
  (g.subterms.flatMap Expr.calls).any fun fn => (s.find? fn).any fun k => k.subterms.any Expr.isTiled

/-- Lowering takes the result for the other function, whose callable is a parameter, and leaves a tiled adverb. -/
theorem other_result_keeps_tile : withRows.Reached ∧ mistaken.find? rows.name = some rows ∧
    (∀ k, mistaken.Reaches Expr.links rows k → ∀ e ∈ k.subterms, ∀ o ∈ e.operands, o.isLiteral = true) ∧
    ∃ g s', lower rows mistaken = .ok g s' ∧ ∃ k, s'.Reaches Expr.calls g k ∧ ∃ e ∈ k.subterms, e.isTiled = true := by
  refine ⟨.register (f := rows) doubling_reached rfl, rfl, fun k hk => ?_, ?_⟩
  · rcases hk.cases_head with rfl | ⟨j, ⟨e, he, fn, hfn, -⟩, -⟩
    · decide
    · exact absurd hfn (List.eq_nil_iff_forall_not_mem.mp ((by decide : ∀ e ∈ rows.subterms, e.links = []) e he) fn)
  · obtain ⟨g, s', h, hcalls⟩ := exists_of_succeedsWith
      (show succeedsWith (fun g s => callsTile s g) (lower rows mistaken) = true by decide +kernel)
    obtain ⟨fn, hfn, hk⟩ := List.any_eq_true.mp hcalls
    obtain ⟨e, he, hfn⟩ := List.mem_flatMap.mp hfn
    obtain ⟨k, hk, htile⟩ := (Option.any_eq_true ..).mp hk
    exact ⟨g, s', h, k, .single ⟨e, he, fn, hfn, hk⟩, List.any_eq_true.mp htile⟩

end Elimination

end ArrayIR
