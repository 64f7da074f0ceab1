/-
  ArrayIR.Proofs.Discipline.Lax — disciplines that look at sessions only.

  While a pass rebuilds a function, sessions change: names are taken, and the functions
  that the code applies may be lowered. For any relation that taking names respects
  and under which functions stay (`Growth`) there is a discipline that allows all code.
  So what a pass does to the session follows from what lowering the functions applied
  does to it (`adverbs_suits`, `tiles_suits`).
-/

import ArrayIR.Proofs.Discipline.Loops
import ArrayIR.Proofs.Discipline.Tiles
import ArrayIR.Proofs.Discipline.Unrolling
import ArrayIR.Proofs.Reach

namespace ArrayIR

open Session (Grows)

/-- How sessions may develop while a function is rebuilt. -/
structure Growth where
  le : Session → Session → Prop
  refl : ∀ s, le s s
  trans : ∀ {s t u}, le s t → le t u → le s u
  /-- Names may be taken. -/
  named : ∀ s n, le s { s with nextName := n }
  grows : ∀ {s t}, le s t → Grows s t

namespace Growth

variable {G : Growth} {s s0 : Session} {w : World}

/-- Any code may be emitted, as long as sessions develop so. -/
def lax (G : Growth) : Discipline where
  le := G.le
  refl := G.refl
  trans := G.trans
  named := G.named
  find h := (G.grows h).find
  known _ _ := True
  known_mono _ := id
  form _ _ := True
  form_mono _ _ _ := trivial
  form_made _ := trivial
  form_subst _ _ _ := trivial

theorem typed (s : Session) (t : Ty) : G.lax.Typed s t := fun _ _ => trivial

theorem node (s : Session) (e : Expr) : G.lax.Node s e := ⟨typed _ _, trivial⟩

theorem sees (hw : w.names = Set.univ) (e : Expr) : G.lax.Sees w e := by
  rw [Discipline.Sees, hw]
  exact Expr.fits_univ fun d _ => node _ d

/-- All code keeps to the rule for sources. -/
theorem source_fits (s : Session) (env : TypeEnv) (body : Block) :
    Stmt.blockFits (G.lax.source s env) body Set.univ := by
  have hrule : Rule.Implies { node := G.lax.Node s } (G.lax.source s env) :=
    ⟨fun _ => id, fun _ => id, fun _ _ _ _ => typed _ _, fun _ _ _ _ _ _ _ _ => typed _ _⟩
  exact Stmt.blockFits.mono hrule (Stmt.blockFits_univ fun e _ => node s e) subset_rfl

/-- All functions that are registered may be used. -/
theorem usable {g : Func} (h : s.find? g.name = some g) : Tiling.Usable G.lax s True g where
  found := h
  ref := node _ _
  closure _ _ _ _ := node _ _
  call _ _ _ _ _ := node _ _
  result := typed _ _
  inlinable := .inl ⟨trivial, source_fits s g.env g.body⟩

/-! ## Functions applied -/

theorem adverbs_suits {lower : Adverbs.LowerFn} {N : Expr → Prop}
    (h : ∀ {s e fn f}, G.le s0 s → N e → fn ∈ e.applies → s.find? fn = some f →
      G.lax.Developed s (fun s' g => s'.find? g.name = some g) (lower f s)) :
    Adverbs.Suits G.lax lower N s0 where
  typed := typed
  stays _ _ _ _ := trivial
  lowered hle he hfn hf := (h hle he hfn hf).mono fun _ _ _ hg => ⟨hg, fun _ _ => trivial⟩

theorem tiles_suits {lower : Tiling.LowerFn} {N : Expr → Prop}
    (h : ∀ {s e fn f st}, G.le s0 s → N e → fn ∈ e.follows → s.find? fn = some f → s.reachesTiled f = .ok true →
      Tiling.Begins s f st → G.lax.Developed s (fun s' r => s'.find? r.1.name = some r.1) (lower st f s)) :
    Tiling.Suits G.lax lower { node := N } s0 True (fun _ _ => True) where
  plain_mono _ _ := trivial
  var _ _ _ := typed _ _
  cond _ := .inl trivial
  join _ _ := trivial
  assign _ _ _ _ _ _ _ := ⟨typed _ _, trivial⟩
  captured _ _ _ _ _ _ := typed _ _
  stays _ _ _ _ := node _ _
  result _ _ := typed _ _
  reached hle := Session.reachesTiled_mono (G.grows hle)
  counted hle := Session.numDynamicTiles_mono (G.grows hle)
  kept _ _ _ hf _ := usable (Session.find?_name hf)
  lowered hle he hfn hf hreached hbegin := (h hle he hfn hf hreached hbegin).mono fun _ _ _ hg => usable hg

end Growth

/-! ## Rebuilding bodies -/

section Keeps

variable {σ : Type} {G : Growth} {s t : Session} {f g : Func}

/-- Rebuilding the body of a function lets the session develop as `G` says, also where it fails. -/
def Pass.Keeps (G : Growth) (p : Pass σ) (st : σ) (f : Func) (s : Session) : Prop :=
  match p.body f st ⟨s, f.env, []⟩ with
  | .ok _ b | .error _ b => G.le s b.session

theorem Growth.keeps_of_walk {p : Pass σ} {st : σ} {R : Rule} (K : G.lax.Walk p R) (hloose : K.loose)
    (henter : K.Enters Set.univ (fun _ => Set.univ) s (p.enter f st ⟨s, f.env, []⟩))
    (hf : Stmt.blockFits R f.body Set.univ) :
    p.Keeps G st f s := by
  have hbody := K.body_keeps henter hf (.inl hloose)
  unfold Pass.Keeps
  cases hr : p.body f st ⟨s, f.env, []⟩ with
  | error e b =>
    rw [hr] at hbody
    exact hbody
  | ok r b =>
    rw [hr] at hbody
    exact hbody.1

/-- A pass that does nothing on entering a function starts with all names standing for themselves. -/
theorem Growth.enters_of_pure {p : Pass σ} {st : σ} {R : Rule} (K : G.lax.Walk p R) (henter : p.enter f = pure ())
    (hst : K.stands Set.univ ⟨s, Set.univ⟩ st) :
    K.Enters Set.univ (fun _ => Set.univ) s (p.enter f st ⟨s, f.env, []⟩) := by
  rw [henter]
  exact ⟨G.refl s, rfl, hst⟩

namespace Pass.Keeps

variable {p : Pass σ} {st st' : σ} {e : Fault}

/-- A pass that succeeds has let the session develop, and has then published a function that verifies. -/
theorem apply_ok (h : p.Keeps G st f s) (happly : p.apply st f s = .ok (g, st') t) :
    ∃ s1, G.le s s1 ∧ g.verify = .ok () ∧ s1.register g = .ok t := by
  obtain ⟨body, b, hbody, hpublish⟩ := Pass.apply_ok happly
  obtain ⟨-, hverify, hreg⟩ := Pass.publish_ok hpublish
  unfold Pass.Keeps at h
  rw [hbody] at h
  exact ⟨_, G.trans h (G.named _ _), hverify, hreg⟩

/-- A pass that fails has let the session develop, and has published nothing itself. -/
theorem apply_error (h : p.Keeps G st f s) (happly : p.apply st f s = .error e t) : G.le s t := by
  unfold Pass.Keeps at h
  unfold Pass.apply at happly
  cases hr : p.body f st ⟨s, f.env, []⟩ with
  | error e' b =>
    rw [hr] at h happly
    cases happly
    exact h
  | ok r b =>
    rw [hr] at h happly
    rcases state_bind_error happly with hpublish | ⟨_, _, _, hpure⟩
    · rw [Pass.publish_error hpublish]
      exact G.trans h (G.named _ _)
    · cases hpure

end Pass.Keeps

end Keeps

end ArrayIR
