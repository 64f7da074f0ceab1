/-
  ArrayIR.Proofs.Publish — what applying a pass leaves in the session.

  A pass that succeeds has rebuilt the body, and has published a function that passes
  the check under a name that was free (`Pass.apply_ok`). So the functions that were
  there before are still there, and the new one is there as well. A failure to publish
  leaves nothing but the name taken (`Pass.publish_error`). A pass that keeps its results
  does all this the first time only (`Pass.applyCached_known`, `Pass.applyCached_new`).
-/

import ArrayIR.Proofs.Emission

namespace ArrayIR

theorem Session.register_ok {s s' : Session} {g : Func} (h : s.register g = .ok s') :
    s'.find? g.name = some g ∧ ∀ {fn : FnName} {f : Func}, s.find? fn = some f → s'.find? fn = some f := by
  unfold register at h
  cases hg : s.find? g.name with
  | some f =>
    rw [hg] at h
    cases h
  | none =>
    rw [hg] at h
    cases h
    refine ⟨List.find?_cons_of_pos (decide_eq_true rfl), fun {fn f} hf => ?_⟩
    have hne : g.name ≠ fn := fun e => by
      rw [← e, hg] at hf
      cases hf
    exact (List.find?_cons_of_neg (by simpa using hne)).trans hf

theorem Func.verify_ok {f : Func} (h : f.verify = .ok ()) :
    ∃ D D', WellFormed.params f.env (f.params.zip f.paramTys) [] = .ok D ∧
      WellFormed.block f.env f.body D = .ok D' := by
  obtain ⟨D, hD, h⟩ := except_bind_ok h
  obtain ⟨D', hD', -⟩ := except_bind_ok h
  exact ⟨D, D', hD, hD'⟩

namespace Pass

variable {σ : Type} {p : Pass σ} {st st' : σ} {f g : Func} {s s' : Session} {env : TypeEnv} {body : Block} {e : Fault}

theorem publish_ok (h : p.publish st f env body s = .ok g s') :
    p.leave st { f with name := (s.fresh f.name).1, env := env, body := body } = .ok g ∧ g.verify = .ok () ∧
      (s.fresh f.name).2.register g = .ok s' := by
  obtain ⟨name, s1, hname, h⟩ := state_bind_ok h
  cases hname
  obtain ⟨g', s2, hg, h⟩ := state_bind_ok h
  obtain ⟨hleave, rfl⟩ := state_lift_ok hg
  obtain ⟨u, s3, hv, h⟩ := state_bind_ok h
  obtain ⟨hverify, rfl⟩ := state_lift_ok hv
  obtain ⟨s4, s5, hget, h⟩ := state_bind_ok h
  cases hget
  obtain ⟨s6, s7, hr, h⟩ := state_bind_ok h
  obtain ⟨hreg, rfl⟩ := state_lift_ok hr
  obtain ⟨u', s8, hset, h⟩ := state_bind_ok h
  cases hset
  obtain ⟨rfl, rfl⟩ := state_pure_ok h
  exact ⟨hleave, hverify, hreg⟩

theorem publish_of_ok (hleave : p.leave st { f with name := (s.fresh f.name).1, env := env, body := body } = .ok g)
    (hverify : g.verify = .ok ())
    (hreg : (s.fresh f.name).2.register g = .ok s') : p.publish st f env body s = .ok g s' := by
  have hname : (modifyGet (·.fresh f.name) : Compile String) s = .ok (s.fresh f.name).1 (s.fresh f.name).2 := rfl
  exact (state_bind_of_ok hname).trans ((state_bind_of_ok (state_lift_of_ok hleave _)).trans
    ((state_bind_of_ok (state_lift_of_ok hverify _)).trans (state_bind_of_ok (state_lift_of_ok hreg _))))

/-- Publishing registers last, so a failure leaves nothing but the name taken. -/
theorem publish_error (h : p.publish st f env body s = .error e s') : s' = (s.fresh f.name).2 := by
  rcases state_bind_error h with h | ⟨name, _, hname, h⟩
  · cases h
  cases hname
  rcases state_bind_error h with h | ⟨g, _, hg, h⟩
  · exact state_lift_error h
  obtain ⟨-, rfl⟩ := state_lift_ok hg
  rcases state_bind_error h with h | ⟨_, _, hverify, h⟩
  · exact state_lift_error h
  obtain ⟨-, rfl⟩ := state_lift_ok hverify
  rcases state_bind_error h with h | ⟨_, _, hget, h⟩
  · cases h
  cases hget
  rcases state_bind_error h with h | ⟨_, _, hreg, h⟩
  · exact state_lift_error h
  obtain ⟨-, rfl⟩ := state_lift_ok hreg
  cases h

theorem apply_ok (h : p.apply st f s = .ok (g, st') s') :
    ∃ body b, p.body f st ⟨s, f.env, []⟩ = .ok (body, st') b ∧
      p.publish st' f b.env (b.block ++ body) b.session = .ok g s' := by
  unfold apply at h
  split at h
  · cases h
  · rename_i body st1 b hb
    obtain ⟨g', s1, hp, h⟩ := state_bind_ok h
    obtain ⟨e, rfl⟩ := state_pure_ok h
    cases e
    exact ⟨body, b, hb, hp⟩

/-! ## Results that are kept -/

/-- A result that the session knows is given out, and nothing changes. -/
theorem applyCached_known (h : s.cached p.key f.name = some g) : p.applyCached st f s = .ok g s := by
  rw [applyCached, get_bind_apply, h]
  rfl

/-- Otherwise the function is rebuilt, and the result kept. -/
theorem applyCached_new (h : s.cached p.key f.name = none) :
    p.applyCached st f s = (do
      let r ← p.apply st f
      modify (·.insertCached p.key f.name r.1)
      return r.1 : Compile Func) s := by
  rw [applyCached, get_bind_apply, h]

theorem applyCached_ok (h : p.applyCached st f s = .ok g s') :
    s.cached p.key f.name = some g ∧ s' = s ∨
      ∃ st' s1, p.apply st f s = .ok (g, st') s1 ∧ s' = s1.insertCached p.key f.name g := by
  cases hcached : s.cached p.key f.name with
  | some k =>
    rw [applyCached_known hcached] at h
    cases h
    exact .inl ⟨rfl, rfl⟩
  | none =>
    rw [applyCached_new hcached] at h
    obtain ⟨⟨k, st'⟩, s1, hk, h⟩ := state_bind_ok h
    obtain ⟨_, s2, hinsert, h⟩ := state_bind_ok h
    cases hinsert
    obtain ⟨rfl, rfl⟩ := state_pure_ok h
    exact .inr ⟨st', s1, hk, rfl⟩

/-- Keeping results does not fail, rebuilding does. -/
theorem applyCached_error (h : p.applyCached st f s = .error e s') : p.apply st f s = .error e s' := by
  cases hcached : s.cached p.key f.name with
  | some g =>
    rw [applyCached_known hcached] at h
    cases h
  | none =>
    rw [applyCached_new hcached] at h
    rcases state_bind_error h with h | ⟨_, _, -, h⟩
    · exact h
    rcases state_bind_error h with h | ⟨_, _, -, h⟩
    · cases h
    · cases h

end Pass

end ArrayIR
