/-
  ArrayIR.Proofs.Growth.History — what a session holds, it holds for good.

  A session starts empty and is changed by operations, each of which may fail
  (`Session.Op.after`). Whatever they are, every function and every result of a pass
  stays (`Session.run_retains`); only what is registered by hand need not verify
  (`Session.Op.after_extends`).

  A call reaches functions by the names in their code and in the values passed. If all
  of them are registered (`Session.Rooted`), then nothing registered later makes a
  difference to it (`Session.call_eq_of_grows`).
-/

import ArrayIR.Proofs.Growth.Extends
import ArrayIR.Proofs.Regime

namespace ArrayIR

open Session (Grows Retains Extends)

/-! ## Operations -/

/-- What can be done with a session. -/
inductive Session.Op where
  | fresh (name : String)
  | configure (options : Options)
  | register (f : Func)
  | apply (stage : Stage) (f : Func)
  | applyCached (stage : Stage) (f : Func)
  | pipeline (stages : List Stage) (f : Func)
  | lower (f : Func)

namespace Session

namespace Op

/-- The session after an operation, be it a success or a failure. -/
def after (s : Session) : Op → Session
  | fresh name => (s.fresh name).2
  | configure options => { s with options := options }
  | register f => (s.register f).toOption.getD s
  | apply stage f => Compile.after (stage.apply f) s
  | applyCached stage f => Compile.after (stage.applyCached f) s
  | pipeline stages f => Compile.after (Stage.pipeline stages f) s
  | lower f => Compile.after (ArrayIR.lower f) s

/-- The operation registers a function as it is given. -/
def isRegister : Op → Bool
  | register _ => true
  | _ => false

variable {s : Session}

/-- Operations other than registering by hand extend the session. -/
theorem after_extends (hs : s.Published) (op : Op) (h : op.isRegister = false) : Extends s (op.after s) := by
  cases op with
  | register f => cases h
  | fresh name => exact .of_eq rfl rfl
  | configure options => exact .of_eq rfl rfl
  | apply stage f => exact (stage.apply_extends f hs).after_le
  | applyCached stage f => exact (stage.applyCached_extends f hs).after_le
  | pipeline stages f => exact (Stage.pipeline_extends stages f hs).after_le
  | lower f => exact (lower_extends f hs).after_le

theorem after_retains (hs : s.Published) (op : Op) : Retains s (op.after s) := by
  cases op with
  | register f =>
    cases h : s.register f with
    | error e =>
      rw [after, h]
      exact .refl s
    | ok t =>
      rw [after, h]
      exact .register h
  | _ => exact (after_extends hs _ rfl).toRetains

end Op

/-- The session after some operations, one after the other. -/
def run (s : Session) (ops : List Op) : Session := ops.foldl Op.after s

theorem run_append (s : Session) (ops more : List Op) : s.run (ops ++ more) = (s.run ops).run more := List.foldl_append

variable {s t : Session}

theorem run_retains (hs : s.Published) (ops : List Op) : Retains s (s.run ops) := by
  induction ops generalizing s with
  | nil => exact .refl s
  | cons op ops ih =>
    have hop := Op.after_retains hs op
    exact hop.trans (ih (hop.published hs))

/-- A session that has come about by operations. -/
def history (options : Options) (ops : List Op) : Session := run { options := options } ops

theorem history_concat (options : Options) (ops : List Op) (op : Op) :
    history options (ops ++ [op]) = op.after (history options ops) := by
  rw [history, run_append]
  rfl

theorem history_published (options : Options) (ops : List Op) : (history options ops).Published := by
  refine (run_retains ?_ ops).published ?_
  all_goals
    intro key fn g hg
    cases hg

end Session

/-! ## Results that are known -/

section Known

variable {stage : Stage} {s t : Session} {f g : Func}

/-- A result that is known is given out, and nothing changes. -/
theorem Stage.applyCached_eq (h : s.cached stage.key f.name = some g) : stage.applyCached f s = .ok g s := by
  obtain ⟨σ, p, st, hkey, -, -, hcached⟩ := stage.as_pass f s
  rw [hcached]
  exact Pass.applyCached_known (hkey ▸ h)

/-- What a stage has given is known. -/
theorem Stage.cached_of_applyCached (h : stage.applyCached f s = .ok g t) : t.cached stage.key f.name = some g := by
  obtain ⟨σ, p, st, hkey, -, -, hcached⟩ := stage.as_pass f s
  rw [hcached] at h
  rw [← hkey]
  rcases Pass.applyCached_ok h with ⟨hknown, rfl⟩ | ⟨_, s1, -, rfl⟩
  · exact hknown
  · rw [Session.cached_insertCached, if_pos rfl]

end Known

/-! ## Calls -/

namespace Session

variable {s t : Session} {fn : FnName} {args : List Value}

/-- The name is taken, and so is every name that is reached from it through the names that code mentions. -/
def Rooted (s : Session) (fn : FnName) : Prop := ∃ f, s.find? fn = some f ∧ s.Secure Expr.mentions (fun _ => True) f

/-- A call that reaches registered functions only is not affected by what is registered later: it gives the
same value or the same fault, and leaves the same store. -/
theorem call_eq_of_grows (h : Grows s t) (hfn : s.Rooted fn) (hargs : ∀ v ∈ args, ∀ k ∈ v.mentions, s.Rooted k)
    (fuel : Nat) (st : Store) : t.call fuel fn args st = s.call fuel fn args st := by
  have hcall : (Regime.calling {k | s.Rooted k} fun _ => False).Callers (s.call fuel) (t.call fuel) := by
    refine call_obeys ?_ ?_ (.inl rfl)
    · rintro k ⟨f, hf, -⟩
      rw [hf, h.find hf]
    · rintro k ⟨f, hf, hsecure⟩ f' hf'
      cases hf.symm.trans hf'
      exact ⟨fun e he => (hsecure.node he).2, fun _ _ => id⟩
  rcases hcall fn hfn args (fun v hv => Regime.calling_holds (hargs v hv)) st trivial with ⟨heq, -⟩ | ⟨_, _, _, hfalse⟩
  · exact heq.symm
  · exact hfalse.elim

end Session

/-! ## The whole history of a session -/

/-- At any point in the history of a session, and at any later point: functions and results are still there,
unchanged; functions have the names they are found under, and results are registered; what a pass publishes
verifies; a result that was given is given again, and nothing changes; and calls that reach registered
functions only give what they gave. -/
theorem Session.history_append_only (options : Options) (ops later : List Op) :
    let s := history options ops
    let t := history options (ops ++ later)
    (∀ fn f, s.find? fn = some f → t.find? fn = some f) ∧
    (∀ key fn g, s.cached key fn = some g → t.cached key fn = some g) ∧
    (∀ fn f, s.find? fn = some f → f.name = fn) ∧
    (∀ key fn g, s.cached key fn = some g → s.find? g.name = some g) ∧
    (∀ (op : Op) fn g, op.isRegister = false → s.find? fn = none → (op.after s).find? fn = some g → g.verify = .ok ()) ∧
    (∀ (stage stage' : Stage) f g u, stage.applyCached f s = .ok g u → stage'.key = stage.key →
      stage'.applyCached f (u.run later) = .ok g (u.run later)) ∧
    ∀ fn args, s.Rooted fn → (∀ v ∈ args, ∀ k ∈ v.mentions, s.Rooted k) →
      ∀ fuel st, t.call fuel fn args st = s.call fuel fn args st := by
  intro s t
  have hs : s.Published := history_published options ops
  have hretains : Retains s t := by
    have ht : t = s.run later := run_append _ ops later
    rw [ht]
    exact run_retains hs later
  refine ⟨fun _ _ => hretains.grows.find, fun _ _ _ => hretains.cached, fun _ _ => name_of_find?,
    fun key fn g hg => (hs key fn g hg).1,
    fun op _ _ hop => (Op.after_extends hs op hop).verified, ?_,
      fun _ _ hfn hargs => call_eq_of_grows hretains.grows hfn hargs⟩
  intro stage stage' f g u hgiven hkey
  have hu : u.Published := by
    have hextends := stage.applyCached_extends f hs
    rw [hgiven] at hextends
    exact hextends.1.published hs
  exact Stage.applyCached_eq (hkey ▸ (run_retains hu later).cached (Stage.cached_of_applyCached hgiven))

namespace Elimination

open Sample (double)

/-- Both functions are registered, and there is nothing else to reach. -/
theorem doubleAll_rooted (ops : List Session.Op) :
    (Session.history {} (.register double :: .register doubleAll :: ops)).Rooted "doubleAll" := by
  let s : Session := { functions := [doubleAll, double] }
  have hs : s.Published := fun _ _ _ hg => by cases hg
  have hdouble : s.Secure Expr.mentions (fun _ => True) double := by
    have hnone : ∀ e ∈ double.subterms, e.mentions = [] := by decide
    exact Session.secure_of_nodes fun e he => ⟨trivial, fun fn hfn => absurd (hnone e he ▸ hfn) List.not_mem_nil⟩
  have hdoubleAll : s.Secure Expr.mentions (fun _ => True) doubleAll := by
    have honly : ∀ e ∈ doubleAll.subterms, ∀ fn ∈ e.mentions, fn = "double" := by decide
    exact Session.secure_of_nodes fun e he => ⟨trivial, fun fn hfn => ⟨double, honly e he fn hfn ▸ rfl, hdouble⟩⟩
  have hgrows : Grows s (s.run ops) := (Session.run_retains hs ops).grows
  exact ⟨doubleAll, hgrows.find rfl, hdoubleAll.mono hgrows⟩

def doublingStart : List Session.Op := [.register double, .register doubleAll]

/-- Doubling a vector, lowered once. -/
def doublingOnce : List Session.Op := doublingStart ++ [.applyCached .adverbs doubleAll]

def doublingLater : List Session.Op := [.lower doubleAll, .register doubleTiles, .lower doubleTiles]

/-- Doubling a vector has been lowered once, and is lowered again, also as part of doubling tile by tile. -/
theorem doubling_append_only :
    (∃ k, (Session.history {} doublingOnce).find? "doubleAll.10" = some k ∧ k.verify = .ok () ∧
      k.name = "doubleAll.10" ∧
      (Session.history {} (doublingOnce ++ doublingLater)).find? "doubleAll.10" = some k) ∧
    (∃ g u, Stage.adverbs.applyCached doubleAll (Session.history {} doublingStart) = .ok g u ∧
      Stage.adverbs.applyCached doubleAll (u.run doublingLater) = .ok g (u.run doublingLater) ∧
      (Session.history {} doublingOnce).find? g.name = some g ∧
      (Session.history {} (doublingOnce ++ doublingLater)).cached Stage.adverbs.key "doubleAll" = some g) ∧
    ∀ v fuel st, (Session.history {} (doublingOnce ++ doublingLater)).call fuel "doubleAll" [.array v] st =
      (Session.history {} doublingOnce).call fuel "doubleAll" [.array v] st := by
  obtain ⟨-, -, -, -, hverified, hrepeat, -⟩ := Session.history_append_only {} doublingStart doublingLater
  obtain ⟨hfind, hcached, hname, hregistered, -, -, hcall⟩ := Session.history_append_only {} doublingOnce doublingLater
  have hnone : (Session.history {} doublingStart).find? "doubleAll.10" = none :=
    Option.isNone_iff_eq_none.mp (by decide +kernel)
  obtain ⟨k, hk⟩ : ∃ k, (Session.history {} doublingOnce).find? "doubleAll.10" = some k :=
    Option.isSome_iff_exists.mp (by decide +kernel)
  obtain ⟨g, u, hgiven⟩ := exists_of_succeeds
    (show succeeds (Stage.adverbs.applyCached doubleAll (Session.history {} doublingStart)) = true by decide +kernel)
  have hg : (Session.history {} doublingOnce).cached Stage.adverbs.key "doubleAll" = some g := by
    rw [doublingOnce, Session.history_concat, Session.Op.after, Compile.after, hgiven]
    exact Stage.cached_of_applyCached hgiven
  have hrooted : (Session.history {} doublingOnce).Rooted "doubleAll" :=
    doubleAll_rooted [.applyCached .adverbs doubleAll]
  refine ⟨⟨k, hk, ?_, hname _ k hk, hfind _ k hk⟩,
    ⟨g, u, hgiven, hrepeat .adverbs .adverbs doubleAll g u hgiven rfl, hregistered _ _ g hg, hcached _ _ g hg⟩, ?_⟩
  · rw [doublingOnce, Session.history_concat] at hk
    exact hverified (.applyCached .adverbs doubleAll) _ k rfl hnone hk
  · intro v
    refine hcall "doubleAll" [.array v] hrooted fun x hx fn hfn => ?_
    rw [List.mem_singleton.mp hx] at hfn
    exact absurd hfn List.not_mem_nil

end Elimination

end ArrayIR
