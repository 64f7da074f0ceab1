/-
  ArrayIR.Proofs.Idle — passes that have nothing to do.

  Rebuilding takes a function apart and puts it together again: expressions from their
  children, merges from their names and two lists of sides, blocks from what is emitted
  into scopes of their own. A pass that leaves expressions, assignments, names and loops
  as they are leaves the whole body as it is (`Pass.Idle.stmts`), and what it publishes
  is the function under a new name.

  That is so for the pass that changes nothing, and for unrolling by one. Lowering tiled
  adverbs looks at the functions that are called or referred to; if no tiled adverb is
  reached it uses them as they are, and goes through with it if it finds all of them
  (`Tiling.idle`).
-/

import ArrayIR.Proofs.Definitions
import ArrayIR.Proofs.Discipline.Replacing
import ArrayIR.Proofs.Building.Copying
import ArrayIR.Proofs.Tiling.Search
import ArrayIR.Proofs.Unrolling.Emitted
import ArrayIR.Stage

namespace ArrayIR

/-! ## Computations that give a known result -/

section Settles

variable {α β σ : Type} {sure : Prop}

/-- The computation has ended with `a`, in the state `s`. Where that is not `sure`, it may have failed instead. -/
def Settles (sure : Prop) (a : α) (s : σ) (r : EStateM.Result Fault σ α) : Prop :=
  r = .ok a s ∨ ¬ sure ∧ ∃ e t, r = .error e t

namespace Settles

variable {s s1 s2 : σ} {a : α} {c : β} {b b1 b2 : Builder} {st st1 st2 : σ}

theorem ok {r : EStateM.Result Fault σ α} (h : Settles sure a s r) (hsure : sure) : r = .ok a s :=
    h.resolve_right fun h => h.1 hsure

theorem bind {x : EStateM Fault σ α} {f : α → EStateM Fault σ β} (h : Settles sure a s1 (x s))
    (h' : Settles sure c s2 (f a s1)) :
    Settles sure c s2 ((x >>= f) s) := by
  rcases h with h | ⟨hsure, e, t, h⟩
  · rwa [state_bind_of_ok h]
  · refine .inr ⟨hsure, e, t, ?_⟩
    show EStateM.bind x f s = _
    rw [EStateM.bind, h]

theorem passBind {x : PassM σ α} {f : α → PassM σ β} (h : Settles sure (a, st1) b1 (x st b))
    (h' : Settles sure (c, st2) b2 (f a st1 b1)) : Settles sure (c, st2) b2 ((x >>= f) st b) :=
  bind (f := fun p : α × σ => f p.1 p.2) h h'

theorem passLift {x : Build α} (h : Settles sure a b1 (x b)) : Settles sure (a, st) b1 ((liftM x : PassM σ α) st b) :=
  bind (f := fun a => pure (a, st)) h (.inl rfl)

theorem lift {x : Except Error α} (h : x = .ok a ∨ ¬ sure ∧ ∃ e, x = .error e) :
    Settles sure a s ((liftM x : EStateM Fault σ α) s) := by
  rcases h with rfl | ⟨hsure, e, rfl⟩
  · exact .inl rfl
  · exact .inr ⟨hsure, _, _, rfl⟩

theorem passMapM {xs : List α} {f : α → PassM σ β} {g : α → β} (h : ∀ x ∈ xs, Settles sure (g x, st) b (f x st b)) :
    Settles sure (xs.map g, st) b (xs.mapM f st b) := by
  induction xs with
  | nil => exact .inl rfl
  | cons x xs ih =>
    rw [List.mapM_cons]
    obtain ⟨hx, hxs⟩ := List.forall_mem_cons.mp h
    exact hx.passBind ((ih hxs).passBind (.inl rfl))

/-- A scope of its own, in which the statements `ss` are emitted. -/
theorem nested {x : PassM σ α} {w : Session} {env : TypeEnv} {ss out : Block}
    (h : Settles sure (a, st1) ⟨w, env, ss⟩ (x st ⟨w, env, []⟩)) :
    Settles sure ((ss, a), st1) ⟨w, env, out⟩ (PassM.nested x st ⟨w, env, out⟩) := by
  rcases h with h | ⟨hsure, e, t, h⟩
  · exact .inl (pass_nested_of_ok (b := ⟨w, env, out⟩) h)
  · refine .inr ⟨hsure, e, { t with block := out }, ?_⟩
    show EStateM.bind (Build.nested (x st)) _ _ = _
    rw [EStateM.bind, Build.nested, h]

end Settles

end Settles

/-! ## The walk -/

/-- The function under a fresh name. -/
def Session.renamed (s : Session) (f : Func) : Func := { f with name := (s.fresh f.name).1 }

/-- The session with the function under a fresh name, and with nothing else that is new. -/
def Session.withRenamed (s : Session) (f : Func) : Session :=
    { (s.fresh f.name).2 with functions := s.renamed f :: s.functions }

section Walk

variable {σ : Type} {p : Pass σ} {sure : Prop} {s : Session} {env : TypeEnv} {st : σ} {E : Expr → Prop}

/-- The pass leaves the expressions in `E`, assignments of them at their types, names and loops as they are, and
its own state as well, whatever has been emitted by then. -/
structure Pass.Idle (p : Pass σ) (sure : Prop) (s : Session) (env : TypeEnv) (st : σ) (E : Expr → Prop) : Prop where
  expr {e : Expr} (he : E e) (out : Block) : Settles sure (e, st) ⟨s, env, out⟩ (p.expr e st ⟨s, env, out⟩)
  assign {t v : Expr} (ht : E t) (hv : E v) (hty : ∀ x u, t = .var x u → u = v.ty) (out : Block) :
    Settles sure (.assign t v, st) ⟨s, env, out⟩ (p.assign t v st ⟨s, env, out⟩)
  binding (x : VarName) : p.binding x = pure x
  loop (c : Counter) (body : Block) (m : Merge) : p.loop c body m = pure (.forLoop c body m)

/-- The statement's own expressions are in `E`, and if it defines a variable it does so at the type of the value. -/
def Stmt.Over (E : Expr → Prop) (t : Stmt) : Prop := (∀ e ∈ t.exprs, E e) ∧ ∀ x u v, t = .assign (.var x u) v → u = v.ty

namespace Pass.Idle

variable {m : Merge} {ss : List Stmt}

theorem side (h : p.Idle sure s env st E) {pick : Expr × Expr → Expr} (hm : ∀ v ∈ m.values, E (pick v)) (out : Block) :
    Settles sure (m.values.map pick, st) ⟨s, env, out⟩ (p.side m pick st ⟨s, env, out⟩) :=
  .passMapM fun v hv => h.expr (hm v hv) out

theorem names (h : p.Idle sure s env st E) (m : Merge) (out : Block) :
    Settles sure (m.keys, st) ⟨s, env, out⟩ (p.names m st ⟨s, env, out⟩) := by
  have hkeys : Settles sure (m.keys.map id, st) ⟨s, env, out⟩ (p.names m st ⟨s, env, out⟩) := by
    refine .passMapM fun x _ => ?_
    rw [h.binding]
    exact .inl rfl
  rwa [List.map_id] at hkeys

/-- A block, and the side of a merge that is rebuilt at its end. -/
theorem scope (h : p.Idle sure s env st E) (hss : Settles sure ((), st) ⟨s, env, [] ++ ss⟩ (p.stmts ss st ⟨s, env, []⟩))
    {pick : Expr × Expr → Expr} (hm : ∀ v ∈ m.values, E (pick v)) (out : Block) :
    Settles sure ((ss, m.values.map pick), st) ⟨s, env, out⟩
      (PassM.nested (do p.stmts ss; p.side m pick) st ⟨s, env, out⟩) :=
  .nested (hss.passBind (h.side hm ss))

mutual

/-- A statement comes back as it was. -/
theorem stmt (h : p.Idle sure s env st E) : ∀ {t : Stmt} (out : Block), (∀ q ∈ t.parts, q.Over E) →
    Settles sure (t, st) ⟨s, env, out⟩ (p.stmt t st ⟨s, env, out⟩)
  | .assign target value, out, ht => by
    obtain ⟨hexprs, hty⟩ := ht _ (List.mem_singleton_self _)
    rw [Pass.stmt]
    refine h.assign (hexprs _ List.mem_cons_self) (hexprs _ (List.mem_cons_of_mem _ List.mem_cons_self))
      (fun x u hx => ?_) out
    exact hty x u value (by rw [hx])
  | .ret value, out, ht => by
    rw [Pass.stmt]
    exact (h.expr ((ht _ (List.mem_singleton_self _)).1 _ List.mem_cons_self) out).passBind (.inl rfl)
  | .ite cond yes no m, out, ht => by
    rw [Stmt.parts, List.forall_mem_cons, List.forall_mem_append] at ht
    obtain ⟨⟨hexprs, -⟩, hyes, hno⟩ := ht
    have hm {e : Expr} (he : e ∈ m.exprs) : E e := hexprs e (List.mem_cons_of_mem _ he)
    rw [Pass.stmt]
    refine (h.expr (hexprs _ List.mem_cons_self) out).passBind ?_
    refine (h.scope (m := m) (stmts h [] hyes) (fun v hv => hm (Merge.fst_mem_exprs v hv)) out).passBind ?_
    refine (h.scope (m := m) (stmts h [] hno) (fun v hv => hm (Merge.snd_mem_exprs v hv)) out).passBind ?_
    refine (h.names m out).passBind (.inl ?_)
    rw [Unrolling.joined_same]
    rfl
  | .whileLoop cond body m, out, ht => by
    rw [Stmt.parts, List.forall_mem_cons] at ht
    obtain ⟨⟨hexprs, -⟩, hbody⟩ := ht
    have hm {e : Expr} (he : e ∈ m.exprs) : E e := hexprs e (List.mem_cons_of_mem _ he)
    rw [Pass.stmt]
    refine (h.side (fun v hv => hm (Merge.fst_mem_exprs v hv)) out).passBind ((h.names m out).passBind ?_)
    refine (h.expr (hexprs _ List.mem_cons_self) out).passBind ?_
    refine (h.scope (m := m) (stmts h [] hbody) (fun v hv => hm (Merge.snd_mem_exprs v hv)) out).passBind (.inl ?_)
    show EStateM.Result.ok (Stmt.whileLoop cond body (joined _ _ _), st) _ = _
    rw [Unrolling.joined_same]
  | .forLoop c body m, out, ht => by
    rw [Stmt.parts, List.forall_mem_cons] at ht
    obtain ⟨⟨hexprs, -⟩, hbody⟩ := ht
    rw [Stmt.exprs, List.forall_mem_cons, List.forall_mem_cons, List.forall_mem_cons] at hexprs
    obtain ⟨hstart, hstop, hstep, hm⟩ := hexprs
    rw [Pass.stmt]
    -- the left sides and all names are rebuilt before the body, the right sides at its end
    refine (h.expr hstart out).passBind ((h.expr hstop out).passBind ((h.expr hstep out).passBind ?_))
    refine (h.side (fun v hv => hm _ (Merge.fst_mem_exprs v hv)) out).passBind ((h.names m out).passBind ?_)
    rw [h.binding]
    refine .passBind (a := c.var) (.inl rfl) ?_
    refine (h.scope (m := m) (stmts h [] hbody) (fun v hv => hm _ (Merge.snd_mem_exprs v hv)) out).passBind (.inl ?_)
    show p.loop c body (joined _ _ _) st _ = _
    rw [h.loop, Unrolling.joined_same]
    rfl

/-- Statements are emitted as they were. -/
theorem stmts (h : p.Idle sure s env st E) : ∀ {ss : List Stmt} (out : Block), (∀ q ∈ Stmt.blockParts ss, q.Over E) →
    Settles sure ((), st) ⟨s, env, out ++ ss⟩ (p.stmts ss st ⟨s, env, out⟩)
  | [], out, _ => by
    rw [Pass.stmts, List.append_nil]
    exact .inl rfl
  | t :: ss, out, hss => by
    rw [Stmt.blockParts, List.forall_mem_append] at hss
    rw [Pass.stmts, List.append_cons]
    refine (stmt h out hss.1).passBind (.passBind (a := ()) (.inl rfl) ?_)
    exact stmts h (out ++ [t]) hss.2

end

/-- The body of a function comes back as it was. -/
theorem body {f : Func} (h : p.Idle sure s env st E)
    (henter : Settles sure ((), st) ⟨s, env, []⟩ (p.enter f st ⟨s, env, []⟩))
    (hf : ∀ q ∈ Stmt.blockParts f.body, q.Over E) : Settles sure (f.body, st) ⟨s, env, []⟩ (p.body f st ⟨s, env, []⟩) :=
  henter.passBind (.passBind (a := (f.body, ())) (.nested (h.stmts [] hf)) (.inl rfl))

end Pass.Idle

theorem Session.register_renamed (s : Session) (f : Func) :
    (s.fresh f.name).2.register (s.renamed f) = .ok (s.withRenamed f) ∨
      s.find? (s.fresh f.name).1 ≠ none ∧ ∃ e, (s.fresh f.name).2.register (s.renamed f) = .error e := by
  unfold Session.register
  cases hfree : s.find? (s.fresh f.name).1 with
  | none =>
    rw [show (s.fresh f.name).2.find? (s.renamed f).name = none from hfree]
    exact .inl rfl
  | some k =>
    rw [show (s.fresh f.name).2.find? (s.renamed f).name = some k from hfree]
    exact .inr ⟨Option.some_ne_none k, _, rfl⟩

/-- A pass that gives the body back publishes the function under a fresh name, if the name is free. -/
theorem Pass.apply_settles {f : Func} (hbody : Settles sure (f.body, st) ⟨s, f.env, []⟩ (p.body f st ⟨s, f.env, []⟩))
    (hleave : ∀ g, p.leave st g = .ok g) (hverify : f.verify = .ok ()) :
    Settles (sure ∧ s.find? (s.fresh f.name).1 = none) (s.renamed f, st) (s.withRenamed f) (p.apply st f s) := by
  unfold Pass.apply
  rcases hbody with hbody | ⟨hsure, e, t, hbody⟩
  · rw [hbody]
    have hregister := (s.register_renamed f).imp_right fun h => (⟨fun hboth => h.1 hboth.2, h.2⟩ : ¬ (sure ∧ _) ∧ _)
    have hpublish : Settles (sure ∧ s.find? (s.fresh f.name).1 = none) (s.renamed f) (s.withRenamed f)
        (p.publish st f f.env ([] ++ f.body) s) := by
      have hname : Settles (sure ∧ s.find? (s.fresh f.name).1 = none) (s.fresh f.name).1 (s.fresh f.name).2
          ((modifyGet (·.fresh f.name) : Compile String) s) := .inl rfl
      refine hname.bind ((Settles.lift (.inl (hleave _))).bind ((Settles.lift (.inl hverify)).bind ?_))
      refine .bind (a := (s.fresh f.name).2) (.inl rfl) ((Settles.lift hregister).bind (.inl rfl))
    exact hpublish.bind (.inl rfl)
  · rw [hbody]
    exact .inr ⟨fun h => hsure h.1, e, _, rfl⟩

end Walk

/-! ## Functions that reach no tiled adverb -/

/-- The type that a reference to a function or a closure over one should have, by its function and what it captures;
that of any other expression is its own. -/
def Expr.literalTy : Expr → Ty
  | fnRef fn _ => .fn fn
  | closure fn captured _ => .closure fn (captured.map ty)
  | e => e.ty

namespace Session

variable {s : Session} {f k : Func} {fn : FnName}

/-- The function has no tiled adverb, and nothing that it refers to leads to one. -/
structure Plain (s : Session) (f : Func) : Prop where
  own {e : Expr} (he : f.Has e) : e.isTiled = false
  refers {fn : FnName} (hfn : f.Refers fn) : ¬ s.LeadsToTiled fn

/-- All that the function refers to is found, and so is all that this leads to. -/
def Complete (s : Session) (f : Func) : Prop := ∀ {fn r : FnName}, f.Refers fn → s.Leads fn r → ∃ k, s.find? r = some k

theorem plain_complete_of_reachesTiled (hf : s.find? f.name = some f) (h : s.reachesTiled f = .ok false) :
    s.Plain f ∧ s.Complete f := by
  have hleads {fn : FnName} (hfn : f.Refers fn) : s.Leads f.name fn := Leads.start.refer hf hfn
  refine ⟨⟨fun he => ?_, fun hfn htiled => not_leadsToTiled h (.of_leads (hleads hfn) htiled)⟩, fun hfn hr => ?_⟩
  · obtain ⟨k, hk, hplain⟩ := plain_of_reachesTiled h .start
    cases hk.symm.trans hf
    exact hplain _ he
  · obtain ⟨k, hk, -⟩ := plain_of_reachesTiled h ((hleads hfn).trans hr)
    exact ⟨k, hk⟩

theorem Plain.reached (h : s.Plain f) (hfn : f.Refers fn) (hk : s.find? fn = some k) : s.Plain k where
  own {e} he := Bool.eq_false_iff.mpr fun htiled => h.refers hfn ⟨fn, k, e, .start, hk, he, htiled⟩
  refers hr htiled := h.refers hfn (.of_leads (Leads.start.refer hk hr) htiled)

theorem Complete.reached (h : s.Complete f) (hfn : f.Refers fn) (hk : s.find? fn = some k) : s.Complete k :=
  fun hr hq => h hfn ((Leads.start.refer hk hr).trans hq)

theorem Plain.reachesTiled (h : s.Plain f) (hfn : f.Refers fn) (hk : s.find? fn = some k) :
    s.reachesTiled k = .ok false ∨ ¬ s.Complete f ∧ ∃ e, s.reachesTiled k = .error e := by
  have hname := name_of_find? hk
  cases hr : s.reachesTiled k with
  | error e =>
    obtain ⟨r, hr, hnone, -⟩ := unknown_of_reachesTiled hr
    refine .inr ⟨fun hall => ?_, e, rfl⟩
    obtain ⟨_, hg⟩ := hall hfn (hname ▸ hr)
    cases hnone.symm.trans hg
  | ok b =>
    cases b with
    | false => exact .inl rfl
    | true => exact absurd (hname ▸ leadsToTiled_of_reachesTiled hr) (h.refers hfn)

theorem Plain.ownTiles (h : s.Plain f) : f.ownTiles = 0 := by
  refine List.countP_eq_zero.mpr fun e he => ?_
  have hplain := h.own (Func.mem_subterms_iff.mp he)
  cases e with
  | tiledMap | tiledReduce => cases hplain
  | _ => exact Bool.false_ne_true

/-- No sizes are passed at run time. -/
theorem Plain.numDynamicTiles (h : s.Plain f) :
    s.numDynamicTiles f = .ok 0 ∨ ¬ s.Complete f ∧ ∃ e, s.numDynamicTiles f = .error e := by
  rw [Session.numDynamicTiles, countTiles, if_neg (by simp), h.ownTiles]
  have happlied : ∀ fn ∈ f.applied, f.Refers fn := fun fn => Func.refers_of_applied
  generalize f.applied = fns at happlied ⊢
  induction fns with
  | nil => exact .inl rfl
  | cons fn fns ih =>
    obtain ⟨hfn, hfns⟩ := List.forall_mem_cons.mp happlied
    rw [List.foldlM_cons]
    cases hk : s.find? fn with
    | none =>
      rw [lookup, hk]
      refine .inr ⟨fun hall => ?_, _, rfl⟩
      obtain ⟨_, hg⟩ := hall hfn .start
      cases hk.symm.trans hg
    | some k =>
      rw [lookup_eq_ok_iff.mpr hk]
      show (s.reachesTiled k >>= _) >>= _ = _ ∨ _ ∧ ∃ e, (s.reachesTiled k >>= _) >>= _ = _
      rcases h.reachesTiled hfn hk with hr | ⟨hall, e, hr⟩
      · rw [hr]
        exact ih hfns
      · rw [hr]
        exact .inr ⟨hall, e, rfl⟩

end Session

/-! ## Lowering where nothing is tiled -/

namespace Tiling

section

variable {α : Type} {sure : Prop} {lower : LowerFn} {s : Session} {f k : Func} {fn : FnName} {env : TypeEnv}
  {out : Block} {st st' : State}

/-- What is done with a function that is looked up, if it is found. -/
theorem lookupFn_settles {x : Func → Lower α} {a : α} {b : Builder} (hsure : sure → ∃ k, s.find? fn = some k)
    (hx : ∀ k, s.find? fn = some k → Settles sure (a, st') b (x k st ⟨s, env, out⟩)) :
    Settles sure (a, st') b (((liftM (Build.lookupFn fn) : Lower Func) >>= x) st ⟨s, env, out⟩) := by
  show Settles sure (a, st') b (((liftM (liftM (s.lookup fn) : Build Func) : Lower Func) >>= x) st ⟨s, env, out⟩)
  cases hk : s.find? fn with
  | none =>
    rw [Session.lookup, hk]
    refine .inr ⟨fun h => ?_, _, _, rfl⟩
    obtain ⟨_, hg⟩ := hsure h
    cases hk.symm.trans hg
  | some k =>
    rw [Session.lookup_eq_ok_iff.mpr hk]
    exact hx k hk

/-- A function that the plain one refers to is used as it is. -/
theorem function_settles (h : s.Plain f) (hfn : f.Refers fn) (hk : s.find? fn = some k) :
    Settles (s.Complete f) ((k, 0), st) ⟨s, env, out⟩ (function lower k st ⟨s, env, out⟩) :=
  .passBind (.passLift (.lift (h.reachesTiled hfn hk))) (.inl rfl)

/-- A closure that is typed by what it captures passes that, as it is rebuilt. -/
theorem captures_settles {r : Replacement Lower} {captured : List Expr} {b : Builder}
    (hkids : Settles sure (captured, st) b (r.kids st b)) :
    Settles sure (captured, st) b (r.captures (.closureOver fn captured) st b) := by
  have hcaptures : Build.captures (.closureOver fn captured) = .ok captured := if_pos (List.length_map _).symm
  refine .passBind (.passLift (.lift (.inl hcaptures))) ?_
  -- without captures the children are not rebuilt at all
  cases captured with
  | nil => exact .inl rfl
  | cons c cs => exact hkids

/-- A callable that is passed around is used as it is: what is made of it is made of its function and of what it
captures. -/
theorem callableValue_settles {e : Expr} {r : Replacement Lower} {tys : List Ty} {captured : List Expr}
    {x : Callee → Lower Expr} (h : s.Plain f) (he : f.Has e) (hty : e.ty.callee? = some (fn, tys))
    (hcaptured : Settles (s.Complete f) (captured, st) ⟨s, env, out⟩ (r.captures e st ⟨s, env, out⟩))
    (hx : ∀ k : Func, k.name = fn → Settles (s.Complete f) (e, st) ⟨s, env, out⟩
      (x ⟨k, captured, 0⟩ st ⟨s, env, out⟩)) :
    Settles (s.Complete f) (e, st) ⟨s, env, out⟩ ((do
      let g ← Build.callee e
      if 0 < (← numTiles g) then fail (.dynamicTilesInCallable g.name) else x (← callee lower e r) : Lower Expr)
        st ⟨s, env, out⟩) := by
  have hfn : f.Refers fn := .type he hty
  have hsure (hall : s.Complete f) : ∃ k, s.find? fn = some k := hall hfn .start
  have hcallee : Build.callee e = Build.lookupFn fn := by rw [Build.callee, hty]
  rw [callee, hcallee]
  refine lookupFn_settles hsure fun k hk => ?_
  -- the count may fail where the function's own references lead to a name that is not taken
  have htiles := (h.reached hfn hk).numDynamicTiles.imp_right fun hnot =>
    (⟨fun hall => hnot.1 (Session.Complete.reached hall hfn hk), hnot.2⟩ : ¬ s.Complete f ∧ _)
  refine .passBind (.passLift (.lift htiles)) ?_
  -- the function is looked up a second time
  refine .passBind (lookupFn_settles hsure fun k' hk' => ?_) (hx k (Session.name_of_find? hk))
  cases hk.symm.trans hk'
  exact hcaptured.passBind ((function_settles h hfn hk).passBind (.inl rfl))

/-- Every expression of the plain function comes back as it was. -/
theorem expr_settles {e : Expr} (h : s.Plain f) (hliterals : ∀ e, f.Has e → e.ty = e.literalTy)
    (hretyped : st.retyped = .empty) (he : f.Has e) (out : Block) :
    Settles (s.Complete f) (e, st) ⟨s, env, out⟩ (expr lower e st ⟨s, env, out⟩) := by
  induction e using Expr.induction with
  | step e ih =>
    have hkids : Settles (s.Complete f) (e.children, st) ⟨s, env, out⟩
        ((e.children.map (Expr.replace (step lower))).mapM (·.self) st ⟨s, env, out⟩) := by
      have hmap : Settles (s.Complete f) (e.children.map id, st) ⟨s, env, out⟩
          (e.children.mapM (expr lower) st ⟨s, env, out⟩) :=
        .passMapM fun c hc => ih c hc (Func.has_child he hc)
      rw [List.map_id] at hmap
      rwa [List.mapM_map]
    have hrebuild : Settles (s.Complete f) (e, st) ⟨s, env, out⟩
        (e.rebuild (e.children.map (Expr.replace (step lower))) st ⟨s, env, out⟩) := by
      refine hkids.passBind (.inl ?_)
      rw [e.withChildren_children]
      rfl
    rw [expr, Expr.self_replace]
    cases e with
    | tiledMap | tiledReduce => cases h.own he
    | var x t =>
      refine .inl ?_
      show EStateM.Result.ok (Expr.var x ((st.retyped.get? x).getD t), st) _ = _
      rw [hretyped]
      rfl
    | call g args t =>
      have hfn : f.Refers g := .call he
      refine lookupFn_settles (fun hall => hall hfn .start) fun k hk => ?_
      refine hkids.passBind ((function_settles h hfn hk).passBind (.passBind (a := none) (.inl rfl) (.inl ?_)))
      show EStateM.Result.ok (Expr.call k.name (args ++ []) t, st) _ = _
      rw [List.append_nil, Session.name_of_find? hk]
    | fnRef fn t =>
      cases show t = .fn fn from hliterals _ he
      refine callableValue_settles (x := fun c => pure (.fnRefTo c.fn.name)) h he rfl (.inl rfl) fun k hk => .inl ?_
      rw [← hk]
      rfl
    | closure fn captured t =>
      cases show t = .closure fn (captured.map Expr.ty) from hliterals _ he
      refine callableValue_settles (x := fun c => pure (.closureOver c.fn.name c.captured)) h he rfl
        (captures_settles hkids) fun k hk => .inl ?_
      rw [← hk]
      rfl
    | _ => exact hrebuild

theorem enter_settles {st : State} (h : s.Plain f) (hparam : st.param = none) :
    Settles (s.Complete f) ((), st) ⟨s, env, out⟩ (enter f st ⟨s, env, out⟩) := by
  refine .passBind (a := st) (.inl rfl) ?_
  rw [hparam]
  exact .passBind (.passLift (.lift h.numDynamicTiles)) (.inl rfl)

/-- Lowering a plain function. -/
theorem idle {sizes : List Int64} (h : s.Plain f) (hliterals : ∀ e, f.Has e → e.ty = e.literalTy) :
    (passIn s sizes).Idle (s.Complete f) s env { sizes := sizes } f.Has where
  expr he out := expr_settles h hliterals rfl he out
  assign {t v} ht hv hty out := by
    have hthen : Settles (s.Complete f) (Stmt.assign t v, ({ sizes := sizes } : State)) ⟨s, env, out⟩
        ((do return .assign (← expr (lowerAt s.numFunctions) t) v : Lower Stmt) { sizes := sizes } ⟨s, env, out⟩) :=
      (expr_settles h hliterals rfl ht out).passBind (.inl rfl)
    refine (expr_settles h hliterals rfl hv out).passBind ?_
    cases t with
    | var x u =>
      -- the value is of the target's type, so that this is not declared anew
      show Settles _ _ _ ((if v.ty ≠ u ∧ v.ty.isCallable then _ else _ : Lower Stmt) _ _)
      rwa [if_neg fun hne => hne.1 (hty x u rfl).symm]
    | _ => exact hthen
  binding _ := rfl
  loop _ _ _ := rfl

end

end Tiling

/-! ## Passes -/

namespace Pass

variable {s : Session} {f : Func}

/-- In a function that passes the check, definitions are at the types of their values. -/
theorem over_of_verify (hverify : f.verify = .ok ()) : ∀ q ∈ Stmt.blockParts f.body, q.Over f.Has := by
  intro q hq
  refine ⟨fun e he => Func.mem_subterms_iff.mp (Stmt.mem_blockSubterms_of_part hq e he), ?_⟩
  rintro x u v rfl
  obtain ⟨t, -, htys⟩ := ((WellFormed.function_iff.mp hverify).2.2 _ hq).1 _ List.mem_cons_self
  rw [htys u List.mem_cons_self, htys v.ty (List.mem_cons_of_mem _ List.mem_cons_self)]

variable {σ : Type} {p : Pass σ} {sure : Prop} {st : σ}

/-- A pass that has nothing to do on a function publishes it under a fresh name. -/
theorem Idle.apply (h : p.Idle sure s f.env st f.Has)
    (henter : Settles sure ((), st) ⟨s, f.env, []⟩ (p.enter f st ⟨s, f.env, []⟩))
    (hleave : ∀ g, p.leave st g = .ok g) (hverify : f.verify = .ok ()) :
    Settles (sure ∧ s.find? (s.fresh f.name).1 = none) (s.renamed f, st) (s.withRenamed f) (p.apply st f s) :=
  apply_settles (h.body henter (over_of_verify hverify)) hleave hverify

/-- A pass that leaves all expressions, assignments, names and loops as they are has nothing to do. -/
theorem idle_of_keeps {env : TypeEnv} {E : Expr → Prop}
    (hexpr : ∀ e, p.expr e = pure e) (hassign : ∀ t v, p.assign t v = pure (.assign t v))
    (hbinding : ∀ x, p.binding x = pure x) (hloop : ∀ c body m, p.loop c body m = pure (.forLoop c body m)) :
    p.Idle sure s env st E where
  expr {e} _ _ := by
    rw [hexpr]
    exact .inl rfl
  assign {t v} _ _ _ _ := by
    rw [hassign]
    exact .inl rfl
  binding := hbinding
  loop := hloop

theorem assign_rebuild (t v : Expr) :
    (do let v ← (v.replace Expr.rebuild).self; return .assign (← (t.replace Expr.rebuild).self) v : PassM σ Stmt) =
      pure (.assign t v) := by
  rw [Unrolling.replace_rebuild, pure_bind, Unrolling.replace_rebuild, pure_bind]

/-- A function that passes the check is published as it is, under a fresh name, and nothing else changes, by a pass with
nothing to do: one that leaves everything as it is, whatever its key; unrolling by one; and lowering tiled adverbs, with
any sizes, if none is reached and references to functions and closures over them are typed by what they are. It can fail
only if the fresh name is not free or, for the last, if a name that is referred to, directly or not, is not taken. -/
theorem idle_passes_rename (hverify : f.verify = .ok ()) :
    (∀ key, Settles (s.find? (s.fresh f.name).1 = none) (s.renamed f, ()) (s.withRenamed f)
      (({ identityPass with key := key } : Pass Unit).apply () f s)) ∧
    (∀ factor : UnrollFactor, factor.val = 1 → Settles (s.find? (s.fresh f.name).1 = none)
      (s.renamed f, ()) (s.withRenamed f) ((Unrolling.pass factor).apply () f s)) ∧
    (∀ sizes, s.Plain f → (∀ e, f.Has e → e.ty = e.literalTy) →
      Settles (s.Complete f ∧ s.find? (s.fresh f.name).1 = none) (s.renamed f, { sizes := sizes }) (s.withRenamed f)
        ((Tiling.passIn s sizes).apply { sizes := sizes } f s)) := by
  refine ⟨fun key => ?_, fun factor hone => ?_, fun sizes hplain hliterals => ?_⟩
  · have hidle : Pass.Idle ({ identityPass with key := key } : Pass Unit) True s f.env () f.Has :=
      idle_of_keeps Unrolling.replace_rebuild assign_rebuild (fun _ => rfl) fun _ _ _ => rfl
    simpa only [true_and] using hidle.apply (.inl rfl) (fun _ => rfl) hverify
  · have hidle : Pass.Idle (Unrolling.pass factor) True s f.env () f.Has := by
      refine idle_of_keeps Unrolling.replace_rebuild assign_rebuild (fun _ => rfl) fun c body m => ?_
      show liftM (Unrolling.loop factor c body m) = _
      rw [Unrolling.loop, if_pos hone]
      rfl
    simpa only [true_and] using hidle.apply (.inl rfl) (fun _ => rfl) hverify
  · exact (Tiling.idle hplain hliterals).apply (Tiling.enter_settles hplain rfl) (fun _ => rfl) hverify

end Pass

namespace Shifting

open Sample (double plus)

/-- Add to all elements of a vector what `n` doublings make of one: a loop, a call and a closure. -/
def shift : Func where
  name := "shift"
  params := ["a", "n"]
  paramTys := [.array .i64 1, .i64]
  result := .array .i64 1
  env := .ofList [("a", .array .i64 1), ("n", .i64), ("i", .i64), ("x", .i64), ("y", .i64),
    ("f", .closure "plus" [.i64])]
  body := [
    .forLoop ⟨"i", .int64 0, .var "n" .i64, .int64 1⟩ [.assign (.var "y" .i64) (.call "double" [.var "x" .i64] .i64)]
      (.ofList [("x", (.int64 1, .var "y" .i64))]),
    .assign (.var "f" (.closure "plus" [.i64])) (.closureOver "plus" [.var "x" .i64]),
    .ret (.map (.var "f" (.closure "plus" [.i64])) [.var "a" (.array .i64 1)] 0 (.array .i64 1))]

def shifting : Session := { functions := [shift, plus, double] }

/-- The three passes give the function back under the same fresh name. -/
theorem shift_renamed : shift.verify = .ok () ∧
    identityPass.apply () shift shifting = .ok (shifting.renamed shift, ()) (shifting.withRenamed shift) ∧
    (Unrolling.pass ⟨1, Nat.one_pos⟩).apply () shift shifting = .ok (shifting.renamed shift, ())
    (shifting.withRenamed shift) ∧
    (Tiling.passIn shifting [4]).apply { sizes := [4] } shift shifting =
      .ok (shifting.renamed shift, { sizes := [4] }) (shifting.withRenamed shift) := by
  have hverify : shift.verify = .ok () := rfl
  have hfree : shifting.find? (shifting.fresh shift.name).1 = none := by decide +kernel
  have hliterals : ∀ e ∈ shift.subterms, e.ty = e.literalTy := by decide
  obtain ⟨hplain, hall⟩ := Session.plain_complete_of_reachesTiled (s := shifting) (f := shift) rfl rfl
  obtain ⟨hidentity, hunroll, htiling⟩ := Pass.idle_passes_rename (s := shifting) hverify
  exact ⟨hverify, (hidentity _).ok hfree, (hunroll _ rfl).ok hfree,
    (htiling [4] hplain fun e he => hliterals e (Func.mem_subterms_iff.mpr he)).ok ⟨hall, hfree⟩⟩

end Shifting

end ArrayIR
