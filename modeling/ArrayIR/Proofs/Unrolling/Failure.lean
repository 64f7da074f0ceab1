/-
  ArrayIR.Proofs.Unrolling.Failure — when a function cannot be unrolled.

  A loop that steps by a constant and not upwards is refused. Nothing else makes the
  pass itself fail: the bounds are integers, so the arithmetic on them can be emitted,
  and every name that a copy renames is declared (`split_prepares`).

  What is emitted still has to pass the check. The end of the unrolled loop has the
  widest type among the bounds, and it is the start of the loop left over, whose counter
  has the type that the start had. So the check passes just if these agree (`Even`).

  The walk through a function says both at once (`stmts_end`): it ends with a failure
  if there is a loop that steps down, and otherwise with code that passes the check
  just if all the loops that were unrolled have even bounds.
-/

import ArrayIR.Proofs.Building.Copying
import ArrayIR.Proofs.Publish
import ArrayIR.Proofs.Unrolling.Emitted

namespace ArrayIR

open Stmt

namespace Unrolling

/-! ## Splitting a loop -/

/-- The loop passes the checks in the environment, and its counter has the type of its start. -/
structure Loop.Ready (l : Loop) (env : TypeEnv) : Prop where
  header : (Stmt.forLoop l.counter l.body l.merge).Ready env
  body : BlockReady env l.body
  counterTy : l.counterTy = l.counter.start.ty

/-- The end of the unrolled loop has the type of the start: the start is as wide as can be, or all bounds have
its type. -/
def Even (c : Counter) : Prop := c.start.ty = .i64 ∨ c.stop.ty = c.start.ty ∧ c.step.ty = c.start.ty

variable {x : VarName} {t : Ty}

section Split

variable {l : Loop} {env : TypeEnv} {r r' : Renaming}

/-- The bounds are integers, and so is what is computed from them. -/
theorem bounds_prepare (hl : l.Ready env) (factor : UnrollFactor) (b : Builder) :
    ∃ bigStep stop b' N out, l.bounds factor b = .ok (bigStep, stop) b' ∧ Prepares [] N True out [] b b' ∧
      (∀ e ∈ [l.counter.start, stop, bigStep], e.ty = .scalar .i32 ∨ e.ty = .i64) ∧
      (stop.ty = l.counterTy ↔ Even l.counter) := by
  have hscalar : ∀ e ∈ [l.counter.start, l.counter.stop, l.counter.step], ∃ s : ScalarTy, (s = .i32 ∨ s = .i64) ∧
      e.ty = .scalar s := by
    intro e he
    rcases hl.header.1.2 e he with h | h
    · exact ⟨.i32, .inl rfl, h⟩
    · exact ⟨.i64, .inr rfl, h⟩
  have hint : ∀ {s : ScalarTy}, s = .i32 ∨ s = .i64 → s.isInt = true := by
    rintro _ (rfl | rfl) <;> rfl
  obtain ⟨s, hs, hstart⟩ := hscalar _ List.mem_cons_self
  obtain ⟨t, ht, hstop⟩ := hscalar l.counter.stop (by simp)
  obtain ⟨d, hd, hstep⟩ := hscalar l.counter.step (by simp)
  have hconst : (l.const factor.val).ty = .scalar s := by
    rw [Loop.const, Build.scalar_ty, hl.counterTy, hstart]
    rfl
  obtain ⟨range, b1, N1, o1, hrun1, hty1, hprep1⟩ :=
    Build.prim_prepares (p := .sub) rfl ⟨hstop, hint ht⟩ ⟨hstart, hint hs⟩ "iter_range" b
  obtain ⟨bigStep, b2, N2, o2, hrun2, hty2, hprep2⟩ :=
    Build.prim_prepares (p := .mul) rfl ⟨hconst, hint hs⟩ ⟨hstep, hint hd⟩ "big_step" b1
  obtain ⟨bigSteps, b3, N3, o3, hrun3, hty3, hprep3⟩ := Build.prim_prepares (p := .div) rfl hty1 hty2 "big_steps" b2
  obtain ⟨trunc, b4, N4, o4, hrun4, hty4, hprep4⟩ := Build.prim_prepares (p := .mul) rfl hty3 hty2 "trunc" b3
  obtain ⟨stop, b5, N5, o5, hrun5, hty5, hprep5⟩ :=
    Build.prim_prepares (p := .add) rfl ⟨hstart, hint hs⟩ hty4 "unrolled_stop" b4
  refine ⟨bigStep, stop, b5, _, _, ?_, (((hprep1.andThen hprep2).andThen hprep3).andThen hprep4).andThen hprep5, ?_, ?_⟩
  · exact (state_bind_of_ok hrun1).trans ((state_bind_of_ok hrun2).trans ((state_bind_of_ok hrun3).trans
      ((state_bind_of_ok hrun4).trans (state_bind_of_ok hrun5))))
  · simp only [List.forall_mem_cons, hstart, hty5.1, hty2.1]
    rcases hs with rfl | rfl <;> rcases ht with rfl | rfl <;> rcases hd with rfl | rfl <;> decide
  · rw [Even, hl.counterTy, hstart, hstop, hstep, hty5.1]
    rcases hs with rfl | rfl <;> rcases ht with rfl | rfl <;> rcases hd with rfl | rfl <;> decide

theorem Loop.Ready.mono (hl : l.Ready env) {env' : TypeEnv} (henv : ∀ x t, env.get? x = some t → env'.get? x = some t) :
    l.Ready env' :=
  ⟨hl.header.mono henv, fun p hp => (hl.body p hp).mono henv, hl.counterTy⟩

theorem Loop.Ready.merge (hl : l.Ready env) : ∀ d ∈ l.merge.definitions, d.Declared env :=
  (List.forall_mem_cons.mp hl.header.1.1).2

theorem Loop.Ready.counter (hl : l.Ready env) : env.get? l.counter.var = some l.counterTy := by
  obtain ⟨t, ht, htys⟩ := (List.forall_mem_cons.mp hl.header.1.1).1
  rw [hl.counterTy, htys _ List.mem_cons_self]
  exact ht

theorem Loop.Ready.declared (hl : l.Ready env) (hx : x ∈ (Stmt.forLoop l.counter l.body l.merge).binds) :
    ∃ t, env.get? x = some t := by
  have hsound : BlockSound env [.forLoop l.counter l.body l.merge] := by
    rw [BlockSound, blockParts_singleton, Stmt.parts, List.forall_mem_cons]
    exact ⟨hl.header.1, hl.body.sound⟩
  exact hsound.declared (blockBinds_singleton _ ▸ hx)

/-- The values carried around the loop keep their types under other names. -/
theorem Loop.Ready.back (hl : l.Ready r.source) (hr : r.Typed) :
    ∀ p ∈ l.merge.values, (r.subst p.2).ty = p.2.ty := fun p hp =>
  hr.subst_ready hl.header (List.mem_append_right [l.counter.start, l.counter.stop, l.counter.step]
    (Merge.snd_mem_exprs p hp))

/-- The counter and the merged names of a loop get names of the same types. -/
theorem rebind_total (hl : l.Ready r.source) (b : Builder) :
    ∃ y ys r' b', rebind l.counter.var l.merge r b = .ok (y, r') b' ∧
      Renaming.Takes l.merge.keys ys (r.bind l.counter.var (.var y l.counterTy)) r' ∧ Renaming.Extends r r' ∧
      b'.env.get? y = some l.counterTy ∧ Renaming.SameTypes r.source b'.env l.merge.keys ys ∧ Emits (y :: ys) [] b b' ∧
      Taken (y :: ys) b.session.nextName b'.session.nextName := by
  obtain ⟨y, b1, hrun1, hy, hone⟩ := Renaming.binding_total hl.counter b
  obtain ⟨ys, r', b2, hrun2, htakes, hrest⟩ :=
    Renaming.names_total (r := r.bind l.counter.var (.var y l.counterTy)) hl.merge b1
  have hnew := hone.append hrest
  refine ⟨y, ys, r', b2, (pass_bind_of_ok hrun1).trans (pass_bind_of_ok hrun2), htakes, hnew.toExtends, ?_,
    hrest.sameTypes htakes, hnew.toEmits, hnew.taken⟩
  exact (hrest.env y (hone.taken.disjoint hrest.taken y (List.mem_singleton_self y))).trans hy

/-- What a merged name stands for is a name declared with its type. -/
theorem current_declared {xs ys : List VarName} {r0 : Renaming} (htakes : Renaming.Takes xs ys r0 r) (hr : r.Typed)
    (hsame : Renaming.SameTypes r.source env xs ys) (hx : x ∈ xs) :
    ∃ y t, current r x = .var y t ∧ r.source.get? x = some t ∧ env.get? y = some t := by
  obtain ⟨y, -, hy⟩ := Renaming.mem_zip_left htakes.length hx
  obtain ⟨u, hu⟩ := htakes.renames _ hy
  obtain ⟨t, ht, ht'⟩ := hsame _ hy
  obtain rfl : u = t := hr x _ t hu ht
  exact ⟨y, u, by rw [current, hu]; rfl, ht, ht'⟩

/-- The values carried into a copy have the types of the names they are assigned to. -/
theorem carry_sound {ys : List VarName} {r0 previous : Renaming} (hl : l.Ready r.source)
    (htakes : Renaming.Takes l.merge.keys ys r0 r) (hr : r.Typed)
    (hsame : Renaming.SameTypes r.source env l.merge.keys ys)
    (hback : ∀ p ∈ l.merge.values, (previous.subst p.2).ty = p.2.ty) : BlockSound env (carry l.merge previous r) := by
  rw [Stmt.blockSound_iff]
  intro s hs p hp
  obtain ⟨⟨x, entry, back⟩, hentry, rfl⟩ := List.mem_map.mp hs
  obtain ⟨y, t, hy, ht, ht'⟩ := current_declared htakes hr hsame (List.mem_map_of_mem (f := (·.1)) hentry)
  obtain ⟨t', hdecl, htys⟩ := hl.merge ⟨x, [entry.ty, back.ty]⟩ (List.mem_map_of_mem hentry)
  obtain rfl : t = t' := Option.some.inj (ht.symm.trans hdecl)
  simp only [hy, Stmt.parts, List.mem_singleton] at hp
  subst hp
  refine ⟨fun d hd => ?_, .inl ⟨y, t, rfl⟩⟩
  rw [List.mem_singleton.mp hd, hback (entry, back) (List.mem_map_of_mem hentry), htys back.ty (by simp)]
  exact ⟨t, ht', by simp⟩

/-- A copy of the body can be made after another one. -/
theorem copy_prepares (hl : l.Ready r.source) (hr : r.Typed) (first : VarName) (k : Nat) (b : Builder) :
    ∃ blk r' b' N off, l.copy first k r b = .ok (blk, r') b' ∧ Renaming.Extends r r' ∧
      Prepares [] N True off blk b b' := by
  obtain ⟨y, ys, r1, b1, hrun1, htakes, hext1, hy, hsame, he, htaken⟩ := rebind_total hl b
  have hr1 := hext1.typed hr
  have hl1 : l.Ready r1.source := hext1.source.symm ▸ hl
  obtain ⟨d, hd⟩ : ∃ d : ScalarTy, l.counter.step.ty = .scalar d ∧ d.isInt = true :=
    (hl.header.1.2 l.counter.step (by simp)).elim (⟨.i32, ·, rfl⟩) (⟨.i64, ·, rfl⟩)
  obtain ⟨c, hc⟩ : ∃ c : ScalarTy, (l.const k).ty = .scalar c ∧ c.isInt = true := by
    rw [Loop.const, Build.scalar_ty, hl.counterTy]
    rcases hl.header.1.2 _ List.mem_cons_self with h | h <;> rw [h] <;> exact ⟨_, rfl, rfl⟩
  obtain ⟨offset, b2, N2, off, hrun2, -, hprep2⟩ := Build.prim_prepares (p := .mul) rfl hd hc "offset" b1
  obtain ⟨body, r3, b3, N3, hrun3, hext3, hprep3⟩ := Renaming.block_prepares hl1.body hr1 b2
  have hprep1 : Prepares [] (y :: ys) True [] (carry l.merge r r1 ++ [l.count first y offset]) b b1 := by
    refine .fresh he htaken ?_ (Stmt.blockSound_append.mpr ⟨?_, ?_⟩)
    · rw [blockBinds_append, binds_carry htakes]
      exact List.perm_append_singleton y ys
    · exact carry_sound hl1 htakes hr1 (hext1.source.symm ▸ hsame) (hl.back hr)
    · intro p hp
      rw [List.mem_singleton.mp hp]
      refine ⟨fun d hd => ?_, .inl ⟨y, _, rfl⟩⟩
      rw [List.mem_singleton.mp hd]
      exact ⟨l.counterTy, hy, by simp [Expr.ty]⟩
  refine ⟨carry l.merge r r1 ++ [l.count first y offset] ++ body, r3, b3, (y :: ys) ++ N2 ++ N3, off, ?_,
    hext1.trans hext3, ?_⟩
  · exact (pass_bind_of_ok rfl).trans ((pass_bind_of_ok hrun1).trans ((pass_bind_of_ok rfl).trans
      ((pass_bind_of_ok (pass_lift_of_ok hrun2 r1)).trans (pass_bind_of_ok hrun3))))
  · simpa only [List.nil_append, List.append_nil] using (hprep1.andThen hprep2).andThen hprep3

theorem copies_prepare (hl : l.Ready r.source) (hr : r.Typed) (first : VarName) (n k : Nat) (b : Builder) :
    ∃ blk r' b' N offs, l.copies first n k r b = .ok (blk, r') b' ∧ Renaming.Extends r r' ∧
      Prepares [] N True offs blk b b' := by
  induction n generalizing r k b with
  | zero => exact ⟨[], r, b, [], [], rfl, .refl r, .ofWrites (.refl b)⟩
  | succ n ih =>
    obtain ⟨blk, r1, b1, N1, off, hrun1, hext1, hprep1⟩ := copy_prepares hl hr first k b
    obtain ⟨blks, r2, b2, N2, offs, hrun2, hext2, hprep2⟩ := ih (hext1.source.symm ▸ hl) (hext1.typed hr) (k + 1) b1
    exact ⟨blk ++ blks, r2, b2, _, off ++ offs, (pass_bind_of_ok hrun1).trans
      (pass_bind_of_ok hrun2), hext1.trans hext2, hprep1.andThen hprep2⟩

/-- The loop left over passes the checks just if its counter still has the type of its start. -/
theorem rest_sound (hl : l.Ready env) {stop : Expr} (hstop : stop.ty = .scalar .i32 ∨ stop.ty = .i64)
    (hcurrent : ∀ x ∈ l.merge.keys, env.get? x = some (current r x).ty) :
    BlockSound env [.forLoop { l.counter with start := stop } l.body (entered l.merge r)] ↔ stop.ty = l.counterTy := by
  have hints : ∀ e ∈ [stop, l.counter.stop, l.counter.step], e.ty = .scalar .i32 ∨ e.ty = .i64 :=
    List.forall_mem_cons.mpr ⟨hstop, (List.forall_mem_cons.mp hl.header.1.2).2⟩
  have hmerge : ∀ d ∈ (entered l.merge r).definitions, d.Declared env := by
    intro d hd
    rw [Merge.definitions, toList_entered, List.map_map] at hd
    obtain ⟨⟨x, entry, back⟩, hentry, rfl⟩ := List.mem_map.mp hd
    have hx := hcurrent x (List.mem_map_of_mem (f := (·.1)) hentry)
    obtain ⟨t, ht, htys⟩ := hl.merge ⟨x, [entry.ty, back.ty]⟩ (List.mem_map_of_mem hentry)
    have htx : (current r x).ty = t := Option.some.inj (hx.symm.trans ht)
    refine ⟨t, ht, ?_⟩
    simpa [htx] using htys back.ty (by simp)
  rw [Stmt.blockSound_shell, shell, blocks, List.flatten_singleton, ← List.singleton_append, Stmt.blockSound_append,
    Stmt.blockSound_for, and_iff_left hl.body.sound, and_iff_left ⟨hints, hmerge⟩, hl.counter, Option.some.injEq]
  exact eq_comm

/-- A loop can be split, and what is emitted for it passes the checks just if its bounds are even. -/
theorem split_prepares (hl : l.Ready env) (factor : UnrollFactor) {b : Builder} (hb : b.Continues env)
    (hnd : (Stmt.forLoop l.counter l.body l.merge).binds.Nodup) :
    ∃ rest b' N front, l.split factor b = .ok rest b' ∧ rest.simple = false ∧
      Prepares (Stmt.forLoop l.counter l.body l.merge).binds N (Even l.counter) front [rest] b b' := by
  obtain ⟨bigStep, stop, b1, N1, out, hrun1, hprep1, hints, heven⟩ := bounds_prepare hl factor b
  have hb1 := hprep1.continues hb
  have hl1 : l.Ready b1.env := hl.mono fun x t hx => (hb1 x t hx).1
  obtain ⟨y, ys, first, b2, hrun2, htakes, hext2, hy, hsame, he, htaken⟩ :=
    rebind_total (r := { source := b1.env }) hl1 b1
  have hfirst : first.Typed := hext2.typed fun x e t hx => by cases hx
  have hl2 : l.Ready first.source := hext2.source.symm ▸ hl1
  obtain ⟨body, r3, b3, N3, hrun3, hext3, hprep3⟩ := Renaming.block_prepares hl2.body hfirst b2
  obtain ⟨blk, last, b4, N4, offs, hrun4, hext4, hprep4⟩ :=
    copies_prepare (hext3.source.symm ▸ hl2) (hext3.typed hfirst) y (factor.val - 1) 1 b3
  have hlast := (hext3.trans hext4).typed hfirst
  have hl4 : l.Ready last.source := (hext3.trans hext4).source.symm ▸ hl2
  let unrolled : Stmt := .forLoop ⟨y, l.counter.start, stop, bigStep⟩ (body ++ blk) (l.merge.copy ys .none last)
  let rest : Stmt := .forLoop { l.counter with start := stop } l.body (entered l.merge first)
  have hrun : l.split factor b = .ok rest { b4 with block := b4.block ++ [unrolled] } := by
    have hbody : (do
        let body ← Renaming.pass.block l.body
        return body ++ (← l.copies y (factor.val - 1) 1) : PassM Renaming Block).run first b2 =
          .ok (body ++ blk, last) b4 :=
      (pass_bind_of_ok hrun3).trans (pass_bind_of_ok hrun4)
    simp only [unrolled, ← unrolled_merge htakes]
    exact (state_bind_of_ok hrun1).trans ((state_bind_of_ok rfl).trans
      ((state_bind_of_ok hrun2).trans (state_bind_of_ok hbody)))
  -- the names of the unrolled loop have been taken before those of the copies in its body
  have hheader : Prepares [] (y :: ys) True [] [unrolled.shell] b1 b2 := by
    refine .fresh he htaken ?_ (Stmt.blockSound_for.mpr ⟨hl.counterTy ▸ hy, hints, ?_⟩)
    · simpa [unrolled, shell, blockBinds, binds] using Merge.keys_copy_perm htakes.length htakes.nodup .none last
    · exact Renaming.copy_declared htakes.length htakes.nodup hsame hl1.merge
        (fun p _ => by rw [Renaming.subst_none]) (hl4.back hlast)
  have hunrolled : Prepares [] (N1 ++ (y :: ys) ++ N3 ++ N4) True (out ++ offs) [unrolled] b b4 := by
    have hall := (((hprep1.andThen hheader).andThen hprep3).andThen hprep4).enclose (s := unrolled)
      (by simp [blocks, unrolled])
    simpa only [List.append_nil] using hall
  have hb4 := hunrolled.continues hb
  have hsound : BlockSound b4.env [rest] ↔ Even l.counter := by
    refine (rest_sound (hl.mono fun x t hx => (hb4 x t hx).1) (hints stop (by simp)) fun x hx => ?_).trans heven
    obtain ⟨z, t, hz, ht, -⟩ := current_declared htakes hfirst (hext2.source.symm ▸ hsame) hx
    obtain ⟨u, hu⟩ := hl.declared (x := x) (by simp [binds, hx])
    rw [hext2.source, (hb1 x u hu).1] at ht
    rw [hz, (hb4 x u hu).1, ht, Expr.ty]
  have hbinds : blockBinds [rest] = (Stmt.forLoop l.counter l.body l.merge).binds := by
    rw [blockBinds_singleton, binds, binds, keys_entered]
  have hrest := Prepares.held (b := { b4 with block := b4.block ++ [unrolled] }) (hbinds ▸ hnd) hsound
  rw [hbinds] at hrest
  have hold : ∀ x ∈ (Stmt.forLoop l.counter l.body l.merge).binds, b.Old x := fun x hx => by
    obtain ⟨u, hu⟩ := hl.declared hx
    exact (hb x u hu).2
  have hall := hunrolled.emit.append hrest (by simp) hold (by simp)
  rw [true_and] at hall
  exact ⟨rest, _, _, _, hrun, rfl, hall⟩

end Split

/-! ## Going through a function -/

/-- The constant by which a loop steps, if it does not count upwards. -/
def stepsDown? : Stmt → Option Int64
  | .forLoop c _ _ => c.step.int?.filter (· ≤ 0)
  | _ => none

/-- Among the statements there is a loop that steps by the constant `d`, which is not upwards. -/
def Down (factor : UnrollFactor) (ps : List Stmt) (d : Int64) : Prop := factor.val ≠ 1 ∧ ∃ s ∈ ps, stepsDown? s = some d

/-- The loops that are unrolled have even bounds. -/
def Fair (factor : UnrollFactor) (ps : List Stmt) : Prop :=
  factor.val ≠ 1 → ∀ c body m, .forLoop c body m ∈ ps → short body = true → Even c

/-- How unrolling ends: with a failure if there is a loop that steps down, and otherwise with a result as `P` says. -/
def EndsWith {α : Type} (D : Int64 → Prop) (P : α → Builder → Prop) : EStateM.Result Fault Builder α → Prop
  | .ok a b => (∀ d, ¬ D d) ∧ P a b
  | .error e _ => ∃ d, D d ∧ e = .error (.downwardStep d)

section EndsWith

variable {α β : Type} {D C : Int64 → Prop} {P : α × Unit → Builder → Prop} {Q : β × Unit → Builder → Prop} {b : Builder}

theorem EndsWith.bind {x : PassM Unit α} {f : α → PassM Unit β} (h : EndsWith D P (x () b))
    (next : ∀ a b1, P (a, ()) b1 → EndsWith C Q (f a () b1)) : EndsWith (fun d => D d ∨ C d) Q ((x >>= f) () b) := by
  cases hx : x () b with
  | error e b1 =>
    rw [hx] at h
    obtain ⟨d, hd, rfl⟩ := h
    have hfail : (x >>= f) () b = .error (.error (.downwardStep d)) b1 := by
      show EStateM.bind (x ()) _ b = _
      rw [EStateM.bind, hx]
    rw [hfail]
    exact ⟨d, .inl hd, rfl⟩
  | ok p b1 =>
    obtain ⟨a, ⟨⟩⟩ := p
    rw [hx] at h
    obtain ⟨hD, hP⟩ := h
    rw [pass_bind_of_ok hx]
    have hnext := next a b1 hP
    cases hf : f a () b1 with
    | error e b2 =>
      rw [hf] at hnext
      obtain ⟨d, hd, he⟩ := hnext
      exact ⟨d, .inr hd, he⟩
    | ok q b2 =>
      rw [hf] at hnext
      exact ⟨fun d hd => hd.elim (hD d) (hnext.1 d), hnext.2⟩

theorem EndsWith.nested {x : PassM Unit α} (h : EndsWith D P (x () { b with block := [] })) :
    EndsWith D (fun r b' => ∃ b1, P (r.1.2, ()) b1 ∧ r.1.1 = b1.block ∧ b' = { b1 with block := b.block })
      (PassM.nested x () b) := by
  cases hx : x () { b with block := [] } with
  | error e b1 =>
    rw [hx] at h
    obtain ⟨d, hd, rfl⟩ := h
    have hfail : PassM.nested x () b = .error (.error (.downwardStep d)) { b1 with block := b.block } := by
      show EStateM.bind (Build.nested (x ())) _ b = _
      rw [EStateM.bind, Build.nested, hx]
    rw [hfail]
    exact ⟨d, hd, rfl⟩
  | ok p b1 =>
    obtain ⟨a, ⟨⟩⟩ := p
    rw [hx] at h
    rw [pass_nested_of_ok hx]
    exact ⟨h.1, b1, h.2, rfl, rfl⟩

theorem EndsWith.mono {P' : α × Unit → Builder → Prop}
    {r : EStateM.Result Fault Builder (α × Unit)} (h : EndsWith D P r)
    (hD : ∀ d, D d ↔ C d) (hP : ∀ a b, P a b → P' a b) : EndsWith C P' r := by
  cases r with
  | error e b =>
    obtain ⟨d, hd, he⟩ := h
    exact ⟨d, (hD d).mp hd, he⟩
  | ok a b => exact ⟨fun d hd => h.1 d ((hD d).mpr hd), hP a b h.2⟩

end EndsWith

/-- What the pass has prepared for statements: they may have changed only if there are loops among them. -/
structure Rebuilt (factor : UnrollFactor) (ss : List Stmt) (N : List VarName) (ahead out : Block)
    (b b' : Builder) : Prop
    extends Prepares (blockBinds ss) N (Fair factor (blockParts ss)) ahead out b b' where
  simple : simpleAll (ahead ++ out) = simpleAll ss
  same : simpleAll ss = true → ahead ++ out = ss

section Walk

variable {factor : UnrollFactor} {env : TypeEnv} {b b1 : Builder} {N : List VarName} {ps qs ss : List Stmt}

/-- What is rebuilt in a scope of its own is held back in the enclosing one. -/
theorem Rebuilt.nested {ahead : Block} (h : Rebuilt factor ss N ahead [] { b with block := [] } b1) :
    b1.block = ahead ∧ Rebuilt factor ss N [] ahead b { b1 with block := b.block } := by
  obtain ⟨hblock, hprep⟩ := h.toPrepares.nested
  refine ⟨hblock, { toPrepares := hprep, simple := ?_, same := ?_ }⟩
  · simpa using h.simple
  · simpa using h.same

theorem pass_expr_eq (e : Expr) (b : Builder) : (pass factor).expr e () b = .ok (e, ()) b := expr_eq e b

variable {d : Int64} {s : Stmt}

theorem down_append : Down factor (ps ++ qs) d ↔ Down factor ps d ∨ Down factor qs d := by
  simp only [Down, List.mem_append, or_and_right, exists_or, ← and_or_left]

theorem fair_append : Fair factor (ps ++ qs) ↔ Fair factor ps ∧ Fair factor qs := by
  simp only [Fair, List.mem_append, or_imp, forall_and]

/-- A loop that steps down is the statement itself or is inside it. -/
theorem down_parts : Down factor s.parts d ↔
    (factor.val ≠ 1 ∧ stepsDown? s = some d) ∨ Down factor (blockParts s.blocks.flatten) d := by
  simp only [Down, mem_parts, or_and_right, exists_or, exists_eq_left, ← and_or_left]

theorem fair_parts : Fair factor s.parts ↔ Fair factor [s] ∧ Fair factor (blockParts s.blocks.flatten) := by
  rw [← fair_append]
  simp only [Fair, mem_parts, List.mem_append, List.mem_singleton]

theorem fair_of_not_loop (h : ∀ c body m, s ≠ .forLoop c body m) : Fair factor [s] := fun _ c body m hp _ =>
  absurd (List.mem_singleton.mp hp).symm (h c body m)

theorem old_of_ready (hss : BlockReady env ss) (hb : b.Continues env) : ∀ x ∈ blockBinds ss, b.Old x := by
  intro x hx
  obtain ⟨t, ht⟩ := hss.sound.declared hx
  exact (hb x t ht).2

/-- A statement that is no loop to be unrolled is put around what its blocks have become. -/
theorem enclosed {s' : Stmt} (hs : BlockReady env [s]) (hnd : (blockBinds [s]).Nodup) (hb : b.Continues env)
    (hheader : s'.shell = s.shell) (hself : Fair factor [s])
    (h : Prepares (blockBinds s.blocks.flatten) N (Fair factor (blockParts s.blocks.flatten))
      [] s'.blocks.flatten b b1) :
    Prepares (blockBinds [s]) N (Fair factor (blockParts [s])) [] [s'] b b1 := by
  have hperm : (blockBinds [s]).Perm (blockBinds [s.shell] ++ blockBinds s.blocks.flatten) :=
    blockBinds_append [s.shell] s.blocks.flatten ▸ Stmt.blockBinds_shell s
  obtain ⟨hndself, -, hapart⟩ := List.nodup_append.mp (hperm.nodup_iff.mp hnd)
  have hold := old_of_ready hs hb
  have hsound : BlockSound b1.env [s.shell] := by
    have hready := (hs s (by simp [blockParts, mem_parts])).mono fun x t hx => (h.continues hb x t hx).1
    rw [BlockSound, blockParts_singleton, Stmt.parts_shell, List.forall_mem_singleton, Stmt.sound_shell]
    exact hready.1
  have hall := h.append (Prepares.held hndself (iff_true_intro hsound))
    (fun x hx => hold x (hperm.mem_iff.mpr (List.mem_append_right _ hx)))
    (fun x hx => hold x (hperm.mem_iff.mpr (List.mem_append_left _ hx))) fun x hx hx' => hapart x hx' x hx rfl
  rw [List.append_nil, List.nil_append, and_true] at hall
  refine (hall.enclose ?_).weaken (fun x hx => ?_) ?_
  · rw [hheader]
    exact List.perm_append_singleton _ _
  · rw [hperm.mem_iff, List.mem_append]
    exact (List.mem_append.mp hx).symm
  · rw [blockParts_singleton, fair_parts, and_iff_right hself]

/-- A block and one side of the merge that follows it, in a scope of their own. -/
theorem scope_ends {m : Merge} (pick : Expr × Expr → Expr)
    (ih : EndsWith (Down factor (blockParts ss)) (fun _ b' => ∃ N out,
      Rebuilt factor ss N out [] { b with block := [] } b')
      ((pass factor).stmts ss () { b with block := [] })) :
    EndsWith (Down factor (blockParts ss)) (fun r b' => r.1.2 = m.values.map pick ∧
      ∃ N, Rebuilt factor ss N [] r.1.1 b b')
      (PassM.nested (do (pass factor).stmts ss; (pass factor).side m pick) () b) := by
  have hside : EndsWith (Down factor (blockParts ss)) (fun r b' => r.1 = m.values.map pick ∧
      ∃ N out, Rebuilt factor ss N out [] { b with block := [] } b')
      ((do (pass factor).stmts ss; (pass factor).side m pick : PassM Unit (List Expr)) () { b with block := [] }) := by
    refine (ih.bind (C := fun _ => False) fun _ b1 hb1 => ?_).mono (fun _ => iff_of_eq (or_false _)) fun _ _ h => h
    rw [sides_eq]
    exact ⟨fun _ => id, rfl, hb1⟩
  refine hside.nested.mono (fun _ => Iff.rfl) ?_
  rintro ⟨⟨out, es⟩, u⟩ b' ⟨b1, ⟨hes, N, out', h⟩, hout, rfl⟩
  obtain ⟨rfl, h⟩ := h.nested
  cases hout
  exact ⟨hes, N, h⟩

mutual

/-- There are no loops among simple statements. -/
theorem not_loop_of_simple : ∀ {s : Stmt}, s.simple = true → ∀ {c : Counter} {body : Block} {m : Merge},
    .forLoop c body m ∉ s.parts
  | .assign _ _, _, _, _, _, hp => by
    rw [Stmt.parts, List.mem_singleton] at hp
    cases hp
  | .ite cond yes no m, h, c, body, m', hp => by
    rw [Stmt.simple, Bool.and_eq_true] at h
    rw [Stmt.parts, List.mem_cons, List.mem_append] at hp
    rcases hp with hp | hp | hp
    · cases hp
    · exact not_loop_of_simpleAll h.1 hp
    · exact not_loop_of_simpleAll h.2 hp

theorem not_loop_of_simpleAll : ∀ {ss : List Stmt}, simpleAll ss = true → ∀ {c : Counter} {body : Block} {m : Merge},
    .forLoop c body m ∉ blockParts ss
  | [], _, _, _, _, hp => absurd hp List.not_mem_nil
  | s :: ss, h, _, _, _, hp => by
    rw [simpleAll, Bool.and_eq_true] at h
    rcases List.mem_append.mp hp with hp | hp
    · exact not_loop_of_simple h.1 hp
    · exact not_loop_of_simpleAll h.2 hp

end

theorem Rebuilt.short {out : Block} (h : Rebuilt factor ss N [] out b b1) : short out = short ss := by
  unfold Unrolling.short
  have hsimple : simpleAll out = simpleAll ss := h.simple
  cases hs : simpleAll ss with
  | false => rw [hsimple, hs, Bool.false_and, Bool.false_and]
  | true =>
    have hsame : out = ss := h.same hs
    rw [hsame, hs]

section Loop

variable {c : Counter} {body body' : Block} {m : Merge}

/-- A loop that is not unrolled is put around its new body. -/
theorem Rebuilt.kept (hs : BlockReady env [.forLoop c body m]) (hnd : (blockBinds [.forLoop c body m]).Nodup)
    (hb : b.Continues env) (hself : Fair factor [.forLoop c body m]) (h : Rebuilt factor body N [] body' b b1) :
    Rebuilt factor [.forLoop c body m] N [] [.forLoop c body' m] b b1 where
  toPrepares := by
    refine enclosed hs hnd hb rfl hself ?_
    simp only [blocks, List.flatten_singleton]
    exact h.toPrepares
  simple := rfl
  same := nofun

/-- A loop whose body is short is split. -/
theorem Rebuilt.halved (h1 : factor.val ≠ 1) (hs : BlockReady env [.forLoop c body m])
    (hnd : (blockBinds [.forLoop c body m]).Nodup) (hb : b.Continues env) (hshort : Unrolling.short body = true)
    (h : Rebuilt factor body N [] body' b b1) :
    ∃ s' b' N ahead, Loop.split ⟨c, body', m, c.start.ty⟩ factor b1 = .ok s' b' ∧
      Rebuilt factor [.forLoop c body m] N ahead [s'] b b' := by
  have hsimple := simple_of_short hshort
  obtain rfl : body' = body := h.same hsimple
  have hl : Loop.Ready ⟨c, body', m, c.start.ty⟩ env := by
    rw [BlockReady, blockParts_singleton, Stmt.parts, List.forall_mem_cons] at hs
    exact ⟨hs.1, hs.2, rfl⟩
  obtain ⟨rest, b2, N2, front, hrun, hrest, hsplit⟩ :=
    split_prepares hl factor (h.continues hb) (blockBinds_singleton _ ▸ hnd)
  have hall := h.toPrepares.discard.append hsplit (by simp) (blockBinds_singleton _ ▸ old_of_ready hs hb) (by simp)
  refine ⟨rest, b2, N ++ N2, front, hrun,
    { toPrepares := hall.weaken (fun x hx => ?_) ?_, simple := ?_, same := nofun }⟩
  · rw [blockBinds_singleton]
    exact hx
  · rw [true_and, blockParts_singleton, Stmt.parts]
    constructor
    · intro heven _ c' body1 m' hp _
      rcases List.mem_cons.mp hp with hp | hp
      · cases hp
        exact heven
      · exact absurd hp (not_loop_of_simpleAll hsimple)
    · intro hfair
      exact hfair h1 c body' m List.mem_cons_self hshort
  · rw [simpleAll_append, simpleAll, hrest, Bool.false_and, Bool.and_false]
    rfl

theorem lookupTy_eq (h : b.env.get? x = some t) : Build.lookupTy x b = .ok t b := by
  have hget : (get : Build Builder) b = .ok b b := rfl
  refine (state_bind_of_ok hget).trans ?_
  rw [h]
  rfl

/-- A loop that may be unrolled is, if its body is short. -/
theorem go_rebuilds (h1 : factor.val ≠ 1) (hs : BlockReady env [.forLoop c body m])
    (hnd : (blockBinds [.forLoop c body m]).Nodup) (hb : b.Continues env) (h : Rebuilt factor body N [] body' b b1) :
    ∃ s' b' N ahead, Unrolling.loop.go factor c body' m b1 = .ok s' b' ∧
      Rebuilt factor [.forLoop c body m] N ahead [s'] b b' := by
  have hcounter : b1.env.get? c.var = some c.start.ty := by
    obtain ⟨t, ht, htys⟩ := (hs (.forLoop c body m) List.mem_cons_self).1.1 ⟨c.var, [c.start.ty]⟩ List.mem_cons_self
    rw [htys _ List.mem_cons_self]
    exact (h.continues hb _ t ht).1
  rw [Unrolling.loop.go]
  change ∃ s' b' N ahead, (if short body' = true then _ else _ : Build Stmt) b1 = .ok s' b' ∧ _
  rw [h.short]
  by_cases hshort : short body = true
  · obtain ⟨s', b', N', ahead, hrun, hhalved⟩ := h.halved h1 hs hnd hb hshort
    refine ⟨s', b', N', ahead, ?_, hhalved⟩
    rw [if_pos hshort]
    exact (state_bind_of_ok (lookupTy_eq hcounter)).trans hrun
  · refine ⟨.forLoop c body' m, b1, N, [], ?_, .kept hs hnd hb (fun _ c' body1 m' hp hs' => ?_) h⟩
    · rw [if_neg hshort]
      rfl
    · cases List.mem_singleton.mp hp
      exact absurd hs' hshort

/-- A constant step that is not upwards is refused before anything else is looked at. -/
theorem loop_refuses (h1 : factor.val ≠ 1) (h : stepsDown? (.forLoop c body m) = some d) :
    Unrolling.loop factor c body' m = fail (.downwardStep d) := by
  obtain ⟨hi, hle⟩ := Option.filter_eq_some_iff.mp h
  rw [Unrolling.loop, if_neg h1, hi]
  exact if_pos (of_decide_eq_true hle)

theorem loop_goes (h1 : factor.val ≠ 1) (h : stepsDown? (.forLoop c body m) = none) :
    Unrolling.loop factor c body' m = Unrolling.loop.go factor c body' m := by
  rw [Unrolling.loop, if_neg h1]
  cases hi : c.step.int? with
  | none => rfl
  | some i => exact if_neg fun hle => Option.filter_eq_none_iff.mp h i hi (decide_eq_true hle)

/-- How unrolling a loop ends, whose body has been rebuilt. -/
theorem loop_ends (hs : BlockReady env [.forLoop c body m]) (hnd : (blockBinds [.forLoop c body m]).Nodup)
    (hb : b.Continues env) (h : Rebuilt factor body N [] body' b b1) :
    EndsWith (Down factor [.forLoop c body m]) (fun r b' => ∃ N ahead,
      Rebuilt factor [.forLoop c body m] N ahead [r.1] b b') ((pass factor).loop c body' m () b1) := by
  show EndsWith _ _ ((liftM (Unrolling.loop factor c body' m) : PassM Unit Stmt) () b1)
  by_cases h1 : factor.val = 1
  · have hrun : Unrolling.loop factor c body' m b1 = .ok (.forLoop c body' m) b1 := by
      rw [Unrolling.loop, if_pos h1]
      rfl
    rw [pass_lift_of_ok hrun]
    exact ⟨fun d hd => hd.1 h1, N, [], .kept hs hnd hb (fun h => absurd h1 h) h⟩
  cases hdown : stepsDown? (.forLoop c body m) with
  | some d =>
    rw [loop_refuses h1 hdown]
    exact ⟨d, ⟨h1, _, List.mem_singleton_self _, hdown⟩, rfl⟩
  | none =>
    rw [loop_goes h1 hdown]
    obtain ⟨s', b', N', ahead, hrun, hrebuilt⟩ := go_rebuilds h1 hs hnd hb h
    rw [pass_lift_of_ok hrun]
    refine ⟨?_, N', ahead, hrebuilt⟩
    rintro d ⟨-, s, hs, hd⟩
    rw [List.mem_singleton.mp hs, hdown] at hd
    cases hd

end Loop

/-- A statement without loops is rebuilt as it is. -/
theorem Rebuilt.plain (hs : BlockReady env [s]) (hnd : (blockBinds [s]).Nodup) (hb : b.Continues env)
    (hblocks : s.blocks = []) : Rebuilt factor [s] [] [] [s] b b where
  toPrepares := by
    refine enclosed hs hnd hb rfl (fair_of_not_loop fun c body m hs => by rw [hs] at hblocks; cases hblocks) ?_
    rw [hblocks]
    refine (Prepares.ofWrites (.refl b)).weaken (fun _ => id) (iff_of_true trivial fun _ _ _ _ hp => ?_)
    exact absurd hp List.not_mem_nil
  simple := rfl
  same _ := rfl

theorem not_down_of_blocks (hblocks : s.blocks = []) (d : Int64) : ¬ Down factor s.parts d := by
  rw [down_parts, hblocks]
  rintro (⟨-, hd⟩ | ⟨-, p, hp, -⟩)
  · cases s with
    | forLoop c body m => cases hblocks
    | _ => cases hd
  · exact absurd hp List.not_mem_nil

mutual

/-- How unrolling a statement ends. -/
theorem stmt_ends : ∀ {s : Stmt} {b : Builder}, BlockReady env [s] → (blockBinds [s]).Nodup → b.Continues env →
    EndsWith (Down factor s.parts)
      (fun r b' => ∃ N ahead, Rebuilt factor [s] N ahead [r.1] b b') ((pass factor).stmt s () b)
  | .assign target value, b, hs, hnd, hb => by
    have hrun : (pass factor).stmt (.assign target value) () b = .ok (.assign target value, ()) b := by
      rw [Pass.stmt]
      exact (pass_bind_of_ok (expr_eq value b)).trans (pass_bind_of_ok (expr_eq target b))
    rw [hrun]
    exact ⟨not_down_of_blocks rfl, [], [], .plain hs hnd hb rfl⟩
  | .ret value, b, hs, hnd, hb => by
    have hrun : (pass factor).stmt (.ret value) () b = .ok (.ret value, ()) b := by
      rw [Pass.stmt]
      exact pass_bind_of_ok (expr_eq value b)
    rw [hrun]
    exact ⟨not_down_of_blocks rfl, [], [], .plain hs hnd hb rfl⟩
  | .ite c yes no m, b, hs, hnd, hb => by
    have hready := hs
    rw [BlockReady, blockParts_singleton, Stmt.parts, List.forall_mem_cons, List.forall_mem_append] at hready
    obtain ⟨-, hyes, hno⟩ := hready
    have hbinds := hnd
    rw [blockBinds_singleton, binds] at hbinds
    obtain ⟨hndy, hndn, hapart⟩ := List.nodup_append.mp (List.nodup_append.mp hbinds).1
    rw [Pass.stmt, pass_bind_of_ok (pass_expr_eq c b)]
    refine ((scope_ends Prod.fst (stmts_end (b := { b with block := [] }) hyes hndy hb)).bind
      (C := Down factor (blockParts no)) ?_).mono (fun d => ?_) fun _ _ h => h
    · rintro ⟨yes', lefts⟩ b1 ⟨hlefts, N1, h1⟩
      have hb1 := h1.continues hb
      refine ((scope_ends Prod.snd
        (stmts_end (b := { b1 with block := [] }) hno hndn hb1)).bind (C := fun _ => False) ?_).mono
        (fun d => iff_of_eq (or_false _)) fun _ _ h => h
      rintro ⟨no', rights⟩ b2 ⟨hrights, N2, h2⟩
      cases hlefts
      cases hrights
      dsimp only
      rw [pass_bind_of_ok (names_eq m b2), joined_same]
      refine ⟨fun _ => id, N1 ++ N2,
        [], { toPrepares := enclosed hs hnd hb rfl (fair_of_not_loop nofun) ?_, simple := ?_, same := ?_ }⟩
      · have hboth := h1.toPrepares.append h2.toPrepares (old_of_ready hyes hb) (old_of_ready hno hb) fun x hx hx' =>
          hapart x hx x hx' rfl
        rw [← fair_append] at hboth
        simpa [blocks, blockBinds_append, Stmt.blockParts_append] using hboth
      · have hy : simpleAll yes' = simpleAll yes := h1.simple
        have hn : simpleAll no' = simpleAll no := h2.simple
        simp [simpleAll, Stmt.simple, hy, hn]
      · intro hsimple
        simp only [simpleAll, Stmt.simple, Bool.and_true, Bool.and_eq_true] at hsimple
        obtain rfl : yes' = yes := h1.same hsimple.1
        obtain rfl : no' = no := h2.same hsimple.2
        rfl
    · simp [down_parts, blocks, Stmt.blockParts_append, down_append, stepsDown?]
  | .whileLoop c body m, b, hs, hnd, hb => by
    have hready := hs
    rw [BlockReady, blockParts_singleton, Stmt.parts, List.forall_mem_cons] at hready
    have hbinds := hnd
    rw [blockBinds_singleton, binds] at hbinds
    have hndb := (List.nodup_append.mp hbinds).2.1
    rw [Pass.stmt, pass_bind_of_ok (sides_eq m Prod.fst b), pass_bind_of_ok (names_eq m b),
      pass_bind_of_ok (pass_expr_eq c b)]
    refine ((scope_ends Prod.snd (stmts_end (b := { b with block := [] }) hready.2 hndb hb)).bind (C := fun _ => False)
      ?_).mono (fun d => ?_) fun _ _ h => h
    · rintro ⟨body', backs⟩ b1 ⟨hbacks, N, h⟩
      cases hbacks
      dsimp only
      rw [joined_same]
      refine ⟨fun _ => id, N, [],
        { toPrepares := enclosed hs hnd hb rfl (fair_of_not_loop nofun) ?_, simple := rfl, same := nofun }⟩
      simp only [blocks, List.flatten_singleton]
      exact h.toPrepares
    · simp [down_parts, blocks, stepsDown?]
  | .forLoop c body m, b, hs, hnd, hb => by
    have hready := hs
    rw [BlockReady, blockParts_singleton, Stmt.parts, List.forall_mem_cons] at hready
    have hbinds := hnd
    rw [blockBinds_singleton, binds] at hbinds
    have hndb := (List.nodup_append.mp (List.nodup_cons.mp hbinds).2).2.1
    rw [Pass.stmt, pass_bind_of_ok (pass_expr_eq c.start b), pass_bind_of_ok (pass_expr_eq c.stop b),
      pass_bind_of_ok (pass_expr_eq c.step b), pass_bind_of_ok (sides_eq m Prod.fst b), pass_bind_of_ok (names_eq m b),
      pass_bind_of_ok (show (pass factor).binding c.var () b = .ok (c.var, ()) b from rfl)]
    refine ((scope_ends Prod.snd (stmts_end (b := { b with block := [] }) hready.2 hndb hb)).bind
      (C := Down factor [.forLoop c body m]) ?_).mono (fun d => ?_) fun _ _ h => h
    · rintro ⟨body', backs⟩ b1 ⟨hbacks, N, h⟩
      cases hbacks
      dsimp only
      rw [joined_same]
      exact loop_ends hs hnd hb h
    · rw [Stmt.parts]
      have happend : Down factor ([.forLoop c body m] ++ blockParts body) d ↔ _ := down_append
      exact or_comm.trans happend.symm

theorem stmts_end : ∀ {ss : List Stmt} {b : Builder}, BlockReady env ss → (blockBinds ss).Nodup → b.Continues env →
    EndsWith (Down factor (blockParts ss))
      (fun _ b' => ∃ N out, Rebuilt factor ss N out [] b b') ((pass factor).stmts ss () b)
  | [], b, hss, hnd, hb => by
    refine ⟨?_, [], [],
      { toPrepares := (Prepares.ofWrites (.refl b)).weaken (fun _ => id) ?_, simple := rfl, same := fun _ => rfl }⟩
    · rintro d ⟨-, s, hs, -⟩
      exact absurd hs List.not_mem_nil
    · exact iff_of_true trivial fun _ _ _ _ hp => absurd hp List.not_mem_nil
  | s :: ss, b, hss, hnd, hb => by
    have hready := hss
    rw [BlockReady, blockParts, List.forall_mem_append] at hready
    have hone : BlockReady env [s] := by
      rw [BlockReady, blockParts_singleton]
      exact hready.1
    have hbinds := hnd
    rw [blockBinds, ← blockBinds_singleton] at hbinds
    obtain ⟨hnds, hndss, hapart⟩ := List.nodup_append.mp hbinds
    rw [Pass.stmts]
    refine ((stmt_ends hone hnds hb).bind (C := Down factor (blockParts ss)) ?_).mono (fun d => ?_) fun _ _ h => h
    · rintro s' b1 ⟨N1, ahead, h1⟩
      have hemit := h1.emit
      refine (stmts_end hready.2 hndss (hemit.continues hb)).mono (fun _ => Iff.rfl) ?_
      rintro _ b2 ⟨N2, out, h2⟩
      have hall :=
        hemit.append h2.toPrepares (old_of_ready hone hb) (old_of_ready hready.2 hb)
        fun x hx hx' => hapart x hx x hx' rfl
      rw [← fair_append, ← Stmt.blockParts_append, ← blockBinds_append] at hall
      refine ⟨_, _, { toPrepares := hall, simple := ?_, same := ?_ }⟩
      · have hrest := h2.simple
        rw [List.append_nil] at hrest
        rw [List.append_nil, simpleAll_append, h1.simple, hrest, ← simpleAll_append, List.singleton_append]
      · intro hsimple
        rw [← List.singleton_append, simpleAll_append, Bool.and_eq_true] at hsimple
        have hrest := h2.same hsimple.2
        rw [List.append_nil] at hrest
        rw [List.append_nil, h1.same hsimple.1, hrest, List.singleton_append]
    · rw [blockParts, down_append]

end

end Walk

/-! ## When a function can be unrolled -/

/-- The statement is no loop to be unrolled, or its bounds are even. -/
def Unrollable : Stmt → Prop
  | .forLoop c body _ => short body = true → Even c
  | _ => True

section Apply

variable {factor : UnrollFactor} {f : Func} {s : Session}

/-- What the body of a function becomes. -/
theorem body_ends (hready : BlockReady f.env f.body) (hnd : (blockBinds f.body).Nodup)
    (hnames : ∀ x ∈ f.env.keys, Older s.nextName x) :
    EndsWith (Down factor f.statements) (fun r b => ∃ N, Rebuilt factor f.body N [] r.1 ⟨s, f.env, []⟩ b)
      ((pass factor).body f () ⟨s, f.env, []⟩) := by
  have hb : (⟨s, f.env, []⟩ : Builder).Continues f.env := fun x t hx => ⟨hx, hnames x (NameMap.mem_keys.mpr ⟨t, hx⟩)⟩
  have henter : (pass factor).enter f () ⟨s, f.env, []⟩ = .ok ((), ()) ⟨s, f.env, []⟩ := rfl
  rw [Pass.body, pass_bind_of_ok henter]
  refine ((stmts_end hready hnd hb).nested.bind (C := fun _ => False) ?_).mono
    (fun _ => iff_of_eq (or_false _)) fun _ _ h => h
  rintro ⟨out, u⟩ b' ⟨b1, ⟨N, out', h⟩, hout, rfl⟩
  obtain ⟨rfl, h⟩ := h.nested (b := ⟨s, f.env, []⟩)
  cases hout
  exact ⟨fun _ => id, N, h⟩

/-- The new function passes the check just if the loops that were unrolled have even bounds. -/
theorem verify_rebuilt (hverify : f.verify = .ok ()) (hnames : ∀ x ∈ f.env.keys, Older s.nextName x)
    {N : List VarName} {body : Block} {b : Builder}
    (h : Rebuilt factor f.body N [] body ⟨s, f.env, []⟩ b) (name : FnName) :
    ({ f with name := name, env := b.env, body := body } : Func).verify = .ok () ↔ Fair factor f.statements := by
  obtain ⟨hnd, hparams, -⟩ := WellFormed.function_iff.mp hverify
  have hold : ∀ p ∈ f.params.zip f.paramTys, Older s.nextName p.1 := fun p hp =>
    hnames p.1 (NameMap.mem_keys.mpr ⟨p.2, hparams p hp⟩)
  rw [WellFormed.function_iff, Func.statements, ← h.sound, List.nil_append, and_iff_right, and_iff_right]
  · exact fun p hp => (h.env_of_old (hold p hp)).trans (hparams p hp)
  · obtain ⟨hinputs, -, hapart⟩ := List.nodup_append.mp hnd
    refine List.nodup_append.mpr ⟨hinputs, h.nodup, fun x hx y hy hxy => ?_⟩
    obtain ⟨p, hp, rfl⟩ := List.mem_map.mp hx
    rcases h.bound y hy with hy | hy
    · exact hapart _ hx y hy hxy
    · exact h.taken.not_mem_of_older (hold p hp) (hxy ▸ hy)

/-- A name just taken is free, if the registered functions have older ones. -/
theorem register_fresh (hfns : ∀ g ∈ s.functions, Older s.nextName g.name) (stem : String) {g : Func}
    (hg : g.name = (s.fresh stem).1) : ∃ s', (s.fresh stem).2.register g = .ok s' := by
  have hnone : (s.fresh stem).2.find? g.name = none := by
    refine List.find?_eq_none.mpr fun k hk => ?_
    intro hname
    have hlt := hfns k hk stem s.nextName ((of_decide_eq_true hname).trans hg)
    exact Nat.lt_irrefl _ hlt
  exact ⟨_, by rw [Session.register, hnone]⟩

theorem fair_iff {ps : List Stmt} : Fair factor ps ↔ factor.val = 1 ∨ ∀ p ∈ ps, Unrollable p := by
  rw [Fair, ← or_iff_not_imp_left]
  refine or_congr_right ⟨fun h p hp => ?_, fun h c body m hp => h _ hp⟩
  cases p with
  | forLoop c body m => exact h c body m hp
  | _ => trivial

/-- Unrolling, where names of the function and of the registered functions do not have numbers still to be
taken, ends with a new function just if no loop steps down by a constant and those that are unrolled have even
bounds. If a loop steps down by a constant, that is the failure. -/
theorem unrolls_iff (factor : UnrollFactor) (s : Session) (f : Func) (hverify : f.verify = .ok ())
    (htyped : ∀ x t, .var x t ∈ f.subterms → f.env.get? x = some t) (hnames : ∀ x ∈ f.env.keys, Older s.nextName x)
    (hfns : ∀ g ∈ s.functions, Older s.nextName g.name) :
    ((∃ g s', (pass factor).apply () f s = .ok (g, ()) s') ↔
      factor.val = 1 ∨ ∀ p ∈ f.statements, stepsDown? p = none ∧ Unrollable p) ∧
    (factor.val ≠ 1 → (∃ p ∈ f.statements, stepsDown? p ≠ none) →
      ∃ p ∈ f.statements, ∃ d s', stepsDown? p = some d ∧
        (pass factor).apply () f s = .error (.error (.downwardStep d)) s') := by
  obtain ⟨hnd, -, hsound⟩ := WellFormed.function_iff.mp hverify
  have hends : EndsWith _ _ ((pass factor).body f () ⟨s, f.env, []⟩) :=
    body_ends (hsound.ready htyped) (List.nodup_append.mp hnd).2.1 hnames
  cases hbody : (pass factor).body f () ⟨s, f.env, []⟩ with
  | error e b =>
    rw [hbody] at hends
    obtain ⟨d, ⟨h1, p, hp, hd⟩, rfl⟩ := hends
    have happly : (pass factor).apply () f s = .error (.error (.downwardStep d)) b.session := by
      rw [Pass.apply, hbody]
    refine ⟨⟨?_, ?_⟩, fun _ _ => ⟨p, hp, d, _, hd, happly⟩⟩
    · rintro ⟨g, s', hok⟩
      rw [happly] at hok
      cases hok
    · rintro (h | h)
      · exact absurd h h1
      · rw [(h p hp).1] at hd
        cases hd
  | ok r b =>
    obtain ⟨body, ⟨⟩⟩ := r
    rw [hbody] at hends
    obtain ⟨hdown, N, h⟩ := hends
    have hnone : factor.val ≠ 1 → ∀ p ∈ f.statements, stepsDown? p = none := fun h1 p hp =>
      Option.eq_none_iff_forall_ne_some.mpr fun d hd => hdown d ⟨h1, p, hp, hd⟩
    refine ⟨?_, fun h1 ⟨p, hp, hne⟩ => absurd (hnone h1 p hp) hne⟩
    have hblock : b.block ++ body = body := by rw [h.block]; rfl
    have hfair : Fair factor f.statements ↔ factor.val = 1 ∨
        ∀ p ∈ f.statements, stepsDown? p = none ∧ Unrollable p := by
      rw [fair_iff, or_iff_not_imp_left, or_iff_not_imp_left]
      exact forall_congr' fun h1 => forall₂_congr fun p hp => (and_iff_right (hnone h1 p hp)).symm
    rw [← hfair, ← verify_rebuilt hverify hnames h (b.session.fresh f.name).1]
    constructor
    · rintro ⟨g, s', hok⟩
      obtain ⟨body', b', hbody', hpublish⟩ := Pass.apply_ok hok
      cases hbody.symm.trans hbody'
      obtain ⟨hleave, hg, -⟩ := Pass.publish_ok hpublish
      cases hleave
      rwa [hblock] at hg
    · intro hg
      have hregistered : ∀ k ∈ b.session.functions, Older b.session.nextName k.name := by
        rw [h.session]
        exact fun k hk => (hfns k hk).mono h.next
      let g : Func := { f with name := (b.session.fresh f.name).1, env := b.env, body := body }
      obtain ⟨s', hreg⟩ := register_fresh hregistered f.name (g := g) rfl
      have hpublish : (pass factor).publish () f b.env body b.session = .ok g s' := Pass.publish_of_ok rfl hg hreg
      refine ⟨g, s', ?_⟩
      rw [Pass.apply, hbody]
      dsimp only
      rw [hblock]
      exact state_bind_of_ok hpublish

end Apply

/-- Counts from nought up to `n`, with a start and a step of the given types. -/
def counting (start step : ScalarTy) : Func where
  name := "count"
  params := ["n"]
  paramTys := [.i64]
  result := .i64
  env := .ofList [("n", .i64), ("i", .scalar start), ("m", .i64), ("c", .i64)]
  body := [.forLoop ⟨"i", .int 0 start, .var "n" .i64, .int 1 step⟩
      [.assign (.var "c" .i64) (.prim .add [.var "m" .i64, .int64 1] .i64)] (.ofList [("m", .int64 0, .var "c" .i64)]),
    .ret (.var "m" .i64)]

/-- The step may be narrower than the start. -/
theorem unrolls_counting : (counting .i64 .i32).verify = .ok () ∧
    (∀ x t, .var x t ∈ (counting .i64 .i32).subterms → (counting .i64 .i32).env.get? x = some t) ∧
    (∀ x ∈ (counting .i64 .i32).env.keys, Older ({} : Session).nextName x) ∧
    (∀ g ∈ ({} : Session).functions, Older ({} : Session).nextName g.name) ∧
    ∃ g s', (pass ⟨4, by decide⟩).apply () (counting .i64 .i32) {} = .ok (g, ()) s' := by
  have hverify : (counting .i64 .i32).verify = .ok () := rfl
  have htyped : ∀ x t, .var x t ∈ (counting .i64 .i32).subterms → (counting .i64 .i32).env.get? x = some t := by
    have hall : ∀ e ∈ (counting .i64 .i32).subterms,
        e.var?.all (fun x => (counting .i64 .i32).env.get? x = some e.ty) = true := by decide
    exact fun x t h => of_decide_eq_true (hall _ h)
  have hnames : ∀ x ∈ (counting .i64 .i32).env.keys, Older ({} : Session).nextName x := by
    have hdots : ∀ x ∈ (counting .i64 .i32).env.keys, '.' ∉ x.toList := by decide
    intro x hx a i h
    refine absurd ?_ (hdots x hx)
    rw [h]
    simp [numbered]
  have hfns : ∀ g ∈ ({} : Session).functions, Older ({} : Session).nextName g.name :=
    fun g hg => absurd hg List.not_mem_nil
  refine ⟨hverify, htyped, hnames, hfns,
    (unrolls_iff ⟨4, by decide⟩ {} (counting .i64 .i32) hverify htyped hnames hfns).1.mpr (.inr ?_)⟩
  have hup : ∀ p ∈ (counting .i64 .i32).statements, stepsDown? p = none := by decide
  refine fun p hp => ⟨hup p hp, ?_⟩
  cases p with
  | forLoop c body m =>
    intro _
    simp [counting, Func.statements, blockParts, Stmt.parts] at hp
    rw [hp.1]
    exact .inl rfl
  | _ => trivial

/-- The declaration that a failure is about. -/
def mismatch? {σ α : Type} : EStateM.Result Fault σ α → Option (VarName × Ty × Ty)
  | .error (.error (.declarationMismatch x t u)) _ => some (x, t, u)
  | _ => none

theorem exists_of_mismatch {σ α : Type} {r : EStateM.Result Fault σ α} {u : Ty} (h : mismatch? r = some (x, t, u)) :
    ∃ s, r = .error (.error (.declarationMismatch x t u)) s := by
  unfold mismatch? at h
  split at h
  · cases h
    exact ⟨_, rfl⟩
  · cases h

/-- With a start that is narrower than the stop the new function fails its check. -/
theorem narrow_start_not_unrolled : (counting .i32 .i32).verify = .ok () ∧
    (∀ p ∈ (counting .i32 .i32).statements, stepsDown? p = none) ∧
    ∃ s', (pass ⟨2, by decide⟩).apply () (counting .i32 .i32) {} =
      .error (.error (.declarationMismatch "i" (.scalar .i32) .i64)) s' := by
  exact ⟨rfl, by decide, exists_of_mismatch (by decide +kernel)⟩

end Unrolling

end ArrayIR
