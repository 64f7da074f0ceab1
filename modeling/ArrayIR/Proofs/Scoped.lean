/-
  ArrayIR.Proofs.Scoped — the same statement where it is in scope.

  Where the names that are defined have alike values in two runs, a statement does
  the same in both, whatever the other names are; so does one whose blocks have been
  replaced by others that simulate them. There is a rule for each kind of statement,
  and from them a block that is well scoped simulates itself (`Eval.scoped_block_sim`).
-/

import ArrayIR.Proofs.Copy

namespace ArrayIR

open Stmt (blockAfter blockWellScoped wellScoped)

namespace Eval

variable {k : Likeness} {call call' : Caller} {fuel : Nat} {V V' : List VarName} {m : Merge}
  {side : Expr × Expr → Expr} {F F1 F2 : Locals → Store → Prop}

theorem block_singleton (call : Caller) (fuel : Nat) (s : Stmt) : block call fuel [s] = stmt call fuel s := by
  funext L
  rw [block_cons]
  have : (fun fl : Flow => fl.andThen (block call fuel [])) = pure := by
    funext fl
    cases fl with
    | next L => exact block_nil call fuel L
    | returned v => rfl
  rw [this, bind_pure]

theorem expr_scoped (hcall : CallersAlike k call call') {e : Expr} (ha : k.Admits e) (he : e.within V = true) :
    Across k (.names k (· ∈ V) .none) (Likes k) (expr call · e) (expr call' · e) := by
  intro w L L' hL
  have := expr_inStep (fun _ => hcall) e ha Renaming.none_atomic (Link.names.readsAlike hL (Expr.within_iff.mp he))
  rwa [Renaming.subst_none] at this

theorem bindMerge_scoped (hcall : CallersAlike k call call') (hmem : ∀ p ∈ m.values, side p ∈ m.exprs)
    (ha : ∀ e ∈ m.exprs, k.Admits e) (hs : Stmt.sideWithin m side (some V) = true)
    (hV' : ∀ x ∈ V', x ∉ m.keys → x ∈ V) :
    Across k (.names k (· ∈ V) .none) (Link.names k (· ∈ V') .none).holds (bindMerge call m side)
      (bindMerge call' m side) := by
  have hes : List.Forall₂ (fun p q : VarName × Expr × Expr => p.1 = q.1 ∧ Across k (.names k (· ∈ V) .none) (Likes k)
      (expr call · (side p.2)) (expr call' · (side q.2))) m.toList m.toList := by
    refine List.forall₂_same.mpr fun p hp => ⟨rfl, ?_⟩
    have hv : p.2 ∈ m.values := List.mem_map.mpr ⟨p, hp, rfl⟩
    exact expr_scoped hcall (ha _ (hmem _ hv)) (List.all_eq_true.mp hs _ hv)
  intro w L L' hL
  refine (mergeValues_across hes hL).bind fun w1 vs us hle h => ?_
  obtain ⟨hvs, hn, hn'⟩ := h
  have hnd : (m.toList.map (·.1)).Nodup := m.keys_nodup
  refine .pure (Link.names.insertAll ((Link.names k (· ∈ V) .none).mono hle hL)
    (hvs.imp fun p q h => ⟨congrArg some h.1, h.2⟩) (hn ▸ hnd) (hn' ▸ hnd) fun x hx hx' => ⟨?_, rfl, ?_⟩)
  · rw [hn] at hx'
    exact hV' x hx hx'
  · intro y hy he
    cases he
    rw [hn'] at hy
    exact hx' (hn ▸ hy)

namespace Sim

theorem assignScoped (hcall : CallersAlike k call call') {target value : Expr}
    (ha : k.AdmitsStmt (.assign target value)) (hs : (Stmt.assign target value).wellScoped V = true) :
    Sim k (.names k (· ∈ V) .none) F (stmt call fuel (.assign target value)) (stmt call' fuel (.assign target value))
      (.scope k .none ((Stmt.assign target value).after V)) := by
  rw [wellScoped, Bool.and_eq_true] at hs
  have hv := expr_scoped hcall ha.1 hs.1
  cases target with
  | var x t =>
    refine assignVar hv fun hL hab => Link.names.insert hL rfl hab fun z hz hne => ?_
    exact ⟨(List.mem_cons.mp hz).resolve_left hne, rfl, fun he => hne (Option.some.inj he)⟩
  | index a i t =>
    obtain ⟨hk, hst, haa, hai⟩ := ha.2
    obtain ⟨hsa, hsi⟩ := Bool.and_eq_true_iff.mp hs.2
    exact assignIndex hk hst hv (expr_scoped hcall haa hsa) (expr_scoped hcall hai hsi)
  | _ => exact assignFails hv rfl rfl

theorem iteScoped (hcall : CallersAlike k call call') {c : Expr} {yes no yes' no' : List Stmt}
    (hac : k.Admits c) (ham : ∀ e ∈ m.exprs, k.Admits e) (hs : (Stmt.ite c yes no m).wellScoped V = true)
    (hyes : Sim k (.names k (· ∈ V) .none) F1 (block call fuel yes) (block call' fuel yes')
      (.scope k .none (blockAfter yes V)))
    (hno : Sim k (.names k (· ∈ V) .none) F2 (block call fuel no) (block call' fuel no')
      (.scope k .none (blockAfter no V))) :
    Sim k (.names k (· ∈ V) .none)
      (fun L st => ∀ b st1, condition call L c st = .ok b st1 → if b then F1 L st1 else F2 L st1)
      (stmt call fuel (.ite c yes no m)) (stmt call' fuel (.ite c yes' no' m))
      (.scope k .none ((Stmt.ite c yes no m).after V)) := by
  simp only [wellScoped, Bool.and_eq_true] at hs
  obtain ⟨⟨⟨⟨hsc, hsy⟩, hsn⟩, hsl⟩, hsr⟩ := hs
  have hcond := expr_scoped hcall hac hsc
  have left : ∀ {V1 W : List VarName}, blockAfter yes V = some V1 → (∀ x ∈ W, x ∉ m.keys → x ∈ V1) →
      Across k (.names k (· ∈ V1) .none) (Link.names k (· ∈ W) .none).holds (bindMerge call m Prod.fst)
        (bindMerge call' m Prod.fst) := by
    intro V1 W h1 hW
    rw [h1] at hsl
    exact bindMerge_scoped hcall Merge.fst_mem_exprs ham hsl hW
  have right : ∀ {V2 W : List VarName}, blockAfter no V = some V2 → (∀ x ∈ W, x ∉ m.keys → x ∈ V2) →
      Across k (.names k (· ∈ V2) .none) (Link.names k (· ∈ W) .none).holds (bindMerge call m Prod.snd)
        (bindMerge call' m Prod.snd) := by
    intro V2 W h2 hW
    rw [h2] at hsr
    exact bindMerge_scoped hcall Merge.snd_mem_exprs ham hsr hW
  rw [Stmt.after]
  cases h1 : blockAfter yes V <;> cases h2 : blockAfter no V <;> rw [h1] at hyes <;> rw [h2] at hno <;>
    refine ite hcond hyes hno ?_ ?_
  all_goals first | exact fun _ _ _ h => h.elim | skip
  · exact right h2 fun x hx hn => (List.mem_append.mp hx).resolve_left hn
  · exact left h1 fun x hx hn => (List.mem_append.mp hx).resolve_left hn
  · exact left h1 fun x hx hn => (List.mem_filter.mp ((List.mem_append.mp hx).resolve_left hn)).1
  · exact right h2 fun x hx hn => of_decide_eq_true (List.mem_filter.mp ((List.mem_append.mp hx).resolve_left hn)).2

/-- The merge at the end of a loop's body. -/
theorem backScoped (hcall : CallersAlike k call call') {body : List Stmt} {W : List VarName}
    (ham : ∀ e ∈ m.exprs, k.Admits e) (hs : Stmt.sideWithin m Prod.snd (blockAfter body W) = true)
    (hW : ∀ x ∈ V, x ∈ W) :
    Across k (.scope k .none (blockAfter body W)) (Link.names k (· ∈ V) .none).holds (bindMerge call m Prod.snd)
      (bindMerge call' m Prod.snd) := by
  cases hafter : blockAfter body W with
  | none => exact fun _ _ _ h => h.elim
  | some W' =>
    rw [hafter] at hs
    exact bindMerge_scoped hcall Merge.snd_mem_exprs ham hs fun x hx _ => (Stmt.blockAfter_mem hafter).1 x (hW x hx)

theorem whileScoped (hcall : CallersAlike k call call') {c : Expr} {body body' : List Stmt} (hac : k.Admits c)
    (ham : ∀ e ∈ m.exprs, k.Admits e) (hs : (Stmt.whileLoop c body m).wellScoped V = true)
    (hbody : Sim k (.names k (· ∈ m.keys ++ V) .none) F (block call fuel body) (block call' fuel body')
      (.scope k .none (blockAfter body (m.keys ++ V)))) :
    Sim k (.names k (· ∈ V) .none)
      (fun L st => ∀ L1 st1, bindMerge call m Prod.fst L st = .ok L1 st1 →
        IterateGuard F (condition call · c) (block call fuel body) (bindMerge call m Prod.snd) fuel L1 st1)
      (stmt call fuel (.whileLoop c body m)) (stmt call' fuel (.whileLoop c body' m))
      (.scope k .none ((Stmt.whileLoop c body m).after V)) := by
  simp only [wellScoped, Bool.and_eq_true] at hs
  obtain ⟨⟨⟨hse, hsc⟩, -⟩, hsr⟩ := hs
  exact whileLoop (bindMerge_scoped hcall Merge.fst_mem_exprs ham hse fun x hx hn =>
    (List.mem_append.mp hx).resolve_left hn) (expr_scoped hcall hac hsc) hbody (backScoped hcall ham hsr fun _ => id)

theorem insertScoped {w : Pairing} {L L' : Locals} (hL : (Link.names k (· ∈ V) .none).holds w L L') (x : VarName)
    {v u : Value} (hv : Likes k w v u) :
    (Link.names k (· ∈ x :: V) .none).holds w (L.insert x v) (L'.insert x u) :=
  Link.names.insert hL rfl hv fun _ hz hne =>
    ⟨(List.mem_cons.mp hz).resolve_left hne, rfl, fun he => hne (Option.some.inj he)⟩

theorem forScoped (hcall : CallersAlike k call call') {c : Counter} {body body' : List Stmt}
    (ha : k.Admits c.start ∧ k.Admits c.stop ∧ k.Admits c.step) (ham : ∀ e ∈ m.exprs, k.Admits e)
    (hs : (Stmt.forLoop c body m).wellScoped V = true)
    (hbody : Sim k (.names k (· ∈ c.var :: (m.keys ++ V)) .none) F (block call fuel body) (block call' fuel body')
      (.scope k .none (blockAfter body (c.var :: (m.keys ++ V))))) :
    Sim k (.names k (· ∈ V) .none)
      (fun L st => ∀ h st1, Eval.header call L c st = .ok h st1 →
        ∀ L1 st2, bindMerge call m Prod.fst L st1 = .ok L1 st2 →
          RepeatGuard F c.var h.step (block call fuel body) (bindMerge call m Prod.snd) h.trips h.start L1 st2)
      (stmt call fuel (.forLoop c body m)) (stmt call' fuel (.forLoop c body' m))
      (.scope k .none ((Stmt.forLoop c body m).after V)) := by
  simp only [wellScoped, Bool.and_eq_true] at hs
  obtain ⟨⟨⟨⟨⟨hs1, hs2⟩, hs3⟩, hse⟩, -⟩, hsr⟩ := hs
  refine forLoop (header (expr_scoped hcall ha.1 hs1) (expr_scoped hcall ha.2.1 hs2) (expr_scoped hcall ha.2.2 hs3))
    (bindMerge_scoped hcall Merge.fst_mem_exprs ham hse fun x hx hn => (List.mem_append.mp hx).resolve_left hn)
    (fun i => ?_) (backScoped hcall ham hsr fun x hx => List.mem_cons_of_mem _ hx)
  intro w L st L' st' hst hL hf
  exact hbody w _ st _ st' hst (insertScoped hL c.var rfl) hf

/-- A statement that has become a block, and what follows it. -/
theorem consScoped {s : Stmt} {ss out out' : List Stmt}
    (h : Sim k (.names k (· ∈ V) .none) F1 (stmt call fuel s) (block call' fuel out) (.scope k .none (s.after V)))
    (h' : ∀ V1, s.after V = some V1 → Sim k (.names k (· ∈ V1) .none) F2 (block call fuel ss) (block call' fuel out')
      (.scope k .none (blockAfter ss V1))) :
    Sim k (.names k (· ∈ V) .none)
      (fun L st => F1 L st ∧ ∀ L1 st1, stmt call fuel s L st = .ok (.next L1) st1 → F2 L1 st1)
      (block call fuel (s :: ss)) (block call' fuel (out ++ out')) (.scope k .none (blockAfter (s :: ss) V)) := by
  have hcat : ∀ {Δ Θ : Link}, Sim k (.names k (· ∈ V) .none) F1 (stmt call fuel s) (block call' fuel out) Δ →
      Sim k Δ F2 (block call fuel ss) (block call' fuel out') Θ →
      Sim k (.names k (· ∈ V) .none)
        (fun L st => F1 L st ∧ ∀ L1 st1, stmt call fuel s L st = .ok (.next L1) st1 → F2 L1 st1)
        (block call fuel (s :: ss)) (block call' fuel (out ++ out')) Θ := by
    intro Δ Θ h1 h2 w L st L' st' hst hL hf
    rw [block_cons, block_append]
    exact h1.andThen h2 w L st L' st' hst hL hf
  rw [blockAfter]
  cases hafter : s.after V with
  | none =>
    rw [hafter] at h
    exact hcat h ofNever
  | some V1 =>
    rw [hafter] at h
    exact hcat h (h' V1 hafter)

end Sim

theorem scoped_tail {s : Stmt} {ss : List Stmt} {V1 : List VarName}
    (h : blockWellScoped (s :: ss) V = true) (hafter : s.after V = some V1) :
    blockWellScoped ss V1 = true := by
  rw [blockWellScoped, Bool.and_eq_true, hafter] at h
  exact h.2

mutual

theorem scoped_stmt_sim (hcall : CallersAlike k call call') : ∀ {s : Stmt} {V : List VarName},
    k.AdmitsStmt s → s.wellScoped V = true →
      Sim k (.names k (· ∈ V) .none) (fun _ _ => True) (stmt call fuel s) (stmt call' fuel s)
        (.scope k .none (s.after V))
  | .assign _ _, _, ha, hs => .assignScoped hcall ha hs
  | .ret _, _, ha, hs => .ret (expr_scoped hcall ha hs)
  | .ite c yes no m, V, ⟨hac, ham, hay, han⟩, hs => by
    have hs' := hs
    simp only [wellScoped, Bool.and_eq_true] at hs'
    obtain ⟨⟨⟨⟨-, hsy⟩, hsn⟩, -⟩, -⟩ := hs'
    exact (Sim.iteScoped hcall hac ham hs (scoped_block_sim hcall hay hsy) (scoped_block_sim hcall han hsn)).mono id
      (fun _ b _ _ => by cases b <;> trivial) id
  | .whileLoop c body m, V, ⟨hac, ham, hab⟩, hs => by
    have hs' := hs
    simp only [wellScoped, Bool.and_eq_true] at hs'
    exact (Sim.whileScoped hcall hac ham hs (scoped_block_sim hcall hab hs'.1.2)).mono id
      (fun _ _ _ _ => IterateGuard.trivial _ _ _ _ _ _) id
  | .forLoop c body m, V, ⟨ha1, ha2, ha3, ham, hab⟩, hs => by
    have hs' := hs
    simp only [wellScoped, Bool.and_eq_true] at hs'
    exact (Sim.forScoped hcall ⟨ha1, ha2, ha3⟩ ham hs (scoped_block_sim hcall hab hs'.1.2)).mono id
      (fun _ _ _ _ _ _ _ => RepeatGuard.trivial _ _ _ _ _ _ _ _) id

/-- A well-scoped block simulates itself from locals that are alike where it reads them. -/
theorem scoped_block_sim (hcall : CallersAlike k call call') : ∀ {ss : List Stmt} {V : List VarName},
    k.AdmitsBlock ss → blockWellScoped ss V = true →
      Sim k (.names k (· ∈ V) .none) (fun _ _ => True) (block call fuel ss) (block call' fuel ss)
        (.scope k .none (blockAfter ss V))
  | [], _, _, _ => .nil id
  | s :: ss, V, ha, hs => by
    have hs1 : s.wellScoped V = true := by
      rw [blockWellScoped, Bool.and_eq_true] at hs
      exact hs.1
    have h1 : Sim k (.names k (· ∈ V) .none) (fun _ _ => True) (stmt call fuel s) (block call' fuel [s])
        (.scope k .none (s.after V)) := by
      rw [block_singleton]
      exact scoped_stmt_sim hcall ha.1 hs1
    exact (Sim.consScoped h1 fun V1 hafter => scoped_block_sim hcall ha.2 (scoped_tail hs hafter)).mono id
      (fun _ => ⟨trivial, fun _ _ _ => trivial⟩) id

end

end Eval

end ArrayIR
