/-
  ArrayIR.Proofs.Discipline.Unrolling — unrolling keeps to a discipline.

  An unrolled loop consists of copies of the loop's own code, and of arithmetic on its
  counter. So whatever nodes are allowed, unrolling adds no others (`Unrolling.walk`).
  Here all names are taken to be in scope.
-/

import ArrayIR.Pass.Unrolling
import ArrayIR.Proofs.Discipline.Copying
import ArrayIR.Proofs.Discipline.Replacing
import ArrayIR.Proofs.Unrolling.Emitted

namespace ArrayIR

open Stmt (Fits blockFits blockFits_append)

namespace Unrolling

open Discipline Discipline.Frame

variable {D : Discipline} {s₀ : Session} {env : TypeEnv} {w : World} {r : Renaming}

/-- Whatever the names of the code being copied stand for can be emitted. -/
abbrev Standing (D : Discipline) (s₀ : Session) (env : TypeEnv) (w : World) (r : Renaming) : Prop :=
  D.Stands s₀ env True Set.univ w r

theorem Standing.univ (h : Standing D s₀ env w r) : w.names = Set.univ := h.all trivial

theorem Standing.later {w' : World} {r' : Renaming} {xs : List VarName} (h : Standing D s₀ env w r)
    (hm : (D.copied s₀ env True).Moves xs w.session r w'.session r') (hw : D.Below w w') : Standing D s₀ env w' r' := by
  have hst : Standing D s₀ env ⟨w'.session, w.names⟩ r' := hm _ _ (.inl trivial) h
  exact hst.mono (.of (D.refl _) hw.2)

theorem current_sees (h : Standing D s₀ env w r) (x : VarName) : D.Sees w (current r x) := by
  unfold current
  cases hg : r.renames.get? x with
  | none => exact sees_nothing
  | some e => exact h.renamed x trivial e hg

/-- The assignments that carry values from one copy to the next. -/
theorem carry_fits {m : Merge} {r' : Renaming} (h : Standing D s₀ env w r) (h' : Standing D s₀ env w r')
    (hback : ∀ p ∈ m.values, p.2.Fits (D.Node s₀) Set.univ) : blockFits (D.rule w.session) (carry m r r') Set.univ := by
  refine Stmt.blockFits_of_forall fun s hs => ?_
  obtain ⟨⟨x, p⟩, hp, rfl⟩ := List.mem_map.mp hs
  have hp : p ∈ m.values := NameMap.mem_values.mpr ⟨x, NameMap.mem_toList.mp hp⟩
  rw [← h.univ]
  exact fits_assign (current_sees h' x) (subst_sees h (hback p hp))

theorem bounds_lays {l : Loop} (hc : D.Sees w l.counter.start ∧ D.Sees w l.counter.stop ∧ D.Sees w l.counter.step)
    (factor : UnrollFactor) :
    D.Lays w (fun w' p => D.Sees w' p.1 ∧ D.Sees w' p.2) (l.bounds factor) := by
  obtain ⟨hstart, hstop, hstep⟩ := hc
  refine (prim_two_lays hstop hstart .sub "iter_range").bind fun w1 range hw1 hrange => ?_
  refine (prim_two_lays (sees_scalar _ _) (hstep.mono hw1) .mul "big_step").bind fun w2 big hw2 hbig => ?_
  refine (prim_two_lays (hrange.mono hw2) hbig .div "big_steps").bind fun w3 n hw3 hn => ?_
  refine (prim_two_lays hn (hbig.mono hw3) .mul "trunc").bind fun w4 trunc hw4 htrunc => ?_
  have hw := hw1.trans (hw2.trans (hw3.trans hw4))
  refine (prim_two_lays (hstart.mono hw) htrunc .add "unrolled_stop").bind fun w5 stop hw5 hstop => ?_
  exact .pure fun w' hw' => ⟨hbig.mono (hw3.trans (hw4.trans (hw5.trans hw'))), hstop.mono hw'⟩

/-- Where all names are in scope, a loop fits if its parts do. -/
theorem loop_fits {c : Counter} {body : Block} {m : Merge} (hall : w.names = Set.univ)
    (hc : D.Sees w c.start ∧ D.Sees w c.stop ∧ D.Sees w c.step) (hb : blockFits (D.rule w.session) body Set.univ)
    (hm : ∀ p ∈ m.values, D.Sees w p.1 ∧ D.Sees w p.2) : (Stmt.forLoop c body m).Fits (D.rule w.session) w.names := by
  have hext : ∀ xs, extend w.names xs = w.names := fun xs => by rw [hall, extend_univ]
  rw [← hall] at hb
  refine ⟨hc.1, hc.2.1, hc.2.2, trivial, ?_, fun _ _ => trivial, fun p hp => ⟨(hm p hp).1, ?_⟩⟩
  · rwa [hext]
  · rw [hext, hext]
    exact (hm p hp).2

section Copies

variable (htyped : ∀ s t, D.Typed s t)

include htyped

theorem binding_standing (h : Standing D s₀ env w r) (x : VarName) :
    D.Lays w (fun w' p => Standing D s₀ env w' p.2) (Renaming.binding x r) :=
  (binding_lays h fun t _ => htyped s₀ t).mono fun _ _ hw ⟨_, hm, _⟩ => h.later hm hw

theorem rebind_standing (h : Standing D s₀ env w r) (x : VarName) (m : Merge) :
    D.Lays w (fun w' p => Standing D s₀ env w' p.2) (rebind x m r) := by
  refine .passBind (binding_standing htyped h x) fun w1 y r1 _ h1 => ?_
  refine .passMap (.passMapM (I := Standing D s₀ env) (Q := fun _ _ => True) (fun _ _ => trivial)
    (fun hw h => h.mono hw)
    (fun z _ w' r' _ h' => (binding_standing htyped h' z).mono fun _ _ _ h => ⟨trivial, h⟩) h1)
      fun _ _ _ _ ⟨_, _, h2⟩ => h2

/-- A copy of a block. -/
theorem copied_block {body : Block} (h : Standing D s₀ env w r) (hb : blockFits (D.rule s₀) body Set.univ) :
    D.Lays w (fun w' p => blockFits (D.rule w'.session) p.1 Set.univ ∧ Standing D s₀ env w' p.2)
      (Renaming.pass.block body r) := by
  have hrule : (D.rule s₀).Implies (D.source s₀ env) :=
    ⟨fun _ => id, fun _ => id, fun _ _ t _ => htyped s₀ t, fun _ _ _ _ _ _ t _ => htyped s₀ t⟩
  refine ((D.copying s₀ env True).block_lays h (blockFits.mono hrule hb subset_rfl) (.inl trivial)).mono
    fun w' p hw ⟨hfit, hm⟩ => ⟨?_, h.later hm hw⟩
  rw [← h.univ]
  exact hfit

variable {l : Loop}

/-- One more copy of the body, with the assignments that lead to it. -/
theorem copy_lays (h : Standing D s₀ env w r) (hb : blockFits (D.rule s₀) l.body Set.univ)
    (hback : ∀ p ∈ l.merge.values, p.2.Fits (D.Node s₀) Set.univ) (hstep : D.Sees w l.counter.step)
    (first : VarName) (k : Nat) :
    D.Lays w (fun w' p => blockFits (D.rule w'.session) p.1 Set.univ ∧ Standing D s₀ env w' p.2)
      (l.copy first k r) := by
  refine .passLook (.passBind (rebind_standing htyped h l.counter.var l.merge) fun w1 x r1 hw1 h1 => .passLook ?_)
  have hcarried := carry_fits (h.mono hw1) h1 hback
  refine .passBind (.passLift (prim_two_lays (hstep.mono hw1) (sees_scalar _ _) .mul "offset"))
    fun w2 e r2 hw2 ⟨he, hr2⟩ => ?_
  change r2 = r1 at hr2
  subst hr2
  refine .passMap (copied_block htyped (h1.mono hw2) hb) fun w3 body r3 hw3 ⟨hbody, h3⟩ => ⟨?_, h3⟩
  have hcount : Fits (D.rule w3.session)
      (.assign (.var x l.counterTy) (.prim .add [.var first l.counterTy, e] l.counterTy)) Set.univ := by
    rw [← h3.univ]
    have hfirst : D.Sees w3 (.var first l.counterTy) := sees_var (htyped _ _) (h3.univ ▸ trivial)
    have hsum : D.Sees w3 (.prim .add [.var first l.counterTy, e] l.counterTy) :=
      sees_made rfl rfl (htyped _ _) (by simp [hfirst, he.mono hw3])
    exact ⟨node_made rfl (htyped _ _), hsum, trivial⟩
  rw [blockFits_append, blockFits_append, extend_univ, extend_univ, Stmt.blockFits_singleton]
  exact ⟨⟨blockFits.mono (rule_implies (hw2.trans hw3).1) hcarried subset_rfl, hcount⟩, hbody⟩

theorem copies_lays (h : Standing D s₀ env w r) (hb : blockFits (D.rule s₀) l.body Set.univ)
    (hback : ∀ p ∈ l.merge.values, p.2.Fits (D.Node s₀) Set.univ) (hstep : D.Sees w l.counter.step)
    (first : VarName) (n k : Nat) :
    D.Lays w (fun w' p => blockFits (D.rule w'.session) p.1 Set.univ ∧ Standing D s₀ env w' p.2)
      (l.copies first n k r) := by
  induction n generalizing w r k with
  | zero => exact .passPure fun w' hw => ⟨trivial, h.mono hw⟩
  | succ n ih =>
    refine .passBind (copy_lays htyped h hb hback hstep first k) fun w1 ss r1 hw1 ⟨hss, h1⟩ => ?_
    refine .passMap (ih h1 (hstep.mono hw1) (k + 1)) fun w2 ts r2 hw2 ⟨hts, h2⟩ => ⟨?_, h2⟩
    rw [blockFits_append, extend_univ]
    exact ⟨blockFits.mono (rule_implies hw2.1) hss subset_rfl, hts⟩

/-- The unrolled loop is emitted, and the loop for the iterations left over is given back. -/
theorem split_lays (hall : w.names = Set.univ)
    (hl : (Stmt.forLoop l.counter l.body l.merge).Fits (D.rule w.session) Set.univ) (factor : UnrollFactor) :
    D.Lays w (fun w' r => r.Fits (D.rule w'.session) w'.names ∧ ∀ x ∈ l.merge.keys, x ∈ r.defines)
      (l.split factor) := by
  obtain ⟨h1, h2, h3, -, hbody, -, hsides⟩ := hl
  rw [extend_univ] at hbody
  have hback : ∀ p ∈ l.merge.values, p.2.Fits (D.Node w.session) Set.univ := fun p hp => by
    have := (hsides p hp).2
    rwa [extend_univ, extend_univ] at this
  have hsees : ∀ {e : Expr}, e.Fits (D.Node w.session) Set.univ → D.Sees w e := fun h => by rwa [← hall] at h
  unfold Loop.split
  refine (bounds_lays ⟨hsees h1, hsees h2, hsees h3⟩ factor).bind fun w1 ⟨big, stop⟩ hw1
    ⟨hbig, hstop⟩ => .look fun b => ?_
  have hstart : Standing D w.session b.env w1 { source := b.env } :=
    stands_all hw1.1 (Set.eq_univ_of_univ_subset (hall ▸ hw1.2))
  refine (rebind_standing htyped hstart l.counter.var l.merge).bind fun w2 ⟨var, first⟩ hw2 hfirst => ?_
  change Standing D w.session b.env w2 first at hfirst
  have hcode : D.Lays w2 (fun w' p => blockFits (D.rule w'.session) p.1 Set.univ ∧ Standing D w.session b.env w' p.2)
      ((do
        let body ← Renaming.pass.block l.body
        return body ++ (← l.copies var (factor.val - 1) 1) : PassM Renaming Block) first) := by
    refine .passBind (copied_block htyped hfirst hbody) fun w3 ss r3 hw3 ⟨hss, hr3⟩ => ?_
    have hstep := (hsees h3).mono (hw1.trans (hw2.trans hw3))
    refine .passMap (copies_lays htyped hr3 hbody hback hstep var _ 1) fun w4 ts r4 hw4 ⟨hts, hr4⟩ => ⟨?_, hr4⟩
    rw [blockFits_append, extend_univ]
    exact ⟨blockFits.mono (rule_implies hw4.1) hss subset_rfl, hts⟩
  refine hcode.bind fun w3 ⟨body, last⟩ hw3 ⟨hfit, hlast⟩ => ?_
  change Standing D w.session b.env w3 last at hlast
  have hw : D.Below w w3 := hw1.trans (hw2.trans hw3)
  have hmerge : ∀ {x : VarName} {p : Expr × Expr}, (x, p) ∈ l.merge.toList → p ∈ l.merge.values := fun hp =>
    NameMap.mem_values.mpr ⟨_, NameMap.mem_toList.mp hp⟩
  have hunrolled : Fits (D.rule w3.session) (.forLoop ⟨var, l.counter.start, stop, big⟩ body
      (NameMap.ofList (l.merge.toList.filterMap fun p => (current first p.1).var?.map (·, p.2.1, last.subst p.2.2))))
      w3.names := by
    refine loop_fits hlast.univ ⟨(hsees h1).mono hw, hstop.mono (hw2.trans hw3),
      hbig.mono (hw2.trans hw3)⟩ hfit fun q hq => ?_
    obtain ⟨⟨y, q'⟩, hy, rfl⟩ := List.mem_map.mp (NameMap.mem_values_ofList hq)
    obtain ⟨⟨x, p⟩, hp, hx⟩ := List.mem_filterMap.mp hy
    obtain ⟨z, -, hz⟩ := Option.map_eq_some_iff.mp hx
    cases hz
    exact ⟨(hsees (hsides p (hmerge hp)).1).mono hw, subst_sees hlast (hback p (hmerge hp))⟩
  refine (emit_lays hunrolled).bind fun w4 _ hw4 _ => .pure fun w5 hw5 => ?_
  have hw' : D.Below w w5 := hw.trans (hw4.trans hw5)
  have hfirst' : Standing D w.session b.env w5 first := hfirst.mono (hw3.trans (hw4.trans hw5))
  refine ⟨loop_fits hfirst'.univ ⟨hstop.mono (hw2.trans (hw3.trans (hw4.trans hw5))),
    (hsees h2).mono hw', (hsees h3).mono hw'⟩
    (blockFits.mono (rule_implies hw'.1) hbody subset_rfl) fun q hq => ?_, fun x hx => ?_⟩
  · obtain ⟨⟨y, q'⟩, hy, rfl⟩ := List.mem_map.mp (NameMap.mem_values_ofList hq)
    obtain ⟨⟨x, p⟩, hp, hx⟩ := List.mem_map.mp hy
    cases hx
    exact ⟨current_sees hfirst' _, (hsees (hback p (hmerge hp))).mono hw'⟩
  · refine NameMap.mem_keys_ofList.mpr ?_
    rw [List.map_map]
    exact hx

/-- A loop is unrolled, or stays as it is. -/
theorem loop_lays (factor : UnrollFactor) {c : Counter} {body : Block} {m : Merge} (hall : w.names = Set.univ)
    (hl : (Stmt.forLoop c body m).Fits (D.rule w.session) w.names) :
    D.Lays w (fun w' r => r.Fits (D.rule w'.session) w'.names ∧ ∀ x ∈ m.keys, x ∈ r.defines)
      (Unrolling.loop factor c body m) := by
  have hsame : D.Lays w (fun w' (r : Stmt) => r.Fits (D.rule w'.session) w'.names ∧ ∀ x ∈ m.keys, x ∈ r.defines)
      (pure (.forLoop c body m)) := .pure fun w' hw => ⟨Fits.mono (rule_implies hw.1) hl hw.2, fun _ => id⟩
  have hgo : D.Lays w (fun w' r => r.Fits (D.rule w'.session) w'.names ∧ ∀ x ∈ m.keys, x ∈ r.defines)
      (loop.go factor c body m) := by
    unfold loop.go
    split
    · refine (lookupTy_lays c.var).bind fun w1 t hw1 _ => ?_
      have hall1 : w1.names = Set.univ := Set.eq_univ_of_univ_subset (hall ▸ hw1.2)
      rw [hall] at hl
      exact split_lays htyped (l := ⟨c, body, m, t⟩) hall1 (Fits.mono (rule_implies hw1.1) hl subset_rfl) factor
    · exact hsame
  unfold Unrolling.loop
  split
  · exact hsame
  · split
    · split
      · exact .fail _
      · exact hgo
    · exact hgo

end Copies

/-- Unrolling keeps to every discipline under which types do not matter. -/
def walk (htyped : ∀ s t, D.Typed s t) (s₀ : Session) (factor : UnrollFactor) :
    D.Walk (pass factor) { node := D.Node s₀ } :=
  Walk.keeping replace_rebuild (fun _ => rfl) (fun _ _ => rfl) fun hall _ hl =>
    (Lays.passLift (loop_lays htyped factor (hall trivial) hl)).mono fun _ _ _ h => h.1

end Unrolling

end ArrayIR
