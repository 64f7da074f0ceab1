/-
  ArrayIR.Proofs.Discipline.Builder — the builder keeps to every discipline.

  The steps of building emit what any discipline allows, given expressions that can be
  emitted (`Discipline.laying`): what they make up themselves are nodes that are always
  allowed. So do all operations of the builder, adverbs over expressions and shape
  inference. Only a call depends on more, namely on whether the function may be called
  (`Discipline.Invocable`).
-/

import ArrayIR.Proofs.Building.Inference
import ArrayIR.Proofs.Discipline.Lays

namespace ArrayIR

namespace Discipline

open Build

variable {D : Discipline} {w : World} {e x y idx start stop step callable : Expr} {t : Ty} {args : List Expr}

/-! ## Steps -/

theorem assign_lays {x : VarName} {v : Expr} (ht : D.Typed w.session t) (hv : D.Sees w v) :
    D.Lays w (fun w' _ => D.Sees w' (.var x t)) (Build.assign (.var x t) v) := by
  have hfit : Stmt.Fits (D.rule w.session) (.assign (.var x t) v) w.names := ⟨node_made rfl ht, hv, trivial⟩
  refine (emit_lays hfit).mono fun w' _ hw hn => ?_
  refine sees_var (ht.mono hw.1) ?_
  rw [hn]
  exact .inr List.mem_cons_self

theorem temp_lays {v : Expr} (h : D.Sees w v) (name : String) :
    D.Lays w (fun w' e => D.Sees w' e ∧ e.ty = v.ty) (temp v name) := by
  refine (freshVar_lays v.ty name).bind fun w1 e hw1 he => ?_
  obtain ⟨x, rfl⟩ := he
  refine (assign_lays (h.mono hw1).typed (h.mono hw1)).bind fun w2 _ _ hx => ?_
  exact .pure fun w3 hw3 => ⟨hx.mono hw3, rfl⟩

/-- The callable can be called: what it captured can be emitted, and so can calls of its function. -/
structure Invocable (D : Discipline) (w : World) (callable : Expr) : Prop where
  captured : ∀ vs, captures callable = .ok vs → ∀ v ∈ vs, D.Sees w v
  call : ∀ s, D.le w.session s → ∀ fn ts f, callable.ty.callee? = some (fn, ts) → s.find? fn = some f →
    ∀ args, D.Node s (.call f.name args f.result)

theorem Invocable.mono {w' : World} {callable : Expr} (h : D.Invocable w callable) (hw : D.Below w w') :
    D.Invocable w' callable :=
  ⟨fun vs hvs v hv => (h.captured vs hvs v hv).mono hw, fun s hs => h.call s (D.trans hw.1 hs)⟩

theorem callee_lays (callable : Expr) :
    D.Lays w (fun w' f => ∃ fn ts, callable.ty.callee? = some (fn, ts) ∧ w'.session.find? fn = some f)
      (callee callable) := by
  unfold callee
  split
  · rename_i fn ts h
    exact (lookupFn_lays fn).mono fun w' f _ hf => ⟨fn, ts, h, hf⟩
  · exact .fail _

/-- What the steps of building do under the discipline. -/
def laying (D : Discipline) : Laying where
  World := World
  Below := D.Below
  Sees := D.Sees
  Invocable := D.Invocable
  Lays := D.Lays
  below_refl := Below.refl
  below_trans := Below.trans
  sees_mono := Sees.mono
  sees_child := Sees.child
  sees_made hv he hi hc := by
    refine sees_made hv he (fun f hf => ?_) hc
    obtain ⟨c, hm, hf⟩ := hi f hf
    exact (hc c hm).typed f hf
  invocable_mono := Invocable.mono
  captured h hvs := h.captured _ hvs
  pure_lays := .pure
  throw_lays := .throw
  bind_lays := .bind
  mono_lays := .mono
  lookupFn_lays fn := (lookupFn_lays fn).mono fun _ _ _ _ => trivial
  callee_lays hc := by
    refine (callee_lays _).mono fun w1 f hw1 ⟨fn, ts, hfn, hf⟩ w2 hw2 args ha => ?_
    have hnode := hc.call _ (D.trans hw1.1 hw2.1) fn ts f hfn (D.find hw2.1 hf) args
    exact Expr.fits_of_children (fun x t h => by cases h) hnode ha
  freshVar_lays := freshVar_lays
  temp_lays name h := temp_lays h name
  store_lays {w array idx region v} ha hv := by
    have hfit : Stmt.Fits (D.rule w.session) (.assign (.index array idx region) v) w.names := ⟨ha, hv, trivial⟩
    exact (emit_lays hfit).mono fun _ _ _ _ => trivial

/-! ## Operations -/

theorem sees_int (i : Int64) (elt : ScalarTy) : D.Sees w (.int i elt) := Laying.sees_int (L := D.laying) i elt

theorem sees_scalar (i : Int64) (elt : ScalarTy) : D.Sees w (.scalar i elt) := Laying.sees_scalar (L := D.laying) i elt

theorem sees_nothing : D.Sees w .nothing := Laying.sees_nothing (L := D.laying)

theorem sees_range (h1 : D.Sees w start) (h2 : D.Sees w stop) (h3 : D.Sees w step) :
    D.Sees w (.range start stop step) :=
  Laying.sees_range (L := D.laying) h1 h2 h3

theorem sees_wholeAxis : D.Sees w .wholeAxis := Laying.sees_wholeAxis (L := D.laying)

theorem sees_wholeIndex (rank : Nat) : D.Sees w (.wholeIndex rank) := Laying.sees_wholeIndex (L := D.laying) rank

theorem sees_lt (hx : D.Sees w x) (hy : D.Sees w y) : D.Sees w (.prim .lt [x, y] .bool) :=
    Laying.sees_lt (L := D.laying) hx hy

theorem sees_tupleOf (h : ∀ e ∈ args, D.Sees w e) : D.Sees w (.tupleOf args) := Laying.sees_tupleOf (L := D.laying) h

theorem temp_sees (h : D.Sees w e) (name : String) : D.Lays w D.Sees (temp e name) :=
    Laying.temp_sees (L := D.laying) h name

theorem cast_lays (h : D.Sees w e) (elt : ScalarTy) : D.Lays w D.Sees (Build.cast e elt) :=
    Laying.cast_lays (L := D.laying) h elt

theorem coerce_lays (h : D.Sees w e) (t : Ty) (context : String) : D.Lays w D.Sees (coerce e t context) :=
  Laying.coerce_lays (L := D.laying) h t context

theorem prim_two_lays (hx : D.Sees w x) (hy : D.Sees w y) (p : Prim) (name : String) :
    D.Lays w D.Sees (prim p [x, y] name) :=
  Laying.prim_two_lays (L := D.laying) hx hy p name

theorem proj_lays (h : D.Sees w e) (i : Nat) : D.Lays w D.Sees (proj e i) := Laying.proj_lays (L := D.laying) h i

theorem shape_lays (h : D.Sees w e) (axis : Option Nat) : D.Lays w D.Sees (shape e axis) :=
    Laying.shape_lays (L := D.laying) h axis

theorem setIndex_lays (hx : D.Sees w x) (hi : D.Sees w idx) (he : D.Sees w e) :
    D.Lays w (fun _ _ => True) (setIndex x idx e) :=
  Laying.setIndex_lays (L := D.laying) hx hi he

theorem call_lays (hc : D.Invocable w callable) (ha : ∀ a ∈ args, D.Sees w a) (name : String) :
    D.Lays w D.Sees (call callable args name) := Laying.call_lays (L := D.laying) hc ha name

/-- Room that has been prepared: an array, or a name for a scalar that is still to be defined. -/
abbrev Room (D : Discipline) (w : World) (e : Expr) : Prop := D.laying.Room w e

theorem allocResult_lays (hc : D.Sees w callable) (ha : ∀ a ∈ args, D.Sees w a) (name : String) :
    D.Lays w D.Room (allocResult callable args [] name) :=
  Laying.allocResult_lays (L := D.laying) hc ha (fun _ h => absurd h List.not_mem_nil) name

/-! ## Loops -/

theorem loopCounter_lays (name : String) (start : Expr) :
    D.Lays w (fun _ p => ∃ x y, p = (.var x start.ty, .var y start.ty, NameMap.empty.insert x (start, .var y start.ty)))
      (loopCounter name start) := by
  refine (freshName_lays name).bind fun w1 x _ _ => (declare_lays x start.ty).bind fun w2 c _ hc => ?_
  refine (freshVar_lays start.ty _).bind fun w3 a _ ⟨y, ha⟩ => .pure fun _ _ => ⟨x, y, ?_⟩
  rw [hc, ha]

theorem forLoop_lays {α : Type} {start stop step : Expr} {merge : Merge} {body : Expr → Build α}
    (h1 : D.Sees w start) (h2 : D.Sees w stop) (h3 : D.Sees w step) (hentry : ∀ p ∈ merge.values, D.Sees w p.1)
    (hbody : ∀ w' i, D.Below w w' → (∀ x ∈ merge.keys, x ∈ w'.names) → D.Sees w' i →
      D.Lays w' (fun w'' _ => ∀ p ∈ merge.values, D.Sees w'' p.2) (body i)) :
    D.Lays w (fun w' _ => ∀ x ∈ merge.keys, x ∈ w'.names) (Build.forLoop start stop step merge body) := by
  refine (cast_lays h1 _).bind fun w1 start hw1 h1 => (cast_lays (h2.mono hw1) _).bind fun w2 stop hw2 h2 => ?_
  refine (cast_lays (h3.mono (hw1.trans hw2)) _).bind fun w3 step hw3 h3 => ?_
  refine (freshName_lays "i").bind fun w4 x hw4 _ => (declare_lays x .i64).bind fun w5 i hw5 hi => ?_
  subst hi
  have hw : D.Below w w5 := (((hw1.trans hw2).trans hw3).trans hw4).trans hw5
  have hin : D.Below w ⟨w5.session, extend w5.names (merge.keys ++ [x])⟩ := hw.trans (.extend w5 _)
  refine (nested_lays (hbody _ (.var x .i64) hin ?_ ?_)).bind fun w6 p hw6 ⟨hn, hfit, hback⟩ => ?_
  · exact fun y hy => .inr (List.mem_append_left _ hy)
  · exact sees_var typed_scalar (.inr (List.mem_append_right _ List.mem_cons_self))
  · refine (emit_lays ?_).bind fun w7 _ _ hw7 => .pure fun w8 hw8 y hy => hw8.2 (hw7 ▸ .inr hy)
    have hw36 : D.Below w3 w6 := (hw4.trans hw5).trans hw6
    refine ⟨h1.mono ((hw2.trans hw3).trans hw36), h2.mono (hw3.trans hw36), h3.mono hw36, trivial, ?_,
      fun _ _ => trivial, fun q hq => ⟨(hentry q hq).mono (hw.trans hw6), ?_⟩⟩
    · rw [hn]
      exact hfit
    · rw [hn]
      exact hback q hq

/-- A `while` loop around the code that `inner` emits. -/
theorem while_lays {α β : Type} {c : Expr} {m : Merge} {inner : Build α} {k : Stmt → Build β} {Q : World → β → Prop}
    (hentry : ∀ p ∈ m.values, D.Sees w p.1) (hc : D.Sees ⟨w.session, extend w.names m.keys⟩ c)
    (hinner : D.Lays ⟨w.session, extend w.names m.keys⟩ (fun w' _ => ∀ p ∈ m.values, D.Sees w' p.2) inner)
    (hnext : ∀ w' body, D.Below w w' → (Stmt.whileLoop c body m).Fits (D.rule w'.session) w'.names →
      D.Lays w' Q (k (.whileLoop c body m))) :
    D.Lays w Q (do let (body, _) ← nested inner; k (.whileLoop c body m)) := by
  refine (nested_lays hinner).bind fun w1 p hw1 ⟨hn, hfit, hback⟩ => hnext w1 p.1 hw1 ?_
  rw [← hn] at hc hfit hback
  exact ⟨trivial, Sees.mono hc (.of hw1.1 subset_rfl), hfit, fun _ _ => trivial,
    fun q hq => ⟨(hentry q hq).mono hw1, hback q hq⟩⟩

/-- A merge of one name. -/
theorem mem_singleton {x y : VarName} {v : Expr × Expr} : y ∈ (NameMap.empty.insert x v).keys ↔ y = x := by
  rw [NameMap.mem_keys_insert]
  simp [NameMap.keys, NameMap.empty]

theorem eq_of_mem_singleton {x : VarName} {u v : Expr × Expr} (h : u ∈ (NameMap.empty.insert x v).values) : u = v :=
  (NameMap.mem_values_insert h).resolve_right List.not_mem_nil

theorem accumulate_lays {start stop init : Expr} {body : Expr → Expr → Build Expr} (h1 : D.Sees w start)
    (h2 : D.Sees w stop) (hinit : D.Sees w init)
    (hbody : ∀ w' acc i, D.Below w w' → D.Sees w' acc → D.Sees w' i → D.Lays w' D.Sees (body acc i)) :
    D.Lays w D.Sees (accumulate start stop init body) := by
  refine (freshName_lays "acc").bind fun w1 x hw1 _ => (declare_lays x init.ty).bind fun w2 acc hw2 hacc => ?_
  refine (freshVar_lays init.ty _).bind fun w3 after hw3 ⟨y, hafter⟩ => ?_
  subst hacc hafter
  have hw : D.Below w w3 := (hw1.trans hw2).trans hw3
  refine (forLoop_lays (h1.mono hw) (h2.mono hw) (sees_int _ _) ?_ ?_).bind fun w4 _ hw4 hx => ?_
  · intro p hp
    rw [eq_of_mem_singleton hp]
    exact hinit.mono hw
  · intro w' i hw' hkeys hi
    have hx : x ∈ w'.names := hkeys x (mem_singleton.mpr rfl)
    have hty : D.Typed w'.session init.ty := (hinit.mono (hw.trans hw')).typed
    refine (hbody w' _ i (hw.trans hw') (sees_var hty hx) hi).bind fun w5 next hw5 hnext => ?_
    refine (coerce_lays hnext _ _).bind fun w6 next hw6 hnext => ?_
    refine (assign_lays (hty.mono (D.trans hw5.1 hw6.1)) hnext).mono fun w7 _ _ hy p hp => ?_
    rw [eq_of_mem_singleton hp]
    exact hy
  · refine .pure fun w5 hw5 => sees_var ((hinit.mono (hw.trans hw4)).typed.mono hw5.1) (hw5.2 ?_)
    exact hx x (mem_singleton.mpr rfl)

theorem laying_loops (D : Discipline) : D.laying.Loops where
  loop h1 h2 hbody := by
    refine (forLoop_lays h1 h2 (sees_int _ _) ?_ ?_).mono fun _ _ _ _ => trivial
    · intro p hp
      cases hp
    · intro w' i hw' _ hi
      refine Lays.mono (hbody w' i hw' hi) fun _ _ _ _ p hp => ?_
      cases hp
  accumulate h1 h2 hinit hbody := accumulate_lays h1 h2 hinit hbody

/-- Adverbs over expressions that can be emitted, and callables that can be called. -/
theorem expressions (D : Discipline) : D.laying.Lawful Build.domain D.Sees D.Invocable :=
    Laying.expressions D.laying_loops

end Discipline

end ArrayIR
