/-
  ArrayIR.Proofs.Inlining.Output — inlined code that puts its result into a region.

  The result is cast to the element type of the region if it is a scalar, and stored
  through whole slices. So the region is filled with what the call gives, and all
  other cells are as the call alone would leave them (`Inlining.stored`).
-/

import ArrayIR.Proofs.Inlining.Calling
import ArrayIR.Proofs.Spares

namespace ArrayIR

open Eval

namespace Inlining

variable {s : Session} {f : Func} {args : List Expr} {L : Locals} {st : Store} {b b' : Builder} {e value : Expr}

/-- A value of the function is of the type of what it returns: it is a scalar if that has a scalar type.
A name is returned at its declared type, and an integer literal as the integer it is written with. -/
def ReturnsTyped (f : Func) (v : Value) : Prop :=
  ∃ code result, f.body = code ++ [.ret result] ∧ (∀ x t, result = .var x t → f.env.get? x = some t) ∧
    result.PlainLiteral ∧ ∀ t, result.ty = .scalar t → ∃ x, v = .scalar x

/-- The region is filled with a value. A scalar is cast to the element type and then stored, so in single
precision it may be rounded twice. -/
def Filled (view : View) (after : Store) (v : Value) (before : Store) : Prop :=
  view.Holds after v before ∨
    ∃ x, v = .scalar x ∧ view.elt = .f32 ∧ view.Holds after (.scalar (x.convert .f32)) before

/-- An expression for a region: it is read at its own type, gives the view and does nothing else. The view
selects different cells. -/
structure Region (L : Locals) (st : Store) (region : Expr) (view : View) : Prop where
  typed : region.ty = .array view.elt view.shape.length
  bound : ∀ x ∈ region.reads, ∃ v, L.get? x = some v
  value : ∀ call st', expr call L region st' = .ok (.array view) st'
  proper : view.Proper
  distinct : view.Distinct st

theorem params_declared {env : TypeEnv} {ps : List (VarName × Ty)} {D D' : WellFormed.Defined}
    (h : WellFormed.params env ps D = .ok D') : ∀ p ∈ ps, env.get? p.1 = some p.2 := by
  induction ps generalizing D with
  | nil => exact fun p hp => absurd hp List.not_mem_nil
  | cons p ps ih =>
    obtain ⟨D1, h1, h⟩ := except_bind_ok h
    intro q hq
    rcases List.mem_cons.mp hq with rfl | hq
    · exact (WellFormed.define_ok h1).2
    · exact ih h q hq

variable {v z u : Value} {elt : ScalarTy} {rank : Nat} {region : Expr} {call : Caller} {view : View} {st1 : Store}

/-- The copied result has the type of the result, and is a literal only if that or an argument is one. -/
theorem value_typed {n m : Nat} {ahead copy : Block} (h : Build.Spliced f args n m ahead copy value)
    (hverify : f.verify = .ok ()) (hty : args.map (·.ty) = f.paramTys) (hv : ReturnsTyped f v)
    (hargs : ∀ e ∈ args, e.PlainLiteral) : value.PlainLiteral ∧ ∀ t, value.ty = .scalar t → ∃ x, v = .scalar x := by
  obtain ⟨code, result, hbody, hvar, hlit, hscalar⟩ := hv
  obtain ⟨code', result', r1, r2, hbody', -, hshares, hcopy, hext, rfl⟩ := h.parts
  rw [hbody] at hbody'
  obtain ⟨rfl, hsame⟩ := List.append_inj' hbody' rfl
  cases hsame
  obtain ⟨D, D', hD, -⟩ := Func.verify_ok hverify
  have hdecl : ∀ p ∈ (f.params.zip f.paramTys).zip args, f.env.get? p.1.1 = some p.1.2 :=
    fun p hp => params_declared hD p.1 (List.of_mem_zip hp).1
  have htys : ∀ p ∈ (f.params.zip f.paramTys).zip args, p.2.ty = p.1.2 := by
    rw [← hty]
    intro p hp
    obtain ⟨i, hi, rfl⟩ := List.mem_iff_getElem.mp hp
    simp
  have hext' := (hshares.typed htys hdecl).trans hext
  have htyped : r2.Typed := hext'.typed fun x e t he => by cases he
  constructor
  · intro i t hlitv
    by_cases hx : ∃ x u, result = .var x u
    · -- a name stands for a literal only if it is a parameter, and the literal an argument
      obtain ⟨x, u, rfl⟩ := hx
      rw [Renaming.subst_var] at hlitv
      cases hr : r2.renames.get? x with
      | none =>
        rw [hr] at hlitv
        cases hlitv
      | some e =>
        rw [hr] at hlitv
        obtain rfl : e = .const (.int i) t := hlitv
        have hnot : x ∉ Stmt.blockBinds code := by
          intro hm
          obtain ⟨y, -, hy⟩ := hcopy.rebinds.images x hm
          rw [Renaming.image?, hr] at hy
          cases hy
        rw [hcopy.rebinds.keeps x hnot] at hr
        rcases hshares.const_mem hr with hnone | hmem
        · cases hnone
        · obtain ⟨p, hp, he⟩ := List.mem_map.mp hmem
          exact hargs p.2 (List.of_mem_zip hp).2 i t he
    · have hne : ∀ x u, result ≠ .var x u := fun x u he => hx ⟨x, u, he⟩
      rw [Renaming.subst_eq r2 hne] at hlitv
      cases result with
      | const c u =>
        cases hlitv
        exact hlit i t rfl
      | var x u => exact absurd rfl (hne x u)
      | reduce f c init args axis t => cases init <;> cases hlitv
      | scan f c e init args axis t => cases init <;> cases hlitv
      | _ => cases hlitv
  · rwa [htyped.subst_ty fun x t he => by rw [hext'.source]; exact hvar x t he]

theorem droppedAll?_slices (n : Nat) : Ty.droppedAll? (List.replicate n .slice) = some 0 := by
  induction n with
  | zero => rfl
  | succ n ih =>
    rw [List.replicate_succ, Ty.droppedAll?, ih]
    rfl

theorem indexTy_whole (elt : ScalarTy) (rank : Nat) :
    (Ty.array elt rank).indexTy (Expr.wholeIndex rank).ty = some (.ofRank elt rank) := by
  show (do
    let dropped ← if rank < ((List.replicate rank Expr.wholeAxis).map Expr.ty).length then none
      else Ty.droppedAll? ((List.replicate rank Expr.wholeAxis).map Expr.ty)
    if rank < dropped then none else return Ty.ofRank elt (rank - dropped) : Option Ty) = _
  rw [List.length_map, List.length_replicate, if_neg (Nat.lt_irrefl rank), List.map_replicate]
  show (do
    let dropped ← Ty.droppedAll? (List.replicate rank .slice)
    if rank < dropped then none else return Ty.ofRank elt (rank - dropped) : Option Ty) = _
  rw [droppedAll?_slices]
  rfl

theorem stored_scalar {t : ScalarTy} (rank : Nat) (h : value.ty = .scalar t) :
    Build.stored (.ofRank elt rank) value = Build.cast value elt := by
  unfold Ty.ofRank
  split
  all_goals
    unfold Build.stored
    rw [h]

theorem stored_other (region : Ty) (h : ∀ t, value.ty ≠ .scalar t) : Build.stored region value =
    if region = value.ty then pure value else fail (.typeMismatch "array store" region value.ty) := by
  unfold Build.stored
  cases hty : value.ty with
  | scalar t => exact absurd hty (h t)
  | _ => cases region <;> rfl

/-- What is stored is the value, cast if it is a scalar. -/
theorem stored_ok (h : Build.stored (.ofRank elt rank) value b = .ok e b') :
    ∃ out, ((∃ t, value.ty = .scalar t) ∧ Build.Casts value elt out e ∨ out = [] ∧ e = value) ∧
      Emits (Stmt.blockBinds out) out b b' := by
  by_cases hty : ∃ t, value.ty = .scalar t
  · obtain ⟨t, ht⟩ := hty
    rw [stored_scalar rank ht] at h
    obtain ⟨hsc, out, hcasts, hemits, -⟩ := Build.cast_ok h
    exact ⟨out, .inl ⟨hsc, hcasts⟩, hemits⟩
  · rw [stored_other _ fun t ht => hty ⟨t, ht⟩] at h
    split at h
    · cases h
      exact ⟨[], .inr ⟨rfl, rfl⟩, .refl _⟩
    · cases h

theorem deliver_some (hty : region.ty = .array elt rank) (h : Build.deliver (some region) value b = .ok e b') :
    e = region ∧ ∃ out x, ((∃ t, value.ty = .scalar t) ∧ Build.Casts value elt out x ∨ out = [] ∧ x = value) ∧
      b'.block = b.block ++ (out ++ [.assign (.index region (.wholeIndex rank) (.ofRank elt rank)) x]) := by
  obtain ⟨_, b1, hset, h⟩ := state_bind_ok h
  obtain ⟨rfl, rfl⟩ := state_pure_ok h
  refine ⟨rfl, ?_⟩
  unfold Build.setIndex at hset
  rw [hty] at hset
  show ∃ out x, _
  have hrank : (Ty.array elt rank).rank = rank := rfl
  rw [hrank, indexTy_whole] at hset
  obtain ⟨x, b2, hx, hemit⟩ := state_bind_ok hset
  obtain ⟨out, hout, hemits⟩ := stored_ok hx
  refine ⟨out, x, hout, ?_⟩
  rw [(Build.emit_ok hemit).block, hemits.block, List.append_assoc]

theorem runThen_spares {fuel n : Nat} (hcall : ∀ fn args, Spares n (fun _ => True) (call fn args)) {code : Block}
    (h : Stmt.blockStores code = true → n = 0) (e : Expr) (L : Locals) :
    Spares n (fun _ => True) (runThen call fuel code L e) := by
  refine (block_spares hcall h L).andThen fun fl => ?_
  cases fl with
  | returned v => exact .pure trivial
  | next L => exact expr_spares L e fun _ => hcall

theorem exprs_wholeAxis (call : Caller) (n : Nat) :
    exprs call L (List.replicate n .wholeAxis) = pure (List.replicate n .wholeAxis) := by
  induction n with
  | zero => rw [List.replicate_zero, List.replicate_zero, exprs]
  | succ n ih => rw [List.replicate_succ, List.replicate_succ, exprs, wholeAxis_pure, ih, pure_bind, pure_bind]

theorem expr_wholeIndex (call : Caller) (n : Nat) :
    expr call L (.wholeIndex n) = pure (.tuple (List.replicate n .wholeAxis)) := by
  rw [Expr.wholeIndex, Expr.tupleOf, expr, exprs_wholeAxis, pure_bind]

/-- Storing a value into the region. -/
theorem store_region {x : Expr} (t : Ty) (fuel : Nat) (hvalue : expr call L region st1 = .ok (.array view) st1)
    (hproper : view.Proper) (hdistinct : view.Distinct st1) (hx : expr call L x st = .ok z st1) (hz : view.Takes z) :
    ∃ st2, block call fuel [.assign (.index region (.wholeIndex view.shape.length) t) x] L st = .ok (.next L) st2 ∧
      view.OnlyChanges st1 st2 ∧ view.Holds st2 z st1 := by
  obtain ⟨st2, hwrite, honly, hholds⟩ := View.write_whole hproper hdistinct hz (Nat.le_refl view.shape.length)
  refine ⟨st2, ?_, honly, hholds⟩
  rw [block_singleton, stmt]
  show EStateM.bind _ _ st = _
  rw [EStateM.bind, hx]
  show EStateM.bind _ _ st1 = _
  rw [EStateM.bind, hvalue]
  show EStateM.bind _ _ st1 = _
  rw [EStateM.bind, expr_wholeIndex]
  show EStateM.bind _ _ st1 = _
  rw [EStateM.bind, store, hwrite]
  rfl

/-- The value that is stored, if it is not the value given: a scalar that has been cast. -/
def CastFrom (elt : ScalarTy) (u z : Value) : Prop :=
  z = u ∨ ∃ x y, u = .scalar x ∧ z = .scalar y ∧ (y = x.convert elt ∨ y.convert elt = x.convert elt)

theorem stored_run {out : Block} {x : Expr} (fuel : Nat)
    (h : (∃ t, value.ty = .scalar t) ∧ Build.Casts value elt out x ∨ out = [] ∧ x = value) (hlit : value.PlainLiteral)
    (hu : expr call L value st = .ok u st1) (hscalar : ∀ t, value.ty = .scalar t → ∃ y, u = .scalar y) :
    Stmt.blockReturns out = false ∧ ∃ z, runThen call fuel out L x st = .ok z st1 ∧ CastFrom elt u z := by
  rcases h with ⟨⟨t, ht⟩, hcasts⟩ | ⟨rfl, rfl⟩
  · obtain ⟨y, rfl⟩ := hscalar t ht
    have hrun : ∃ z, runThen call fuel out L x st = .ok (.scalar z) st1 ∧
        (z = y.convert elt ∨ z.convert elt = y.convert elt) := hcasts.run hlit hu
    obtain ⟨z, hz, hzy⟩ := hrun
    exact ⟨by cases hcasts <;> rfl, .scalar z, hz, .inr ⟨y, z, rfl, rfl, hzy⟩⟩
  · exact ⟨rfl, u, by rwa [runThen_nil], .inl rfl⟩

theorem CastFrom.takes (h : CastFrom view.elt u z) (hu : view.Takes u) : view.Takes z := by
  rcases h with rfl | ⟨x, y, rfl, rfl, -⟩
  · exact hu
  · trivial

theorem CastFrom.filled {after before : Store} (h : CastFrom view.elt u z)
    (hz : view.Holds after z before) : Filled view after u before := by
  rcases h with rfl | ⟨x, y, rfl, rfl, hy | hy⟩
  · exact .inl hz
  · by_cases hf : view.elt = .f32
    · exact .inr ⟨x, rfl, hf, by rwa [hy, hf] at hz⟩
    · refine .inl ?_
      show view.elements after = _
      rw [hz, hy, Scalar.convert_convert x hf]
  · refine .inl ?_
    show view.elements after = _
    rw [hz, hy]

theorem Filled.alike {after st2 : Store} {w : Pairing} (hst : Agree .strict w st1 st2) (h : Likes .strict w v u)
    (hv : view.Takes v) (hu : Filled view after u st2) : Filled view after v st1 := by
  cases v with
  | array v =>
    obtain ⟨u, rfl, hvu⟩ := h
    rcases hu with ⟨lead, hlead, hcells⟩ | ⟨x, hx, -⟩
    · refine .inl ⟨lead, by rw [hlead, hvu.shape], ?_⟩
      rw [hcells, View.elements_alike trivial hvu hst]
    · cases hx
  | scalar x =>
    obtain rfl : u = .scalar x := h
    exact hu
  | _ => exact hv.elim

theorem takes_alike {w : Pairing} (h : Likes .strict w v u) (hv : view.Takes v) : view.Takes u := by
  cases v with
  | array v =>
    obtain ⟨u, rfl, hvu⟩ := h
    show u.shape <:+ view.shape
    rw [← hvu.shape]
    exact hv
  | scalar x =>
    obtain rfl : u = .scalar x := h
    trivial
  | _ => exact hv.elim

theorem Region.distinct_later (h : Region L st region view) (hkeeps : st.Keeps 0 st1) : view.Distinct st1 where
  buffer := Nat.lt_of_lt_of_le h.distinct.buffer hkeeps.size
  nodup := h.distinct.nodup
  inside o ho := by
    rw [hkeeps.lengths h.distinct.buffer]
    exact h.distinct.inside o ho

/-- The code emitted for a call fills the region with what the call gives; all other cells are as the call
leaves them. -/
theorem stored (hf : Spliceable b.session f args) (hargs : ∀ e ∈ args, e.PlainLiteral)
    (hty : region.ty = .array elt rank) (h : Build.inline f args (some region) b = .ok e b') :
    e = region ∧ ∃ out, b'.block = b.block ++ out ∧ ∀ L st view fuel v st1,
      Site args (Stmt.blockBinds out) L st → Region L st region view →
      expr (b.session.call fuel) L (.call f.name args f.result) st = .ok v st1 → ReturnsTyped f v → view.Takes v →
      ∃ L' st2, block (b.session.call fuel) fuel out L st = .ok (.next L') st2 ∧
        (∀ x u, L.get? x = some u → L'.get? x = some u) ∧ Filled view st2 v st1 ∧
        ∀ c < st.size, ∀ i : Nat, (c = view.buffer → (i : Int) ∉ view.offsets) →
          (st2.cells c)[i]? = (st1.cells c)[i]? := by
  obtain ⟨b1, ahead, copy, value, hspliced, hemits, hdeliver⟩ := Build.inline_ok hf.typed h
  obtain ⟨rfl, last, x, hlast, hblock⟩ := deliver_some hty hdeliver
  refine ⟨rfl, ahead ++ copy ++ (last ++ [.assign (.index e (.wholeIndex rank) (.ofRank elt rank)) x]), ?_, ?_⟩
  · rw [hblock, hemits.block, List.append_assoc]
  intro L st view fuel v st1 hsite hregion hcall htyped htakes
  obtain ⟨rfl, rfl⟩ : view.elt = elt ∧ view.shape.length = rank := by
    have := hregion.typed.symm.trans hty
    cases this
    exact ⟨rfl, rfl⟩
  have hunbound : ∀ y, y ∈ Stmt.blockBinds (ahead ++ copy) ∨ y ∈ Stmt.blockBinds last → L.get? y = none := by
    intro y hy
    refine hsite.unbound y ?_
    rw [Stmt.blockBinds_append, Stmt.blockBinds_append last, List.mem_append, List.mem_append]
    exact hy.imp_right .inl
  have hsite' : Site args (Stmt.blockBinds (ahead ++ copy)) L st := { hsite with
    unbound := fun y hy => hunbound y (.inl hy) }
  -- the spliced code gives the value
  have hrun := call_below_runBody hf.found f.result fuel st v st1 hcall
  have hout : Outcome (.identity st.size) (Ends .strict (Likes .strict)) (runBody b.session f args L fuel st)
      (runThen (b.session.call fuel) fuel (ahead ++ copy) L value st) :=
    hspliced.outcome hf.verified hf.wellScoped hf.typed (Session.call_inStep b.session.strict_admits fuel)
      (hf.reorderable fuel) hsite'
  rw [hrun] at hout
  obtain ⟨u, st2, hu, w, hle, hst, hlikes⟩ := hout.ok_left
  obtain ⟨L1, s1, hcode, hval, hL1⟩ := runThen_ok hspliced.not_returns hu
  -- it is cast, where it has to be
  obtain ⟨hlit, hscalar⟩ := value_typed hspliced hf.verified hf.typed htyped hargs
  have hscalar' : ∀ t, value.ty = .scalar t → ∃ y, u = .scalar y := by
    intro t ht
    obtain ⟨y, rfl⟩ := hscalar t ht
    exact ⟨y, hlikes⟩
  obtain ⟨hret, z, hz, hcast⟩ := stored_run fuel hlast hlit hval hscalar'
  obtain ⟨L2, s2, hcastrun, hx, hL2⟩ := runThen_ok hret hz
  have hkept : ∀ y u, L.get? y = some u → L2.get? y = some u := by
    intro y u hy
    have hne : ¬ (y ∈ Stmt.blockBinds (ahead ++ copy) ∨ y ∈ Stmt.blockBinds last) := by
      intro hm
      rw [hunbound y hm] at hy
      cases hy
    rw [hL2 y fun hm => hne (.inr hm), hL1 y fun hm => hne (.inl hm), hy]
  -- and stored
  have hcalls : ∀ fn vs, Spares 0 (fun _ => True) (b.session.call fuel fn vs) :=
    b.session.call_spares (fun _ _ => rfl) fuel
  have hkeeps : st.Keeps 0 st2 := by
    have hfirst := (block_spares hcalls (fun _ => rfl) L (Nat.zero_le _) hcode).1
    exact hfirst.trans (runThen_spares hcalls (fun _ => rfl) x L1 (Nat.zero_le _) hz).1
  have hvalue : expr (b.session.call fuel) L2 e st2 = .ok (.array view) st2 := by
    rw [expr_congr e fun y hy => ?_]
    · exact hregion.value _ st2
    · obtain ⟨u, hu⟩ := hregion.bound y hy
      rw [hkept y u hu, hu]
  obtain ⟨st3, hassign, honly, hholds⟩ := store_region (.ofRank view.elt view.shape.length) fuel hvalue hregion.proper
    (hregion.distinct_later hkeeps) hx (hcast.takes (takes_alike hlikes htakes))
  refine ⟨L2, st3, ?_, hkept, (hcast.filled hholds).alike hst hlikes htakes, ?_⟩
  · rw [block_append_next hcode, block_append_next hcastrun]
    exact hassign
  · intro c hc i hi
    rw [honly.cells c i hi, ← hst.cells trivial (hle.rel ⟨rfl, hc⟩)]

end Inlining

end ArrayIR
