/-
  ArrayIR.Proofs.Discipline.Tiles — lowering tiled adverbs keeps to a discipline.

  The loop of a tiled map has its function inlined, that of a tiled reduction calls
  its two functions; calls and callables are redirected to lowered functions. So if
  the functions that stand in for the source's may be used (`Tiling.Usable`), and the
  other nodes may stay, lowering keeps to the discipline (`Tiling.walk`).
-/

import ArrayIR.Proofs.Discipline.Copying
import ArrayIR.Proofs.Discipline.Replacing
import ArrayIR.Proofs.Discipline.Builder
import ArrayIR.Tiling.Lower

namespace ArrayIR

namespace Expr

/-- The functions that lowering tiled adverbs looks up at a node. -/
def follows : Expr → List FnName
  | call fn _ _ => [fn]
  | fnRef _ t | closure _ _ t => (t.callee?.map (·.1)).toList
  | tiledMap f _ _ _ _ => (f.ty.callee?.map (·.1)).toList
  | tiledReduce f c _ _ _ _ _ => (f.ty.callee?.map (·.1)).toList ++ (c.ty.callee?.map (·.1)).toList
  | _ => []

/-- Whether lowering tiled adverbs puts the node together again. -/
def staysPut : Expr → Bool
  | var .. | call .. | fnRef .. | closure .. | tiledMap .. | tiledReduce .. => false
  | _ => true

end Expr

namespace Tiling

open Discipline Discipline.Frame

variable {D : Discipline} {w : World} {s : Session} {all : Prop}

/-! ## Loops over tiles -/

/-- What a function has to be like for the lowered code to use it. -/
structure Usable (D : Discipline) (s : Session) (all : Prop) (g : Func) : Prop where
  found : s.find? g.name = some g
  ref : D.Node s (.fnRefTo g.name)
  closure : ∀ s', D.le s s' → ∀ cs : List Expr, (∀ c ∈ cs, D.Typed s' c.ty) → D.Node s' (.closureOver g.name cs)
  call : ∀ s', D.le s s' → ∀ args t, D.Typed s' t → D.Node s' (.call g.name args t)
  result : D.Typed s g.result
  inlinable : D.Inlinable s all g

variable {g : Func} {args : List Expr} {sizes : Option Expr} {c : Callee} {axes : List Nat}
  {extent size init acc : Expr} {x : VarName} {s' : Session} {captured : List Expr} {w' : World} {y : VarName}
  {k : Callee} {combineSizes : Option Expr}

theorem Usable.mono (h : Usable D s all g) (hs : D.le s s') : Usable D s' all g where
  found := D.find hs h.found
  ref := h.ref.mono hs
  closure t ht := h.closure t (D.trans hs ht)
  call t ht := h.call t (D.trans hs ht)
  result := h.result.mono hs
  inlinable := h.inlinable.mono hs

theorem Usable.ref_sees (h : Usable D w.session all g) : D.Sees w (.fnRefTo g.name) :=
  Expr.fits_of_children (fun x t h => by cases h) h.ref (by simp [Expr.fnRefTo])

theorem Usable.invocable (h : Usable D w.session all g) : D.Invocable w (.fnRefTo g.name) where
  captured vs hvs v hv := by
    cases hvs
    exact absurd hv List.not_mem_nil
  call s hs fn ts f hfn hf args := by
    cases hfn
    cases (D.find hs h.found).symm.trans hf
    exact h.call s hs args _ (h.result.mono hs)

theorem shapeArgs_sees (hc : ∀ e ∈ captured, D.Sees w e)
    (ha : ∀ e ∈ args, D.Sees w e) : ∀ e ∈ shapeArgs captured args sizes, D.Sees w e := by
  intro e he
  simp only [shapeArgs, List.mem_append] at he
  rcases he with (he | he) | he
  · exact hc e he
  · exact ha e he
  · obtain ⟨s, -, rfl⟩ := Option.map_eq_some_iff.mp (Option.mem_toList.mp he)
    refine sees_tupleOf fun d hd => ?_
    obtain ⟨t, -, rfl⟩ := List.mem_map.mp hd
    exact sees_int 1 .i64

theorem iterationExtent_lays (h : ∀ e ∈ args, D.Sees w e) (adverb : String) (axes : List Nat) :
    D.Lays w D.Sees (iterationExtent adverb args axes) := by
  unfold iterationExtent
  split
  · split
    · exact shape_lays (h _ List.mem_cons_self) _
    · exact .fail _
  · exact .fail _

theorem tileArgs_lays {args : List (Expr × Nat)} {bounds : Expr} (hc : ∀ e ∈ captured, D.Sees w e)
    (ha : ∀ p ∈ args, D.Sees w p.1) (hb : D.Sees w bounds) (hs : ∀ e, sizes = some e → D.Sees w e) :
    D.Lays w (fun w' es => ∀ e ∈ es, D.Sees w' e) (tileArgs captured args bounds sizes) := by
  refine Lays.bind (Laying.Lays.mapM (L := D.laying) (Q := D.Sees) (fun hw he => he.mono hw) fun p hp w' hw =>
    (expressions D).sliceAlong ((ha p hp).mono hw) p.2 (hb.mono hw)) fun w1 es hw1 ⟨_, hes⟩ =>
      .pure fun w2 hw2 e he => ?_
  simp only [List.mem_append] at he
  rcases he with (he | he) | he
  · exact (hc e he).mono (hw1.trans hw2)
  · exact (hes e he).mono hw2
  · exact (hs e (Option.mem_toList.mp he)).mono (hw1.trans hw2)

/-- What a tiled adverb runs: the function may be used, and what it captured can be emitted. -/
structure Runs (D : Discipline) (w : World) (all : Prop) (c : Callee) : Prop where
  fn : Usable D w.session all c.fn
  captured : ∀ e ∈ c.captured, D.Sees w e

theorem Runs.mono (h : Runs D w all c) (hw : D.Below w w') : Runs D w' all c :=
  ⟨h.fn.mono hw.1, fun e he => (h.captured e he).mono hw⟩

theorem mapLoop_lays (hall : all → w.names = Set.univ) (hc : Runs D w all c) (ha : ∀ e ∈ args, D.Sees w e)
    (he : D.Sees w extent) (hz : D.Sees w size)
    (hs : ∀ e, sizes = some e → D.Sees w e) : D.Lays w D.Sees (mapLoop c args axes extent size sizes) := by
  unfold mapLoop
  refine (allocResult_lays hc.fn.ref_sees (shapeArgs_sees hc.captured ha) _).bind fun w1 result hw1 hroom => ?_
  show D.Lays _ _ (if _ then _ else _)
  split
  · exact .fail _
  · rename_i hrank
    have hresult : D.Sees w1 result := hroom.sees (Nat.lt_of_le_of_lt (Nat.zero_le _) (Nat.lt_of_not_le hrank))
    refine (forLoop_lays (sees_int 0 .i64) (he.mono hw1) (hz.mono hw1) (fun p hp => absurd hp List.not_mem_nil) ?_).bind
      fun w2 _ hw2 _ => .pure fun w3 hw3 => hresult.mono (hw2.trans hw3)
    intro w' i hw' _ hi
    have hw := hw1.trans hw'
    refine (prim_two_lays hi (hz.mono hw) .add "next").bind fun w2 next hw2 hnext => ?_
    refine (prim_two_lays hnext (he.mono (hw.trans hw2)) .min "slice_stop").bind fun w3 stop hw3 hstop => ?_
    have hwb := hw.trans (hw2.trans hw3)
    have hbounds : D.Sees w3 (.range i stop (.int64 1)) := sees_range (hi.mono (hw2.trans hw3)) hstop (sees_int 1 .i64)
    refine (tileArgs_lays (hc.mono hwb).captured (fun p hp => (ha p.1 (List.of_mem_zip hp).1).mono hwb) hbounds
      fun e hse => (hs e hse).mono hwb).bind fun w4 onTile hw4 htile => ?_
    have hregion := (expressions D).sliceAlong (hresult.mono (hw'.trans (hw2.trans (hw3.trans hw4))))
      (axes.headD 0) (hbounds.mono hw4)
    refine hregion.bind fun w5 region hw5 hregion => ?_
    have hwi := hwb.trans (hw4.trans hw5)
    refine (inline_lays (hc.mono hwi).fn.inlinable (fun h => Set.eq_univ_of_univ_subset (hall h ▸ hwi.2))
      (fun e he => (htile e he).mono hw5) fun r hr => ?_).bind fun _ _ _ _ => .pure fun _ _ p hp =>
        absurd hp List.not_mem_nil
    cases hr
    exact hregion

theorem fillFrom_lays (ha : D.Sees w acc) (hi : D.Sees w init) (n : Nat) {outer : List Expr}
    (ho : ∀ e ∈ outer, D.Sees w e) : D.Lays w (fun _ _ => True) (fillFrom acc init n outer) := by
  induction n generalizing w outer with
  | zero =>
    refine setIndex_lays ha (sees_tupleOf fun e he => ?_) hi
    rcases List.mem_append.mp he with he | he
    · exact ho e he
    · rw [List.eq_of_mem_replicate he]
      exact sees_wholeAxis
  | succ n ih =>
    unfold fillFrom
    refine (shape_lays ha _).bind fun w1 extent hw1 hextent => ?_
    refine (loopCounter_lays "j" (.int64 0)).bind fun w2 p hw2 ⟨x, y, hp⟩ => ?_
    subst hp
    let m : Merge := NameMap.empty.insert x (.int64 0, .var y .i64)
    have hx : x ∈ extend w2.names m.keys := .inr (mem_singleton.mpr rfl)
    have hj : D.Sees ⟨w2.session, extend w2.names m.keys⟩ (.var x .i64) := sees_var typed_scalar hx
    have hw : D.Below w ⟨w2.session, extend w2.names m.keys⟩ := (hw1.trans hw2).trans (.extend w2 _)
    refine while_lays (m := m) (fun p hp => ?_) ?_ ?_ fun w' body _ hfit => (emit_lays hfit).mono fun _ _ _ _ => trivial
    · rw [eq_of_mem_singleton hp]
      exact sees_int 0 .i64
    · exact sees_lt hj (hextent.mono (hw2.trans (.extend w2 _)))
    · have houter : ∀ e ∈ outer ++ [.var x .i64], D.Sees ⟨w2.session, extend w2.names m.keys⟩ e := by
        intro e he
        rcases List.mem_append.mp he with he | he
        · exact (ho e he).mono hw
        · exact List.mem_singleton.mp he ▸ hj
      refine (ih (ha.mono hw) (hi.mono hw) houter).bind fun w3 _ hw3 _ => ?_
      refine (prim_two_lays (hj.mono hw3) (sees_int 1 .i64) .add "j_next").bind fun w4 next hw4 hnext => ?_
      refine (Discipline.assign_lays typed_scalar hnext).mono fun w5 _ _ hy p hp => ?_
      rw [eq_of_mem_singleton hp]
      exact hy

theorem fillWith_lays (ha : D.Sees w acc) (hi : D.Sees w init) : D.Lays w (fun _ _ => True) (fillWith acc init) := by
  unfold fillWith
  split
  · exact .fail _
  · exact fillFrom_lays ha hi _ fun _ he => absurd he List.not_mem_nil

/-- What the loop of a tiled reduction carries: the counter `x`, whose next value is `y`, and the accumulator
if it is a scalar. In the loop the accumulator is in scope. -/
structure Carries (D : Discipline) (w : World) (x y : VarName) (acc : Expr) (p : Option Expr × Merge) : Prop where
  entry : ∀ q ∈ p.2.values, D.Sees w q.1
  counter : x ∈ p.2.keys
  acc : D.Sees ⟨w.session, extend w.names p.2.keys⟩ acc
  after : ∀ e, p.1 = some e → ∃ u elt, e = .var u (.scalar elt)
  back : ∀ q ∈ p.2.values, q.2 = .var y .i64 ∨ p.1 = some q.2

theorem startAccumulator_lays (ha : D.Room w acc) (hi : D.Sees w init) :
    D.Lays w (fun w' p => Carries D w' x y acc p)
      (startAccumulator acc init (NameMap.empty.insert x (.int64 0, .var y .i64))) := by
  unfold startAccumulator
  split
  · rename_i hrank
    rcases ha with ⟨z, elt, rfl⟩ | ⟨hpos, -⟩
    · refine (coerce_lays hi _ _).bind fun w1 entry hw1 hentry => ?_
      refine (freshVar_lays _ _).bind fun w2 e hw2 ⟨u, he⟩ => ?_
      subst he
      refine .pure fun w3 hw3 => ⟨fun q hq => ?_, ?_, ?_, ?_, fun q hq => ?_⟩
      · rcases NameMap.mem_values_insert hq with rfl | hq
        · exact hentry.mono (hw2.trans hw3)
        · rw [eq_of_mem_singleton hq]
          exact sees_int 0 .i64
      · exact NameMap.mem_keys_insert.mpr (.inr (mem_singleton.mpr rfl))
      · exact sees_var typed_scalar (.inr (NameMap.mem_keys_insert.mpr (.inl rfl)))
      · rintro e ⟨⟩
        exact ⟨u, elt, rfl⟩
      · rcases NameMap.mem_values_insert hq with rfl | hq
        · exact .inr rfl
        · rw [eq_of_mem_singleton hq]
          exact .inl rfl
    · exact absurd hrank (Nat.ne_of_gt hpos)
  · rename_i hrank
    have hacc : D.Sees w acc := ha.sees (Nat.pos_of_ne_zero hrank)
    refine (fillWith_lays hacc hi).bind fun w1 _ hw1 _ => .pure fun w2 hw2 =>
      ⟨fun q hq => ?_, mem_singleton.mpr rfl, ?_, ?_, fun q hq => ?_⟩
    · rw [eq_of_mem_singleton hq]
      exact sees_int 0 .i64
    · exact hacc.mono ((hw1.trans hw2).trans (.extend w2 _))
    · exact fun e he => by cases he
    · rw [eq_of_mem_singleton hq]
      exact .inl rfl

/-- What the loop of a tiled reduction does with one tile. -/
def reduceTile (c combine : Callee) (args : List Expr) (axes : List Nat) (extent size i after acc : Expr)
    (sizes combineSizes accAfter : Option Expr) : Build Unit := do
  let next ← Build.add i size "next_bound"
  let inside ← Build.lte next extent "tile_fits"
  let guard : Merge := match after with
    | .var x _ => NameMap.empty.insert x (next, extent)
    | _ => .empty
  Build.emit (.ite inside [] [] guard)
  let onTile ← tileArgs c.captured (args.zip axes) (.range i after (.int64 1)) sizes
  let result ← Build.call (.fnRefTo c.fn.name) onTile "tile_result"
  let combined ← Build.call (.fnRefTo combine.fn.name)
    (combine.captured ++ [acc, result] ++ combineSizes.toList) "combined"
  match accAfter with
  | some accAfter => Build.assign accAfter (← Build.coerce combined accAfter.ty "tiled reduce")
  | none => Build.setIndex acc (.wholeIndex acc.ty.rank) combined

theorem reduceLoop_eq (c combine : Callee) (init : Expr) (args : List Expr) (axes : List Nat) (extent size : Expr)
    (sizes combineSizes : Option Expr) : reduceLoop c combine init args axes extent size sizes combineSizes = (do
      let acc ← Build.allocResult (.fnRefTo c.fn.name) (shapeArgs c.captured args sizes) [] "loop_result"
      let (i, after, merge) ← Build.loopCounter "i" (.int64 0)
      let (accAfter, merge) ← startAccumulator acc init merge
      let (body, _) ← Build.nested (reduceTile c combine args axes extent size i after acc sizes combineSizes accAfter)
      Build.emit (.whileLoop (.prim .lt [i, extent] .bool) body merge)
      return acc) := rfl

/-- One tile of a reduction: the end of the tile and the next accumulator are in scope afterwards. -/
theorem reduceTile_lays {i : Expr} {accAfter : Option Expr} (hc : Runs D w all c) (hk : Runs D w all k)
    (hacc : D.Sees w acc) (ha : ∀ e ∈ args, D.Sees w e) (he : D.Sees w extent) (hz : D.Sees w size)
    (hs : ∀ e, sizes = some e → D.Sees w e) (hks : ∀ e, combineSizes = some e → D.Sees w e) (hi : D.Sees w i)
    (hafter : ∀ e, accAfter = some e → ∃ u elt, e = .var u (.scalar elt)) :
    D.Lays w (fun w' _ => D.Sees w' (.var y .i64) ∧ ∀ e, accAfter = some e → D.Sees w' e)
      (reduceTile c k args axes extent size i (.var y .i64) acc sizes combineSizes accAfter) := by
  unfold reduceTile
  refine (prim_two_lays hi hz .add "next_bound").bind fun w1 next hw1 hnext => ?_
  refine (prim_two_lays hnext (he.mono hw1) .lte "tile_fits").bind fun w2 inside hw2 hinside => ?_
  have hguard : Stmt.Fits (D.rule w2.session) (.ite inside [] [] (NameMap.empty.insert y (next, extent))) w2.names := by
    refine ⟨hinside, trivial, trivial, fun _ _ => trivial, fun p hp => ?_⟩
    rw [eq_of_mem_singleton hp, Stmt.blockDefines_nil, extend_nil]
    exact ⟨hnext.mono hw2, he.mono (hw1.trans hw2)⟩
  refine (emit_lays hguard).bind fun w3 _ hw3 hn3 => ?_
  have hy : D.Sees w3 (.var y .i64) := sees_var typed_scalar (hn3 ▸ .inr (mem_singleton.mpr rfl))
  have hw : D.Below w w3 := hw1.trans (hw2.trans hw3)
  have hbounds : D.Sees w3 (.range i (.var y .i64) (.int64 1)) := sees_range (hi.mono hw) hy (sees_int 1 .i64)
  refine (tileArgs_lays (hc.mono hw).captured (fun p hp => (ha p.1 (List.of_mem_zip hp).1).mono hw) hbounds
    fun e hse => (hs e hse).mono hw).bind fun w4 onTile hw4 htile => ?_
  refine (call_lays (hc.mono (hw.trans hw4)).fn.invocable htile _).bind fun w5 result hw5 hresult => ?_
  have hw' : D.Below w w5 := hw.trans (hw4.trans hw5)
  have hargs : ∀ e ∈ k.captured ++ [acc, result] ++ combineSizes.toList, D.Sees w5 e := by
    intro e hm
    simp only [List.mem_append, List.mem_cons, List.not_mem_nil, or_false] at hm
    rcases hm with (hm | rfl | rfl) | hm
    · exact (hk.captured e hm).mono hw'
    · exact hacc.mono hw'
    · exact hresult
    · exact (hks e (Option.mem_toList.mp hm)).mono hw'
  refine (call_lays (hk.mono hw').fn.invocable hargs _).bind fun w6 combined hw6 hcombined => ?_
  cases accAfter with
  | none =>
    refine (setIndex_lays (hacc.mono (hw'.trans hw6)) (sees_wholeIndex _) hcombined).mono fun w7 _ hw7 _ => ?_
    exact ⟨hy.mono (hw4.trans (hw5.trans (hw6.trans hw7))), fun e h => by cases h⟩
  | some e =>
    obtain ⟨u, elt, rfl⟩ := hafter e rfl
    refine (coerce_lays hcombined _ _).bind fun w7 v hw7 hv => ?_
    refine (Discipline.assign_lays typed_scalar hv).mono fun w8 _ hw8 hu => ⟨?_, fun e h => ?_⟩
    · exact hy.mono (hw4.trans (hw5.trans (hw6.trans (hw7.trans hw8))))
    · cases h
      exact hu

theorem reduceLoop_lays (hc : Runs D w all c) (hk : Runs D w all k) (hi : D.Sees w init) (ha : ∀ e ∈ args, D.Sees w e)
    (he : D.Sees w extent) (hz : D.Sees w size) (hs : ∀ e, sizes = some e → D.Sees w e)
    (hks : ∀ e, combineSizes = some e → D.Sees w e) :
    D.Lays w D.Sees (reduceLoop c k init args axes extent size sizes combineSizes) := by
  rw [reduceLoop_eq]
  refine (allocResult_lays hc.fn.ref_sees (shapeArgs_sees hc.captured ha) _).bind fun w1 acc hw1 hroom => ?_
  refine (loopCounter_lays "i" (.int64 0)).bind fun w2 p hw2 ⟨x, y, hp⟩ => ?_
  subst hp
  refine (startAccumulator_lays (hroom.mono hw2) (hi.mono (hw1.trans hw2))).bind fun w3 q hw3 hq => ?_
  obtain ⟨accAfter, m⟩ := q
  let inside : World := ⟨w3.session, extend w3.names m.keys⟩
  have hw : D.Below w inside := (hw1.trans (hw2.trans hw3)).trans (.extend w3 _)
  have hx : D.Sees inside (.var x .i64) := sees_var typed_scalar (.inr hq.counter)
  have htile : D.Lays inside (fun w' _ => D.Sees w' (.var y .i64) ∧ ∀ e, accAfter = some e → D.Sees w' e)
      (reduceTile c k args axes extent size (.var x .i64) (.var y .i64) acc sizes combineSizes accAfter) :=
    reduceTile_lays (hc.mono hw) (hk.mono hw) hq.acc (fun e h => (ha e h).mono hw) (he.mono hw) (hz.mono hw)
      (fun e h => (hs e h).mono hw) (fun e h => (hks e h).mono hw) hx hq.after
  refine while_lays (k := fun loop => do Build.emit loop; return acc) hq.entry (sees_lt hx (he.mono hw))
    (htile.mono fun w' _ _ ⟨hy, hafter⟩ p hp => ?_) fun w4 body hw4 hfit =>
      (emit_lays hfit).bind fun w5 _ hw5 hn => .pure fun w6 hw6 => ?_
  · rcases hq.back p hp with h | h
    · exact h ▸ hy
    · exact hafter _ h
  · refine hq.acc.mono ⟨(hw4.trans (hw5.trans hw6)).1, fun z hz => hw6.2 (hn ▸ ?_)⟩
    exact extend_mono hw4.2 (fun _ => id) hz

/-! ## The state of the pass -/

/-- A tuple of sizes, as functions take it. -/
def IsSizes (p : Expr) : Prop := ∃ x n, p = .var x (.tuple (List.replicate n .i64))

/-- The state in which lowering a function begins. It is given a tuple of sizes only if it takes some. -/
structure Begins (s : Session) (f : Func) (st : State) : Prop where
  tiling : st.tiling = false
  retyped : st.retyped = .empty
  sizes : ∀ p, st.param = some p → IsSizes p ∧ ∃ n, 0 < n ∧ s.numDynamicTiles f = .ok n

/-- The parameter that a function with `n` run-time tile sizes is given. -/
def sizesVar (s : Session) (n : Nat) : Expr := .var (s.fresh "tile_sizes").1 (.tuple (List.replicate n .i64))

/-- What entering a function does: it fails, or there is nothing to do, or the function is given a tuple of
sizes. -/
theorem enter_cases (f : Func) (st : State) (b : Builder) :
    (∃ e, enter f st b = .error e b) ∨
    (enter f st b = .ok ((), st) b ∧ (st.param = none → b.session.numDynamicTiles f = .ok 0)) ∨
    ∃ n, 0 < n ∧ b.session.numDynamicTiles f = .ok n ∧ st.param = none ∧
      enter f st b = .ok ((), { st with param := some (sizesVar b.session n) })
        ⟨(b.session.fresh "tile_sizes").2, b.env.insert (b.session.fresh "tile_sizes").1
          (.tuple (List.replicate n .i64)), b.block⟩ := by
  cases hp : st.param with
  | some p =>
    refine .inr (.inl ⟨?_, fun h => by cases h⟩)
    have hread : enter f st b = (if st.param.isNone then _ else pure () : Lower Unit) st b := rfl
    rw [hread, hp]
    rfl
  | none =>
    have hread : enter f st b = ((do
        let tiles ← numTiles f
        if 0 < tiles then
          let param ← Build.freshVar (.tuple (List.replicate tiles .i64)) "tile_sizes"
          modify fun s => { s with param := some param }) : Lower Unit) st b := by
      have h : enter f st b = (if st.param.isNone then _ else pure () : Lower Unit) st b := rfl
      rw [h, hp]
      rfl
    rw [hread]
    have hnum : numTiles f b = (liftM (b.session.numDynamicTiles f) : Build Nat) b := rfl
    change (∃ e, EStateM.bind (EStateM.bind (numTiles f) fun n => pure (n, st)) _ b = _) ∨
      (EStateM.bind (EStateM.bind (numTiles f) fun n => pure (n, st)) _ b = _ ∧ _) ∨
      ∃ n, _ ∧ _ ∧ _ ∧ EStateM.bind (EStateM.bind (numTiles f) fun n => pure (n, st)) _ b = _
    unfold EStateM.bind
    rw [hnum]
    cases hn : b.session.numDynamicTiles f with
    | error e => exact .inl ⟨.error e, rfl⟩
    | ok n =>
      refine .inr ?_
      by_cases hpos : 0 < n
      · refine .inr ⟨n, hpos, rfl, rfl, ?_⟩
        show (if 0 < n then _ else _ : Lower Unit) st b = _
        rw [if_pos hpos]
        rfl
      · refine .inl ⟨?_, fun _ => by rw [Nat.eq_zero_of_not_pos hpos]⟩
        show (if 0 < n then _ else _ : Lower Unit) st b = _
        rw [if_neg hpos]
        rfl

/-- How what replaces an expression relates to it: a literal callable stays one, and the type stays the same
unless it is that of a callable. -/
structure Kept (e e' : Expr) : Prop where
  literal : e.isLiteral = true → e'.isLiteral = true
  ty : e.isTiled = true ∨ e'.ty = e.ty ∨ e'.ty.isCallable = true

/-- What is needed for lowering code that keeps to the rule `R`: of the names that are not retyped, those in
scope are `plain`, and have types that may be named; other nodes may stay; and the functions that are
followed, or what they are lowered to, may be used. -/
structure Suits (D : Discipline) (lower : LowerFn) (R : Rule) (s₀ : Session) (all : Prop)
    (plain : Session → VarName → Prop) :
    Prop where
  plain_mono : ∀ {s t x}, D.le s t → plain s x → plain t x
  var : ∀ {s x t}, D.le s₀ s → R.node (.var x t) → plain s x → D.Typed s t
  cond : ∀ {e}, R.cond e → all ∨ ∀ d ∈ e.subterms, d.isTiled = false
  join : ∀ {s x}, D.le s₀ s → R.join x → plain s x
  assign : ∀ {s x t v v'}, D.le s₀ s → R.node (.var x t) → R.node v → R.assign (.var x t) v →
    Kept v v' → D.Typed s v'.ty → v'.ty = t ∨ v'.ty.isCallable = false → D.Typed s t ∧ plain s x
  captured : ∀ {s e fn ts}, D.le s₀ s → R.node e → e.isLiteral = false → e.ty = .closure fn ts → ∀ t ∈ ts, D.Typed s t
  stays : ∀ {s e cs}, D.le s₀ s → R.node e → e.staysPut = true → List.Forall₂ Kept e.children cs →
    D.Node s (e.withChildren cs)
  result : ∀ {s fn args t}, D.le s₀ s → R.node (.call fn args t) → D.Typed s t
  reached : ∀ {s t f b}, D.le s t → s.reachesTiled f = .ok b → t.reachesTiled f = .ok b
  counted : ∀ {s t f n}, D.le s t → s.numDynamicTiles f = .ok n → t.numDynamicTiles f = .ok n
  kept : ∀ {s e fn f}, D.le s₀ s → R.node e → fn ∈ e.follows → s.find? fn = some f → s.reachesTiled f = .ok false →
    Usable D s all f
  lowered : ∀ {s e fn f st}, D.le s₀ s → R.node e → fn ∈ e.follows → s.find? fn = some f → s.reachesTiled f = .ok true →
    Begins s f st → D.Developed s (fun s' r => Usable D s' all r.1) (lower st f s)

/-- What the state says about the source's names `V`: they are in scope, and so is the tuple of sizes; the
types of retyped names may be named, and the other names are `plain`. -/
structure Holds (D : Discipline) (s₀ : Session) (all : Prop) (plain : Session → VarName → Prop)
    (V : Set VarName) (w : World) (st : State) : Prop where
  since : D.le s₀ w.session
  scope : V ⊆ w.names
  open_ : all → w.names = Set.univ
  sizes : ∀ p, st.param = some p → IsSizes p ∧ D.Sees w p
  retyped : ∀ x t, st.retyped.get? x = some t → D.Typed w.session t ∧ t.isCallable = true
  plain : ∀ x ∈ V, st.retyped.get? x = none → plain w.session x

section Pass

variable {lower : LowerFn} {R : Rule} {s₀ : Session} {plain : Session → VarName → Prop} {V : Set VarName} {st : State}
  {e o : Expr} {f : Func}

theorem Holds.mono (hp : ∀ {s t x}, D.le s t → plain s x → plain t x) (h : Holds D s₀ all plain V w st)
    (hw : D.Below w w') : Holds D s₀ all plain V w' st where
  since := D.trans h.since hw.1
  scope := h.scope.trans hw.2
  open_ ha := Set.eq_univ_of_univ_subset (h.open_ ha ▸ hw.2)
  sizes p hs := ⟨(h.sizes p hs).1, (h.sizes p hs).2.mono hw⟩
  retyped x t hx := ⟨(h.retyped x t hx).1.mono hw.1, (h.retyped x t hx).2⟩
  plain x hx hn := hp hw.1 (h.plain x hx hn)

/-- The state of the pass. -/
def frame (S : Suits D lower R s₀ all plain) : D.Frame State where
  stands := Holds D s₀ all plain
  loose := True
  mono hw h := h.mono S.plain_mono hw

variable (S : Suits D lower R s₀ all plain)

/-- Only the tuple of sizes and the retyped names matter. -/
theorem moves_of {st' : State} {xs : List VarName} (hs : D.le s s')
    (hp : st'.param = st.param) (hr : st'.retyped = st.retyped) : (frame S).Moves xs s st s' st' := by
  intro V W _ hst
  have h := (frame S).mono (.of hs subset_rfl) hst
  exact ⟨h.since, h.scope, h.open_, hp ▸ h.sizes, hr ▸ h.retyped, hr ▸ h.plain⟩

theorem requireParam_lays :
    (frame S).Steps V w st (fun w' p => IsSizes p ∧ D.Sees w' p)
    (liftM (requireParam st : Except Error Expr) : Lower Expr) := by
  refine .here fun hst => .lift (.lift fun p hp w' hw => ?_)
  unfold requireParam at hp
  split at hp
  · rename_i hq
    cases hp
    exact ⟨(hst.sizes _ hq).1, (hst.sizes _ hq).2.mono hw⟩
  · cases hp

/-- The size for the next tiled adverb can be emitted. -/
theorem tileSize_lays (tile : TilePolicy) : (frame S).Steps V w st D.Sees (tileSize tile) := by
  cases tile with
  | fixed => exact fun _ => Lays.done fun s hs => ⟨sees_int _ .i64, moves_of S hs rfl rfl⟩
  | dynamic =>
    refine fun hst => .passLook (.passBind (requireParam_lays S hst) fun w1 p _ hw1 ⟨⟨_, hp⟩, _⟩ => ?_)
    refine .passSet ((Lays.passLift (proj_lays hp _)).mono fun w2 r hw2 ⟨hr, hr2⟩ => ⟨hr, ?_⟩)
    exact moves_of S (hw1.trans hw2).1 (by rw [hr2]) (by rw [hr2])

/-- The tuple of sizes, where it is passed on. -/
theorem sizesFor_lays (tiles : Nat) :
    (frame S).Steps V w st (fun w' o => ∀ e, o = some e → 0 < tiles ∧ IsSizes e ∧ D.Sees w' e) (sizesFor tiles) := by
  unfold sizesFor
  split
  · rename_i hpos
    refine .look ((requireParam_lays S).map fun w1 p _ hp e he => ?_)
    cases he
    exact ⟨hpos, hp⟩
  · exact .pure fun _ _ e he => by cases he

theorem reachesTiled_lays (f : Func) :
    D.Lays w (fun w' b => w'.session.reachesTiled f = .ok b) (Tiling.reachesTiled f) := by
  intro b _
  show D.Outcome w _ b ((liftM (b.session.reachesTiled f) : Build Bool) b)
  cases hr : b.session.reachesTiled f with
  | error e => exact D.refl _
  | ok c => exact ⟨D.refl _, [], (List.append_nil _).symm, trivial, hr⟩

theorem numTiles_lays (f : Func) : D.Lays w (fun w' n => w'.session.numDynamicTiles f = .ok n) (numTiles f) := by
  intro b _
  show D.Outcome w _ b ((liftM (b.session.numDynamicTiles f) : Build Nat) b)
  cases hr : b.session.numDynamicTiles f with
  | error e => exact D.refl _
  | ok c => exact ⟨D.refl _, [], (List.append_nil _).symm, trivial, hr⟩

/-- A function that the code applies or refers to, lowered if need be, may be used. -/
theorem function_lays {fn : FnName} (he : R.node e) (hfn : fn ∈ e.follows) (hf : w.session.find? fn = some f) :
    (frame S).Steps V w st (fun w' p => Usable D w'.session all p.1) (function lower f) := by
  unfold function
  refine (Steps.lift (reachesTiled_lays f)).bind fun w1 b st1 hw1 hb => .here fun hst1 => ?_
  cases b with
  | false =>
    have huse := S.kept hst1.since he hfn (D.find hw1.1 hf) hb
    exact .pure fun w' hw => huse.mono hw.1
  | true =>
    refine (Steps.lift (numTiles_lays f)).bind fun w2 n st2 hw2 hn => ?_
    refine (sizesFor_lays S n).bind fun w3 param st3 hw3 hparam hst3 => .passLook ?_
    have hbegin : ∀ s, D.le w3.session s → Begins s f
        { sizes := st3.sizes, fixedIdx := st3.fixedIdx, nestingIdx := st3.nestingIdx, param := param } := by
      refine fun s hs => ⟨rfl, rfl, fun p hp => ?_⟩
      obtain ⟨hpos, hp, -⟩ := hparam p hp
      exact ⟨hp, n, hpos, S.counted (D.trans hw3.1 hs) hn⟩
    have hfound := D.find (hw1.trans (hw2.trans hw3)).1 hf
    have hreached := S.reached (hw2.trans hw3).1 hb
    refine .passBind (.passLift (compile_lays fun s hs =>
        S.lowered (D.trans hst3.since hs) he hfn (D.find hs hfound) (S.reached hs hreached) (hbegin s hs)))
      fun w4 p _ hw4 ⟨hg, _⟩ => .passSet (.passPure fun w5 hw5 => ⟨hg.mono hw5.1, ?_⟩)
    exact moves_of S (hw4.trans hw5).1 rfl rfl

variable {r : Replacement Lower} {t : Ty}

/-- A callable of the code, lowered: its function may be used, and what it captured can be emitted. -/
theorem callee_lays (he : R.node e) (ho : R.node o) (hfollow : ∀ fn ts, o.ty.callee? = some (fn, ts) → fn ∈ e.follows)
    (hself : o.isLiteral = false → (frame S).Replaces Kept V o r.self)
    (hkids : (frame S).ReplacesAll Kept V o.children r.kids) :
    (frame S).Steps V w st (fun w' c => Runs D w' all c) (callee lower o r) := by
  unfold callee
  refine (Steps.lift (Discipline.callee_lays o)).bind fun w1 f st1 hw1 hfound => .here fun hst1 => ?_
  obtain ⟨fn, ts, hfn, hf⟩ := hfound
  refine (captures_lays hself hkids fun hlit _ _ ht => S.captured hst1.since ho hlit ht).bind
    fun w2 cs st2 hw2 hcs => ?_
  exact (function_lays S he (hfollow fn ts hfn) (D.find hw2.1 hf)).map fun w3 p hw3 huse =>
    ⟨huse, fun c hc => (hcs c hc).mono hw3⟩

/-- A literal callable is replaced by one of the lowered function. -/
theorem callableValue_lays (he : R.node e) (hlit : e.isLiteral = true)
    (hkids : (frame S).ReplacesAll Kept V e.children r.kids) :
    (frame S).Steps V w st (fun w' c => D.Sees w' c ∧ Kept e c) (callableValue lower e r) := by
  have hfollow : ∀ fn ts, e.ty.callee? = some (fn, ts) → fn ∈ e.follows := by
    intro fn ts h
    cases e with
    | fnRef | closure => simpa [Expr.follows, Expr.ty] using ⟨ts, h⟩
    | _ => cases hlit
  unfold callableValue
  refine (Steps.lift (Discipline.callee_lays e)).bind fun w1 f _ _ _ =>
    (Steps.lift (numTiles_lays f)).bind fun w2 n st2 _ _ => ?_
  show (frame S).Steps _ _ _ _ (if _ then _ else _)
  split
  · exact fun _ => .fail _
  · refine (callee_lays S he he hfollow
      (fun h => absurd (h.symm.trans hlit) Bool.false_ne_true) hkids).bind fun w3 c _ _ hc => ?_
    have hclosure : D.Sees w3 (.closureOver c.fn.name c.captured) :=
      Expr.fits_of_children (fun x t h => by cases h)
        (hc.fn.closure _ (D.refl _) _ fun d hd => (hc.captured d hd).typed) hc.captured
    cases e with
    | fnRef fn t => exact .pure fun w' hw => ⟨hc.fn.ref_sees.mono hw, fun _ => rfl, .inr (.inr rfl)⟩
    | closure fn vs t => exact .pure fun w' hw => ⟨hclosure.mono hw, fun _ => rfl, .inr (.inr rfl)⟩
    | _ => cases hlit

/-- Any expression replaced in the state of the pass. -/
abbrev Replaced (V : Set VarName) (e : Expr) (x : Lower Expr) : Prop :=
  (frame S).Replaces Kept V e x

theorem Kept.of_ty {e e' : Expr} (hl : e.isLiteral = false)
    (h : e.isTiled = true ∨ e'.ty = e.ty ∨ e'.ty.isCallable = true) :
    Kept e e' := ⟨fun ht => absurd (hl.symm.trans ht) Bool.false_ne_true, h⟩

theorem var_lays (he : (Expr.var x t).Fits R.node V) :
    Replaced S V (.var x t) (step lower (.var x t) []) := by
  intro w st hst
  obtain ⟨hn, hx⟩ := Expr.fits_var.mp he
  refine Lays.done fun s hs => ?_
  have hst' := (frame S).mono (.of hs subset_rfl) hst
  cases hg : st.retyped.get? x with
  | none =>
    rw [Option.getD_none]
    exact ⟨⟨sees_var (S.var hst'.since hn (hst'.plain x hx hg)) (hst.scope hx), .of_ty rfl (.inr (.inl rfl))⟩,
      moves_le hs⟩
  | some u =>
    obtain ⟨hu, hcall⟩ := hst'.retyped x u hg
    exact ⟨⟨sees_var hu (hst.scope hx), .of_ty rfl (.inr (.inr hcall))⟩, moves_le hs⟩

/-- What replaces a node can be emitted. -/
theorem step_lays (he : e.Fits R.node V) (ih : ∀ c ∈ e.children,
    Replaced S V c (c.replace (step lower)).self ∧ ∀ d ∈ c.children, Replaced S V d (d.replace (step lower)).self) :
    Replaced S V e (step lower e (e.children.map (Expr.replace (step lower)))) := by
  have hself : ∀ c ∈ e.children, Replaced S V c (c.replace (step lower)).self := fun c hc => (ih c hc).1
  have hall : (frame S).ReplacesAll Kept V e.children ((e.children.map (Expr.replace (step lower))).mapM (·.self)) :=
    replacesAll_selves hself
  have hrest : ∀ {es : List Expr}, (∀ c ∈ es, c ∈ e.children) →
      (frame S).ReplacesAll Kept V es ((es.map (Expr.replace (step lower))).mapM (·.self)) := fun hes =>
    replacesAll_selves fun c hc => hself c (hes c hc)
  have hop : ∀ o ∈ e.children, (∀ fn ts, o.ty.callee? = some (fn, ts) → fn ∈ e.follows) → ∀ {w st},
      (frame S).Steps V w st (fun w' c => Runs D w' all c) (callee lower o (o.replace (step lower))) := by
    intro o ho hfn w st
    refine callee_lays S he.node (he.child ho).node hfn (fun _ => (ih o ho).1) ?_
    rw [Expr.kids_replace]
    exact replacesAll_selves (ih o ho).2
  cases e with
  | tiledMap f args axes tile t =>
    intro w st
    refine (hrest (fun c hc => List.mem_cons_of_mem _ hc) w st).bind fun w1 as _ _ ⟨has, _⟩ => ?_
    refine (Steps.lift (iterationExtent_lays has _ axes)).bind fun w2 extent _ hw2 hext => ?_
    refine (tileSize_lays S tile).bind fun w3 size _ hw3 hsize => ?_
    refine (hop f List.mem_cons_self fun fn ts h => by simp [Expr.follows, h]).bind fun w4 c _ hw4 hc => ?_
    refine (sizesFor_lays S c.tiles).bind fun w5 sizes _ hw5 hsizes => .here fun hst5 => ?_
    have hw : D.Below w1 w5 := hw2.trans (hw3.trans (hw4.trans hw5))
    exact .lift
      ((mapLoop_lays hst5.open_ (hc.mono hw5) (fun d hd => (has d hd).mono hw) (hext.mono (hw3.trans (hw4.trans hw5)))
      (hsize.mono (hw4.trans hw5)) fun d hd => (hsizes d hd).2.2).mono fun _ _ _ hr => ⟨hr, .of_ty rfl (.inl rfl)⟩)
  | tiledReduce f k init args axes tile t =>
    intro w st
    refine (hrest (fun c hc => List.mem_cons_of_mem _ (List.mem_cons_of_mem _ (List.mem_cons_of_mem _ hc))) w st).bind
      fun w1 as _ _ ⟨has, _⟩ => ?_
    refine (Steps.lift (iterationExtent_lays has _ axes)).bind fun w2 extent _ hw2 hext => ?_
    refine (tileSize_lays S tile).bind fun w3 size _ hw3 hsize => ?_
    refine (hop f List.mem_cons_self fun fn ts h => by simp [Expr.follows, h]).bind fun w4 c _ hw4 hc => ?_
    refine (hop k (List.mem_cons_of_mem _ List.mem_cons_self) fun fn ts h => by simp [Expr.follows, h]).bind
      fun w5 d st5 hw5 hd => ?_
    refine (hself init (List.mem_cons_of_mem _ (List.mem_cons_of_mem _ List.mem_cons_self)) w5 st5).bind
      fun w6 i _ hw6 ⟨hi, _⟩ => ?_
    refine (sizesFor_lays S c.tiles).bind fun w7 sizes _ hw7 hsizes =>
      (sizesFor_lays S d.tiles).bind fun w8 ksizes _ hw8 hksizes => ?_
    have hw58 : D.Below w5 w8 := hw6.trans (hw7.trans hw8)
    have hw38 : D.Below w3 w8 := hw4.trans (hw5.trans hw58)
    exact .lift ((reduceLoop_lays (hc.mono (hw5.trans hw58)) (hd.mono hw58) (hi.mono (hw7.trans hw8))
      (fun d hd => (has d hd).mono (hw2.trans (hw3.trans hw38))) (hext.mono (hw3.trans hw38)) (hsize.mono hw38)
      (fun d hd => (hsizes d hd).2.2.mono hw8) fun d hd => (hksizes d hd).2.2).mono
        fun _ _ _ hr => ⟨hr, .of_ty rfl (.inl rfl)⟩)
  | call fn args t =>
    intro w st
    refine (Steps.lift (lookupFn_lays fn)).bind fun w1 f st1 _ hf => (hall w1 st1).bind fun w2 as _ hw2 ⟨has, _⟩ => ?_
    refine (function_lays S he.node (by simp [Expr.follows]) (D.find hw2.1 hf)).bind
      fun w3 p _ hw3 huse => .here fun hst3 => ?_
    refine (sizesFor_lays S p.2).map fun w4 sizes hw4 hsizes => ⟨?_, .of_ty rfl (.inr (.inl rfl))⟩
    refine Expr.fits_of_children (fun x t h => by cases h) (huse.call _ hw4.1 _ t ?_) fun d hd => ?_
    · exact S.result (D.trans hst3.since hw4.1) he.node
    · rcases List.mem_append.mp hd with hd | hd
      · exact (has d hd).mono (hw3.trans hw4)
      · exact (hsizes d (Option.mem_toList.mp hd)).2.2
  | fnRef fn t => exact fun w st => callableValue_lays S he.node rfl hall
  | closure fn vs t => exact fun w st => callableValue_lays S he.node rfl hall
  | var x t => exact var_lays S he
  | _ =>
    refine rebuild_lays (fun x t h => by cases h) hall fun hst hcs =>
      ⟨S.stays hst.since he.node rfl hcs, .of_ty rfl (.inr (.inl ?_))⟩
    rw [Expr.ty_withChildren]

/-! ### Conditions -/

theorem sizesFor_silent (n : Nat) (st : State) : Silent (sizesFor n st) := by
  unfold sizesFor
  split
  · exact Silent.bind (Silent.bind (.lift _) fun _ => .pure _) fun _ => .pure _
  · exact .pure _

theorem function_silent (f : Func) (st : State) : Silent (function lower f st) := by
  refine Silent.passBind (fun st => .passLift (.bind (fun _ _ _ h => by cases h; rfl) fun _ => .lift _) st)
    (fun b st => ?_) st
  cases b with
  | false => exact .pure _
  | true =>
    refine Silent.passBind (fun st => .passLift (.bind (fun _ _ _ h => by cases h; rfl) fun _ => .lift _) st)
      (fun n st => ?_) st
    refine Silent.passBind (sizesFor_silent n) (fun p st => ?_) st
    exact Silent.bind (.bind (.compile _) fun _ => .pure _) fun _ => .pure _

theorem callableValue_silent (hself : ∀ st, Silent (r.self st)) (hkids : ∀ st, Silent (r.kids st)) (e : Expr)
    (st : State) : Silent (callableValue lower e r st) := by
  refine Silent.passBind (fun st => .passLift (.callee e) st) (fun f st => ?_) st
  refine Silent.passBind (fun st => .passLift (.bind (fun _ _ _ h => by cases h; rfl) fun _ => .lift _) st)
    (fun n st => ?_) st
  show Silent ((if _ then _ else _ : Lower Expr) st)
  split
  · exact fun _ _ _ h => by cases h
  · refine Silent.passBind (fun st => ?_) (fun c st => ?_) st
    · refine Silent.passBind (fun st => .passLift (.callee e) st) (fun f st => ?_) st
      exact Silent.passBind (.captures hself hkids e)
        (fun _ => Silent.passBind (function_silent f) fun _ _ => .pure _) st
    · cases e <;> exact .pure _

/-- An expression without tiled adverbs is replaced without emitting anything. -/
theorem replace_silent (h : ∀ d ∈ e.subterms, d.isTiled = false) (st : State) :
    Silent ((e.replace (step lower)).self st) := by
  induction e using Expr.induction generalizing st with
  | step e ih =>
    have hkids : ∀ st, Silent ((e.children.map (Expr.replace (step lower))).mapM (·.self) st) :=
      Silent.mapM fun r hr st => by
        obtain ⟨c, hc, rfl⟩ := List.mem_map.mp hr
        exact ih c hc (fun d hd => h d (Expr.subterms_of_child hc hd)) st
    have hrebuild : ∀ st, Silent (e.rebuild (e.children.map (Expr.replace (step lower))) st) :=
      Silent.passBind hkids fun _ _ => .pure _
    have hself := h e e.self_mem_subterms
    rw [Expr.self_replace]
    cases e with
    | tiledMap | tiledReduce => cases hself
    | call fn args t =>
      refine Silent.passBind (fun st => .passLift (.lookupFn fn) st) (fun f => Silent.passBind hkids fun as => ?_) st
      exact Silent.passBind (function_silent f) fun p => Silent.passBind (sizesFor_silent p.2) fun _ _ => .pure _
    | fnRef fn t => exact callableValue_silent hrebuild hkids _ st
    | closure fn vs t => exact callableValue_silent hrebuild hkids _ st
    | var x t => exact .pure _
    | _ => exact hrebuild st

/-! ### The walk -/

theorem expr_lays (he : e.Fits R.node V) : (frame S).Steps V w st (fun w' c => D.Sees w' c ∧ Kept e c) (expr lower e) :=
  replace_lays (step_lays S) he w st

/-- The condition of a `while` loop. -/
theorem cond_lays {U : Set VarName} {ys : List VarName} {st0 : State}
    (hw : (frame S).stands U w st0) (hst : (frame S).stands V ⟨w.session, extend w.names ys⟩ st) (he : e.Fits R.node V)
    (hc : R.cond e) :
    D.Lays w (fun w' r => D.Sees ⟨w'.session, extend w'.names ys⟩ r.1 ∧ (frame S).Moves [] w.session st w'.session r.2)
      (expr lower e st) := by
  rcases S.cond hc with ha | hc
  · have hst' : (frame S).stands V w st := by
      have hnames := hw.open_ ha
      rw [hnames, extend_univ, ← hnames] at hst
      exact hst
    exact (expr_lays S he hst').mono fun w' r _ ⟨hr, hm⟩ => ⟨hr.1.mono (.of (D.refl _) subset_extend), hm⟩
  · refine ((expr_lays S he hst).silent (replace_silent hc st)).mono fun w' r _ ⟨hn, ⟨hr, _⟩, hm⟩ => ⟨?_, hm⟩
    rw [hn]
    exact hr

/-- A name comes into scope. -/
theorem Holds.widen {W : Set VarName} (h : Holds D s₀ all plain V ⟨s, W⟩ st)
    (hx : st.retyped.get? x = none → plain s x) : Holds D s₀ all plain (extend V [x]) ⟨s, extend W [x]⟩ st where
  since := h.since
  scope := extend_mono h.scope fun _ => id
  open_ ha := (congrArg (extend · [x]) (h.open_ ha)).trans extend_univ
  sizes p hp := ⟨(h.sizes p hp).1, (h.sizes p hp).2.mono (.of (D.refl _) subset_extend)⟩
  retyped := h.retyped
  plain z hz hn := by
    rcases hz with hz | hz
    · exact h.plain z hz hn
    · rw [List.mem_singleton.mp hz] at hn ⊢
      exact hx hn

/-- A name that has been given the type of a callable. -/
theorem Holds.retype (h : Holds D s₀ all plain V w st) (ht : D.Typed w.session t)
    (hc : t.isCallable = true) : Holds D s₀ all plain V w { st with retyped := st.retyped.insert x t } where
  since := h.since
  scope := h.scope
  open_ := h.open_
  sizes := h.sizes
  retyped z u hu := by
    by_cases hz : z = x
    · subst hz
      rw [NameMap.get?_insert_self] at hu
      cases hu
      exact ⟨ht, hc⟩
    · rw [NameMap.get?_insert_of_ne _ _ hz] at hu
      exact h.retyped z u hu
  plain z hz hn := by
    by_cases hzx : z = x
    · subst hzx
      rw [NameMap.get?_insert_self] at hn
      cases hn
    · rw [NameMap.get?_insert_of_ne _ _ hzx] at hn
      exact h.plain z hz hn

theorem assign_lays {t v : Expr} (hst : (frame S).stands V w st)
    (h : (Stmt.assign t v).Fits R V) :
    D.Lays w (fun w' r => r.1.Fits (D.rule w'.session) w'.names ∧
      (frame S).stands (extend V (Stmt.assign t v).defines) ⟨w'.session, extend w'.names r.1.defines⟩ r.2 ∧
      (frame S).Moves (Stmt.assign t v).binds w.session st w'.session r.2) (assign lower t v st) := by
  by_cases ht : ∃ x u, t = .var x u
  · obtain ⟨x, u, rfl⟩ := ht
    obtain ⟨hn, hv, ha⟩ := h
    refine .passBind (expr_lays S hv hst) fun w1 v' st1 hw1 ⟨⟨hv', hkept⟩, hm1⟩ => ?_
    have hst1 := stands_later hst hm1 hw1
    change D.Sees w1 v' at hv'
    show D.Lays _ _ ((if _ then _ else _ : Lower Stmt) st1)
    split
    · rename_i hretype
      show D.Lays w1 _ ((do return .assign (← Build.declare x v'.ty) v' : Lower Stmt)
        { st1 with retyped := st1.retyped.insert x v'.ty })
      refine .passMap (.passLift (declare_lays x v'.ty)) fun w2 e st2 hw2 ⟨he, hst2⟩ => ?_
      change e = _ at he
      change st2 = _ at hst2
      subst he hst2
      have hty : D.Typed w2.session v'.ty := hv'.typed.mono hw2.1
      have hst2 := Holds.retype (x := x) ((frame S).mono hw2 hst1) hty hretype.2
      refine ⟨⟨node_made rfl hty, hv'.mono hw2, trivial⟩, Holds.widen hst2 fun hnone => ?_, fun U W hU hU' => ?_⟩
      · rw [NameMap.get?_insert_self] at hnone
        cases hnone
      · have hmoved := (frame S).mono (.of hw2.1 subset_rfl) (hm1 U W (.inl trivial) hU')
        exact Holds.retype hmoved hty hretype.2
    · rename_i hsame
      refine Lays.done fun s hs => ?_
      have hst' := (frame S).mono (.of hs subset_rfl) hst1
      have hty : D.Typed s v'.ty := hv'.typed.mono hs
      obtain ⟨hu, hplain⟩ := S.assign hst'.since hn hv.node ha hkept hty (by
        rw [not_and_or, not_ne_iff, Bool.not_eq_true] at hsame
        exact hsame)
      refine ⟨⟨node_made rfl ?_, Sees.mono hv' (.of hs subset_rfl), trivial⟩, Holds.widen hst' fun _ => hplain, ?_⟩
      · cases hg : st1.retyped.get? x with
        | none => exact hu
        | some a => exact (hst'.retyped x a hg).1
      · exact moves_perm (moves_append hm1 (moves_le hs)) fun _ h => absurd h List.not_mem_nil
  · have hne : ∀ y a, t ≠ .var y a := fun y a h => ht ⟨y, a, h⟩
    have hnone : (Stmt.assign t v).defines = [] ∧ (Stmt.assign t v).binds = [] := Stmt.defines_assign hne
    obtain ⟨ht, hv, -⟩ := (Stmt.fits_assign hne).mp h
    rw [hnone.1, hnone.2, extend_nil]
    refine .passBind (expr_lays S hv hst) fun w1 v' st1 hw1 ⟨⟨hv', _⟩, hm1⟩ => ?_
    have hst1 := stands_later hst hm1 hw1
    have hrest : D.Lays w1 (fun w' r => r.1.Fits (D.rule w'.session) w'.names ∧
        (frame S).stands V ⟨w'.session, extend w'.names r.1.defines⟩ r.2 ∧
          (frame S).Moves [] w.session st w'.session r.2)
        ((do return .assign (← expr lower t) v' : Lower Stmt) st1) := by
      refine .passMap (expr_lays S ht hst1) fun w2 t' st2 hw2 ⟨⟨ht', _⟩, hm2⟩ =>
        ⟨fits_assign ht' (hv'.mono hw2), ?_, moves_append hm1 hm2⟩
      exact (frame S).mono (.of (D.refl _) subset_extend) (stands_later hst1 hm2 hw2)
    cases t with
    | var y a => exact absurd rfl (hne y a)
    | _ => exact hrest

/-- Lowering tiled adverbs keeps to a discipline that suits it. -/
def walk (sizes : List Int64) : D.Walk (pass lower sizes) R where
  toFrame := frame S
  expr hst he := (expr_lays S he).mono (fun _ _ _ => And.left) hst
  cond hw hst he hc := cond_lays S hw hst he hc
  binding {_ _ _ st x} hst hx := Lays.done fun s hs => by
    have hle := (frame S).mono (.of hs subset_rfl) hst
    refine ⟨rfl, moves_perm (moves_le hs) fun _ h => absurd h List.not_mem_nil, fun U W hU => ?_⟩
    exact Holds.widen ((frame S).mono (.of hs subset_rfl) hU) fun _ => S.join hle.since hx
  assign hst h := assign_lays S hst h
  loop _ _ h := Lays.done fun _ hs => ⟨Stmt.Fits.mono (rule_implies hs) h subset_rfl, fun _ => id, moves_le hs⟩

theorem IsSizes.sees {p : Expr} (h : IsSizes p) (hx : ∀ x t, p = .var x t → x ∈ w.names) : D.Sees w p := by
  obtain ⟨x, n, rfl⟩ := h
  exact sees_var typed_extents (hx x _ rfl)

/-- On entry the names of the function are in scope, and its tuple of sizes. -/
theorem enters (sizes : List Int64) (hs : D.le s₀ s) (hbegin : Begins s f st)
    {scope : State → Set VarName} (hV : ∀ st, V ⊆ scope st) (hall : ∀ st, all → scope st = Set.univ)
    (hparam : ∀ st x t, st.param = some (.var x t) → x ∈ scope st) (hplain : ∀ x ∈ V, plain s x) :
    (walk S sizes).Enters V scope s (enter f st ⟨s, f.env, []⟩) := by
  have hretyped : ∀ x t, st.retyped.get? x ≠ some t := fun x t h => by
    rw [hbegin.retyped] at h
    cases h
  have hholds : ∀ st' s', D.le s s' → (∀ p, st'.param = some p → IsSizes p) → st'.retyped = st.retyped →
      Holds D s₀ all plain V ⟨s', scope st'⟩ st' := fun st' s' hs' hsizes hr =>
    { since := D.trans hs hs'
      scope := hV st'
      open_ := hall st'
      sizes := fun p hp => ⟨hsizes p hp, (hsizes p hp).sees fun x t h => hparam st' x t (h ▸ hp)⟩
      retyped := fun x t h => absurd (hr ▸ h) (hretyped x t)
      plain := fun x hx _ => S.plain_mono hs' (hplain x hx) }
  rcases enter_cases f st ⟨s, f.env, []⟩ with ⟨e, h⟩ | ⟨h, -⟩ | ⟨n, -, -, -, h⟩
  · rw [h]
    exact D.refl s
  · rw [h]
    exact ⟨D.refl s, rfl, hholds st s (D.refl s) (fun p hp => (hbegin.sizes p hp).1) rfl⟩
  · rw [h]
    refine ⟨D.named s _, rfl, hholds _ _ (D.named s _) (fun p hp => ?_) rfl⟩
    cases hp
    exact ⟨_, n, rfl⟩

end Pass

end Tiling

end ArrayIR
