/-
  ArrayIR.Proofs.Tiling.Partition — the loops over tiles.

  A tiled map runs a counted loop, and ends each tile at the smaller of the next counter
  and the extent. A tiled reduction runs a `while` loop whose counter goes on from where
  the tile ended, which a test picks. Both go over the same tiles: consecutive ones of
  the given width, the last one cut off at the extent (`tilesBelow_partitions`).

  What a loop does is said by `TileLoop.Sweeps`: it is a fold over the tiles of what its
  body does once the bounds are there, and what the body does begins with the parts of
  the arguments at these bounds (`TileLoop.Cuts`). One iteration is the step of either
  induction (`mapHead_run`, `reduceHead_run`), and the counter is the invariant. The
  names that the bounds are computed from stay as they are, since the code that is
  emitted binds names of its own (`mapLoop_emits`, `reduceLoop_emits`).
-/

import ArrayIR.Proofs.Again
import ArrayIR.Proofs.Fresh
import ArrayIR.Proofs.Loops
import ArrayIR.Proofs.Tiling.Threading

namespace ArrayIR

open NameMap (get?_insert_of_ne get?_insert_self)
open Build (castAll emit_ok forLoop nested_ok next_of_tidy operandTys)
open Stmt (blockBinds blockBinds_append)
open Eval

namespace Tiling

/-! ## Tiles -/

/-- The tiles of width `t` from `lo` on that cover the integers below `n`; the last one stops there. -/
def tilesFrom (lo n t : Int) : List (Int × Int) := (visits lo n t).map fun i => (i, min (i + t) n)

/-- The tiles of width `t` of the integers from zero on and below `n`. -/
def tilesBelow (n t : Int) : List (Int × Int) := tilesFrom 0 n t

theorem tilesFrom_of_lt {lo n t : Int} (ht : 0 < t) (h : lo < n) :
    tilesFrom lo n t = (lo, min (lo + t) n) :: tilesFrom (lo + t) n t := by
  rw [tilesFrom, visits, if_pos ⟨ht, h⟩]
  rfl

theorem tilesFrom_of_le {lo n : Int} (t : Int) (h : n ≤ lo) : tilesFrom lo n t = [] := by
  rw [tilesFrom, visits, if_neg (by omega)]
  rfl

/-- Each tile is not empty and begins where the one before it ends. -/
inductive Consecutive : Int → List (Int × Int) → Int → Prop
  | done (a : Int) : Consecutive a [] a
  | next {a b c : Int} {ts : List (Int × Int)} (h : a < b) (hts : Consecutive b ts c) : Consecutive a ((a, b) :: ts) c

namespace Consecutive

variable {a b : Int} {ts : List (Int × Int)}

theorem le (h : Consecutive a ts b) : a ≤ b := by
  induction h with
  | done a => exact Int.le_refl a
  | next h _ ih => omega

/-- Each integer between the bounds is in one tile, and no other integer is in any. -/
theorem countP (h : Consecutive a ts b) (i : Int) :
    ts.countP (fun tile => tile.1 ≤ i ∧ i < tile.2) = if a ≤ i ∧ i < b then 1 else 0 := by
  induction h with
  | done a => rw [List.countP_nil, if_neg (by omega)]
  | next h hts ih =>
    have hle := hts.le
    rw [List.countP_cons, ih]
    simp only [decide_eq_true_eq]
    split <;> split <;> split <;> omega

theorem eq_nil (h : Consecutive a ts a) : ts = [] := by
  cases h with
  | done => rfl
  | next h hts => exact absurd hts.le (by omega)

end Consecutive

/-- What tiles of width `t` have to do with the integers from zero on and below `n`. -/
structure Partitions (n t : Int) (ts : List (Int × Int)) : Prop where
  consecutive : Consecutive 0 ts n
  starts : ∀ (k : Nat) tile, ts[k]? = some tile → tile.1 = k * t
  width : ∀ tile ∈ ts.dropLast, tile.2 = tile.1 + t
  narrow : ∀ tile ∈ ts, tile.2 ≤ tile.1 + t
  covers : ∀ i, ts.countP (fun tile => tile.1 ≤ i ∧ i < tile.2) = if 0 ≤ i ∧ i < n then 1 else 0
  none : n = 0 → ts = []

section Tiles

variable {n t : Int}

theorem tilesFrom_consecutive (ht : 0 < t) {lo : Int} (h : lo ≤ n) : Consecutive lo (tilesFrom lo n t) n := by
  rcases Int.lt_or_eq_of_le h with hlt | rfl
  · rw [tilesFrom_of_lt ht hlt]
    refine .next (by omega) ?_
    by_cases hnext : lo + t ≤ n
    · rw [Int.min_eq_left hnext]
      exact tilesFrom_consecutive ht hnext
    · rw [Int.min_eq_right (by omega), tilesFrom_of_le t (by omega)]
      exact .done n
  · rw [tilesFrom_of_le t (Int.le_refl lo)]
    exact .done lo
termination_by (n - lo).toNat
decreasing_by omega

theorem tilesFrom_starts (ht : 0 < t) {lo : Int} {k : Nat} {tile : Int × Int} (h : (tilesFrom lo n t)[k]? = some tile) :
    tile.1 = lo + k * t := by
  induction k generalizing lo with
  | zero =>
    by_cases hlt : lo < n
    · rw [tilesFrom_of_lt ht hlt] at h
      cases h
      simp
    · rw [tilesFrom_of_le t (by omega)] at h
      cases h
  | succ k ih =>
    by_cases hlt : lo < n
    · rw [tilesFrom_of_lt ht hlt, List.getElem?_cons_succ] at h
      rw [ih h]
      push_cast
      ring
    · rw [tilesFrom_of_le t (by omega)] at h
      cases h

theorem tilesFrom_width (ht : 0 < t) (lo : Int) : ∀ tile ∈ (tilesFrom lo n t).dropLast, tile.2 = tile.1 + t := by
  by_cases hlt : lo < n
  · intro tile htile
    rw [tilesFrom_of_lt ht hlt] at htile
    by_cases hnext : lo + t < n
    · rw [tilesFrom_of_lt ht hnext, List.dropLast_cons_cons, ← tilesFrom_of_lt ht hnext] at htile
      rcases List.mem_cons.mp htile with rfl | htile
      · exact Int.min_eq_left (Int.le_of_lt hnext)
      · exact tilesFrom_width ht (lo + t) tile htile
    · rw [tilesFrom_of_le t (by omega)] at htile
      cases htile
  · rw [tilesFrom_of_le t (by omega)]
    exact fun _ h => by cases h
termination_by (n - lo).toNat
decreasing_by omega

theorem tilesBelow_partitions (hn : 0 ≤ n) (ht : 0 < t) : Partitions n t (tilesBelow n t) where
  consecutive := tilesFrom_consecutive ht hn
  starts k tile h := by rw [tilesFrom_starts ht h, Int.zero_add]
  width := tilesFrom_width ht 0
  narrow tile h := by
    obtain ⟨i, -, rfl⟩ := List.mem_map.mp h
    exact Int.min_le_left ..
  covers i := (tilesFrom_consecutive ht hn).countP i
  none h := by
    subst h
    exact (tilesFrom_consecutive ht hn).eq_nil

end Tiles

/-! ## Loops over tiles -/

/-- Run a step on one tile after the other, up to the first that returns. -/
def overTiles (step : Int × Int → Locals → Exec Flow) : List (Int × Int) → Locals → Exec Flow
  | [], L => return .next L
  | tile :: ts, L => step tile L >>= (·.andThen (overTiles step ts))

/-- The index of a tile along one axis of an array. -/
def tileAt (rank axis : Nat) (tile : Int × Int) : Value :=
  let bounds := Value.slice (some (Int64.ofInt tile.1)) (some (Int64.ofInt tile.2)) 1
  if rank = 1 then bounds else .tuple ((List.range rank).map fun k => if k = axis then bounds else .wholeAxis)

/-- A loop over tiles: its body computes the bounds of a tile from the counter, and goes on to use them. -/
structure TileLoop where
  counter : VarName
  head : Block
  bounds : Expr
  use : Block
  merge : Merge

namespace TileLoop

/-- As a counted loop, as a tiled map has it. -/
def counted (l : TileLoop) (extent size : Expr) : Stmt :=
    .forLoop ⟨l.counter, .int64 0, extent, size⟩ (l.head ++ l.use) l.merge

/-- As a loop that goes on up to the extent, as a tiled reduction has it. -/
def upward (l : TileLoop) (extent : Expr) : Stmt :=
    .whileLoop (.prim .lt [.var l.counter .i64, extent] .bool) (l.head ++ l.use) l.merge

/-- What one iteration does once the bounds of the tile are there. -/
def onTile (l : TileLoop) (call : Caller) (fuel : Nat) (enter : Int × Int → Locals → Locals) (tile : Int × Int)
    (M : Locals) : Exec Flow :=
  block call fuel l.use (enter tile M) >>= (·.andThen fun M => return .next (← bindMerge call l.merge Prod.snd M))

/-- Running the loop is running the rest of its body on one tile after the other. All along the index of a part at the
bounds is the tile along that axis and all of the others, and the names that the body reads are as the iteration before
has left them. -/
def Sweeps (l : TileLoop) (loop : Stmt) (call : Caller) (fuel : Nat) (ts : List (Int × Int)) (L : Locals) : Prop :=
  ∃ enter : Int × Int → Locals → Locals,
    (∀ tile M y, y ∉ l.counter :: blockBinds l.head → (enter tile M).get? y = M.get? y) ∧
    (∀ tile M M', (∀ y, y ∉ blockBinds l.use → M'.get? y = (enter tile M).get? y) →
      ∀ rank axis, Eval.expr call M' (Adverb.sliceIndex Build.domain rank axis l.bounds) =
        pure (tileAt rank axis tile)) ∧
    stmt call fuel loop L = bindMerge call l.merge Prod.fst L >>= overTiles (l.onTile call fuel enter) ts

end TileLoop

/-- The extent and the size of a tile, which need no store. -/
structure Sized (call : Caller) (extent size : Expr) (n t : Int) (L : Locals) : Prop where
  nonneg : 0 ≤ n
  pos : 0 < t
  fits : Fits (n + t)
  extent : Eval.expr call L extent = pure (.ofInt n)
  size : Eval.expr call L size = pure (.ofInt t)

namespace Sized

variable {call : Caller} {extent size : Expr} {n t : Int} {L M : Locals}

theorem congr (h : Sized call extent size n t L) (hM : ∀ y ∈ extent.reads ++ size.reads, M.get? y = L.get? y) :
    Sized call extent size n t M where
  nonneg := h.nonneg
  pos := h.pos
  fits := h.fits
  extent := by rw [expr_congr extent fun y hy => hM y (List.mem_append_left _ hy), h.extent]
  size := by rw [expr_congr size fun y hy => hM y (List.mem_append_right _ hy), h.size]

theorem fits_of_le (h : Sized call extent size n t L) {i : Int} (h0 : 0 ≤ i) (hi : i ≤ n + t) : Fits i :=
  fits_zero.of_between h.fits (.inl ⟨h0, hi⟩)

theorem le_iff (h : Sized call extent size n t L) {i j : Int} (hi0 : 0 ≤ i) (hi : i ≤ n + t)
    (hj0 : 0 ≤ j) (hj : j ≤ n + t) :
    Int64.ofInt i ≤ Int64.ofInt j ↔ i ≤ j := by
  rw [Int64.le_iff_toInt_le, (h.fits_of_le hi0 hi).toInt_ofInt, (h.fits_of_le hj0 hj).toInt_ofInt]

end Sized

section Loops

variable {call : Caller} {fuel : Nat} {extent size : Expr} {n t : Int} {i next stop inside after : VarName}
  {use : Block} {L : Locals}

/-- The end of a tile of a map. -/
def mapHead (i next stop : VarName) (extent size : Expr) : Block :=
  [.assign (.var next .i64) (.prim .add [.var i .i64, size] .i64),
    .assign (.var stop .i64) (.prim .min [.var next .i64, extent] .i64)]

/-- The loop of a tiled map. -/
def mapTiles (i next stop : VarName) (extent size : Expr) (use : Block) : TileLoop :=
  ⟨i, mapHead i next stop extent size, .range (.var i .i64) (.var stop .i64) (.int64 1), use, .empty⟩

/-- The locals in which a tile of a map begins. -/
def mapEnter (i next stop : VarName) (t : Int) (tile : Int × Int) (M : Locals) : Locals :=
  ((M.insert i (.ofInt tile.1)).insert next (.ofInt (tile.1 + t))).insert stop (.ofInt tile.2)

theorem mapEnter_get? (tile : Int × Int) (M : Locals) {y : VarName} (hy : y ∉ [i, next, stop]) :
    (mapEnter i next stop t tile M).get? y = M.get? y := by
  simp only [List.mem_cons, List.not_mem_nil, not_or] at hy
  rw [mapEnter, get?_insert_of_ne _ _ hy.2.2.1, get?_insert_of_ne _ _ hy.2.1, get?_insert_of_ne _ _ hy.1]

theorem next_pure {M : Locals} {lo : Int} (h : Sized call extent size n t M) (hi : M.get? i = some (.ofInt lo)) :
    Eval.expr call M (.prim .add [.var i .i64, size] .i64) = pure (.ofInt (lo + t)) := by
  rw [prim_pure (var_pure hi _) h.size (add_eval _ _), ← Int64.ofInt_add]

theorem mapHead_run {M : Locals} {lo : Int} (h : Sized call extent size n t M) (h0 : 0 ≤ lo) (hlo : lo < n)
    (hfree : ∀ y ∈ extent.reads ++ size.reads, y ∉ [i, next]) (st : Store) :
    block call fuel (mapHead i next stop extent size ++ use) (M.insert i (.ofInt lo)) st =
      block call fuel use (mapEnter i next stop t (lo, min (lo + t) n) M) st := by
  have hone : Sized call extent size n t (M.insert i (.ofInt lo)) :=
    h.congr fun y hy => get?_insert_of_ne _ _ fun e => hfree y hy (by simp [e])
  have htwo : Sized call extent size n t ((M.insert i (.ofInt lo)).insert next (.ofInt (lo + t))) :=
    hone.congr fun y hy => get?_insert_of_ne _ _ fun e => hfree y hy (by simp [e])
  have hnext := next_pure hone (get?_insert_self ..)
  have hstop : Eval.expr call ((M.insert i (.ofInt lo)).insert next (.ofInt (lo + t)))
    (.prim .min [.var next .i64, extent] .i64) =
      pure (.ofInt (min (lo + t) n)) := by
    rw [prim_pure (var_pure (get?_insert_self ..) _) htwo.extent (min_eval _ _)]
    have hle : Int64.ofInt (lo + t) ≤ Int64.ofInt n ↔ lo + t ≤ n :=
      h.le_iff (by have := h.pos; omega) (by omega) h.nonneg (by have := h.pos; omega)
    by_cases hfit : lo + t ≤ n
    · rw [if_pos (hle.mpr hfit), Int.min_eq_left hfit]
    · rw [if_neg fun hc => hfit (hle.mp hc), Int.min_eq_right (by omega)]
  rw [mapHead, List.cons_append, block_assign (congrFun hnext st), List.cons_append, block_assign (congrFun hstop st)]
  rfl

/-- The iterations of the counted loop from a tile on. -/
theorem repeatCounted_tiles (hfree : ∀ y ∈ extent.reads ++ size.reads, y ∉ [i, next, stop] ++ blockBinds use)
    {l : TileLoop} (huse : l.use = use) (hmerge : l.merge = .empty) {M : Locals} (h : Sized call extent size n t M)
    {lo : Int} (h0 : 0 ≤ lo) (st : Store) :
    repeatCounted i t (block call fuel (mapHead i next stop extent size ++ use)) (bindMerge call .empty Prod.snd)
      (tripCount lo n t) lo M st =
      overTiles (l.onTile call fuel (mapEnter i next stop t)) (tilesFrom lo n t) M st := by
  have hpos := h.pos
  by_cases hlt : lo < n
  · have hhead : ∀ y ∈ extent.reads ++ size.reads, y ∉ [i, next] := fun y hy hm =>
      hfree y hy (List.mem_append_left _ (List.mem_append_left [stop] hm))
    rw [tripCount_of_lt hpos hlt, repeatCounted_succ, tilesFrom_of_lt hpos hlt, overTiles, TileLoop.onTile,
      huse, hmerge, bind_assoc]
    show EStateM.bind _ _ st = EStateM.bind _ _ st
    rw [EStateM.bind, EStateM.bind, mapHead_run h h0 hlt hhead]
    refine state_bind_congr fun fl st1 hrun => ?_
    cases fl with
    | returned v => rfl
    | next M1 =>
      have hM1 : Sized call extent size n t M1 := h.congr fun y hy => by
        have hy := hfree y hy
        rw [List.mem_append, not_or] at hy
        rw [block_within hrun y hy.2, mapEnter_get? _ _ hy.1]
      exact repeatCounted_tiles hfree huse hmerge hM1 (Int.add_nonneg h0 (Int.le_of_lt hpos)) st1
  · rw [tripCount_of_le hpos (by omega), tilesFrom_of_le t (by omega)]
    rfl
termination_by (n - lo).toNat
decreasing_by omega

theorem sliceIndex_pure {M : Locals} {lo hi : Int} {x y : VarName} (hx : M.get? x = some (.ofInt lo))
    (hy : M.get? y = some (.ofInt hi)) (rank axis : Nat) :
    Eval.expr call M (Adverb.sliceIndex Build.domain rank axis (.range (.var x .i64) (.var y .i64) (.int64 1))) =
      pure (tileAt rank axis (lo, hi)) := by
  have hrange : Eval.expr call M (.range (.var x .i64) (.var y .i64) (.int64 1)) =
      pure (.slice (some (Int64.ofInt lo)) (some (Int64.ofInt hi)) 1) := by
    rw [Expr.range, Eval.expr, var_pure hx, var_pure hy, int64_pure]
    rfl
  unfold Adverb.sliceIndex tileAt
  by_cases hrank : rank = 1
  · rw [if_pos hrank, hrange]
    exact congrArg pure (if_pos hrank).symm
  · rw [if_neg hrank]
    show Eval.expr call M (Expr.tupleOf _) = pure (ite _ _ _)
    rw [if_neg hrank, Expr.tupleOf, Eval.expr, exprs_map_pure, pure_bind]
    intro k
    by_cases hk : k = axis
    · rw [if_pos hk, if_pos hk, hrange]
    · rw [if_neg hk, if_neg hk]
      exact wholeAxis_pure

/-- The counted loop over tiles. -/
theorem counted_sweeps (h : Sized call extent size n t L) (hi : i ∉ [next, stop] ++ blockBinds use)
    (hstop : stop ∉ blockBinds use) (hfree : ∀ y ∈ extent.reads ++ size.reads, y ∉ [i, next, stop] ++ blockBinds use) :
    (mapTiles i next stop extent size use).Sweeps ((mapTiles i next stop extent size use).counted extent size) call fuel
    (tilesBelow n t) L := by
  have hpos := h.pos
  refine ⟨mapEnter i next stop t, fun tile M y hy => mapEnter_get? tile M hy, fun tile M M' hM' => ?_, ?_⟩
  · simp only [List.mem_append, List.mem_cons, List.not_mem_nil, not_or] at hi
    refine sliceIndex_pure ?_ ?_
    · rw [hM' i hi.2, mapEnter, get?_insert_of_ne _ _ hi.1.2.1, get?_insert_of_ne _ _ hi.1.1, get?_insert_self]
    · rw [hM' stop hstop, mapEnter, get?_insert_self]
  · have hheader : header call L ⟨i, .int64 0, extent, size⟩ = pure ⟨0, n, t⟩ :=
      header_pure fits_zero (h.fits_of_le h.nonneg (by omega))
        (h.fits_of_le (Int.le_of_lt hpos) (by have := h.nonneg; omega)) (int64_pure 0) h.extent h.size
    funext st
    show stmt call fuel (.forLoop ⟨i, .int64 0, extent, size⟩ (mapHead i next stop extent size ++ use) .empty) L st = _
    rw [forLoop_run (Int.ne_of_gt hpos) hheader (bindMerge_empty call Prod.fst L)]
    exact repeatCounted_tiles hfree rfl rfl h (Int.le_refl 0) st

/-- The end of a tile of a reduction. -/
def reduceHead (i next inside after : VarName) (extent size : Expr) : Block :=
  [.assign (.var next .i64) (.prim .add [.var i .i64, size] .i64),
    .assign (.var inside .bool) (.prim .lte [.var next .i64, extent] .bool),
    .ite (.var inside .bool) [] [] (NameMap.empty.insert after (.var next .i64, extent))]

/-- The loop of a tiled reduction. -/
def reduceTiles (i next inside after : VarName) (extent size : Expr) (use : Block) (m : Merge) : TileLoop :=
  ⟨i, reduceHead i next inside after extent size, .range (.var i .i64) (.var after .i64) (.int64 1), use, m⟩

/-- The locals in which a tile of a reduction begins. -/
def reduceEnter (i next inside after : VarName) (n t : Int) (tile : Int × Int) (M : Locals) : Locals :=
  (((M.insert i (.ofInt tile.1)).insert next (.ofInt (tile.1 + t))).insert inside
    (.bool (decide (tile.1 + t ≤ n)))).insert after (.ofInt tile.2)

theorem reduceEnter_get? (tile : Int × Int) (M : Locals) {y : VarName} (hy : y ∉ [i, next, inside, after]) :
    (reduceEnter i next inside after n t tile M).get? y = M.get? y := by
  simp only [List.mem_cons, List.not_mem_nil, not_or] at hy
  rw [reduceEnter, get?_insert_of_ne _ _ hy.2.2.2.1, get?_insert_of_ne _ _ hy.2.2.1, get?_insert_of_ne _ _ hy.2.1,
    get?_insert_of_ne _ _ hy.1]

/-- A test that picks the value of a name. -/
theorem pick_run {M : Locals} {b : Bool} (hb : M.get? inside = some (.bool b)) {x y : Expr} {v w : Value}
    (hx : Eval.expr call M x = pure v) (hy : Eval.expr call M y = pure w) (st : Store) :
    stmt call fuel (.ite (.var inside .bool) [] [] (NameMap.empty.insert after (x, y))) M st =
      .ok (.next (M.insert after (if b then v else w))) st := by
  have hside : ∀ (side : Expr × Expr → Expr) v, Eval.expr call M (side (x, y)) = pure v →
      bindMerge call (NameMap.empty.insert after (x, y)) side M = pure (M.insert after v) := by
    intro side v hv
    rw [show NameMap.empty.insert after (x, y) = .ofList [(after, x, y)] from rfl, bindMerge_single, hv]
    rfl
  rw [stmt, condition_pure (var_pure hb _), pure_bind]
  cases b with
  | true =>
    rw [if_pos rfl, block_nil]
    show (bindMerge call _ Prod.fst M >>= fun M => pure (Flow.next M)) st = _
    rw [hside Prod.fst v hx]
    rfl
  | false =>
    rw [if_neg Bool.false_ne_true, block_nil]
    show (bindMerge call _ Prod.snd M >>= fun M => pure (Flow.next M)) st = _
    rw [hside Prod.snd w hy]
    rfl

theorem reduceHead_run {M : Locals} {lo : Int} (h : Sized call extent size n t M) (h0 : 0 ≤ lo) (hlo : lo < n)
    (hi : M.get? i = some (.ofInt lo)) (hne : next ≠ inside)
    (hfree : ∀ y ∈ extent.reads ++ size.reads, y ∉ [next, inside]) (st : Store) :
    block call fuel (reduceHead i next inside after extent size ++ use) M st =
      block call fuel use (reduceEnter i next inside after n t (lo, min (lo + t) n) M) st := by
  have hpos := h.pos
  have hinsert : M.insert i (.ofInt lo) = M := NameMap.ext_get? fun y => by
    by_cases hy : y = i
    · rw [hy, get?_insert_self, hi]
    · rw [get?_insert_of_ne _ _ hy]
  have hone : Sized call extent size n t (M.insert next (.ofInt (lo + t))) :=
    h.congr fun y hy => get?_insert_of_ne _ _ fun e => hfree y hy (by simp [e])
  have htwo :
      Sized call extent size n t ((M.insert next (.ofInt (lo + t))).insert inside (.bool (decide (lo + t ≤ n)))) :=
    hone.congr fun y hy => get?_insert_of_ne _ _ fun e => hfree y hy (by simp [e])
  have hinside : Eval.expr call (M.insert next (.ofInt (lo + t))) (.prim .lte [.var next .i64, extent] .bool) =
      pure (.bool (decide (lo + t ≤ n))) := by
    rw [prim_pure (var_pure (get?_insert_self ..) _) hone.extent (lte_eval _ _)]
    rw [decide_eq_decide.mpr (h.le_iff (Int.add_nonneg h0 (Int.le_of_lt hpos)) (by omega) h.nonneg (by omega))]
  have hnext : ((M.insert next (Value.ofInt (lo + t))).insert inside (.bool (decide (lo + t ≤ n)))).get? next =
      some (.ofInt (lo + t)) := by
    rw [get?_insert_of_ne _ _ hne, get?_insert_self]
  have hpick : (if decide (lo + t ≤ n) = true then Value.ofInt (lo + t) else .ofInt n) = .ofInt (min (lo + t) n) := by
    by_cases hfit : lo + t ≤ n
    · rw [if_pos (decide_eq_true hfit), Int.min_eq_left hfit]
    · rw [if_neg (by simpa using hfit), Int.min_eq_right (by omega)]
  rw [reduceHead, List.cons_append, block_assign (congrFun (next_pure h hi) st), List.cons_append,
    block_assign (congrFun hinside st),
    List.cons_append, List.nil_append, block_cons,
      state_bind_of_ok (pick_run (get?_insert_self ..) (var_pure hnext _) htwo.extent st),
    hpick, reduceEnter, hinsert]
  rfl

/-- The iterations of the loop that goes on up to the extent, from a tile on. -/
theorem iterate_tiles {l : TileLoop} (huse : l.use = use)
    (hi : l.merge.get? i = some (.int64 0, .var after .i64)) (hne : next ≠ inside)
    (hafter : after ∉ blockBinds use)
    (hfree : ∀ y ∈ extent.reads ++ size.reads, y ∉ [i, next, inside, after] ++ l.merge.keys ++ blockBinds use)
    {M : Locals} (h : Sized call extent size n t M) {lo : Int} (h0 : 0 ≤ lo) (hM : M.get? i = some (.ofInt (min lo n)))
    {k : Nat} (hk : (tilesFrom lo n t).length ≤ k) (st : Store) :
    iterate (condition call · (.prim .lt [.var i .i64, extent] .bool))
      (block call fuel (reduceHead i next inside after extent size ++ use))
        (bindMerge call l.merge Prod.snd) k M st =
      overTiles (l.onTile call fuel (reduceEnter i next inside after n t)) (tilesFrom lo n t) M st := by
  have hpos := h.pos
  have htest : condition call M (.prim .lt [.var i .i64, extent] .bool) = pure (decide (lo < n)) := by
    have hn := h.nonneg
    have hlt : Int64.ofInt (min lo n) < Int64.ofInt n ↔ lo < n := by
      rw [Int64.lt_iff_toInt_lt, (h.fits_of_le (by omega) (by omega)).toInt_ofInt,
        (h.fits_of_le hn (by omega)).toInt_ofInt]
      omega
    rw [condition_pure (prim_pure (var_pure hM _) h.extent (lt_eval _ _)), decide_eq_decide.mpr hlt]
  by_cases hlt : lo < n
  · rw [tilesFrom_of_lt hpos hlt] at hk ⊢
    rw [Int.min_eq_left (Int.le_of_lt hlt)] at hM
    rw [decide_eq_true hlt] at htest
    cases k with
    | zero => exact absurd hk (Nat.not_succ_le_zero _)
    | succ k =>
      have hhead : ∀ y ∈ extent.reads ++ size.reads, y ∉ [next, inside] := fun y hy hm => hfree y hy (by
        simp only [List.mem_append, List.mem_cons] at hm ⊢
        tauto)
      rw [iterate_succ, htest, pure_bind, if_pos rfl, overTiles, TileLoop.onTile, huse, bind_assoc]
      show EStateM.bind _ _ st = EStateM.bind _ _ st
      rw [EStateM.bind, EStateM.bind, reduceHead_run h h0 hlt hM hne hhead]
      refine state_bind_congr fun fl st1 hrun => ?_
      cases fl with
      | returned v => rfl
      | next M1 =>
        show (bindMerge call l.merge Prod.snd M1 >>= _) st1 =
          ((bindMerge call l.merge Prod.snd M1 >>= fun M => pure (Flow.next M)) >>= _) st1
        rw [bind_assoc]
        refine state_bind_congr fun M2 st2 hback => ?_
        have hM2 : Sized call extent size n t M2 := h.congr fun y hy => by
          have hy := hfree y hy
          rw [List.mem_append, List.mem_append, not_or, not_or] at hy
          rw [bindMerge_keeps hback y hy.1.2, block_within hrun y hy.2, reduceEnter_get? _ _ hy.1.1]
        have hend : M1.get? after = some (.ofInt (min (lo + t) n)) := by
          rw [block_within hrun after hafter, reduceEnter, get?_insert_self]
        exact iterate_tiles huse hi hne hafter hfree hM2 (Int.add_nonneg h0 (Int.le_of_lt hpos))
          (bindMerge_get? hback hi (var_pure hend _)) (Nat.le_of_succ_le_succ hk) st2
  · rw [tilesFrom_of_le t (by omega)]
    rw [decide_eq_false hlt] at htest
    exact iterate_false (congrFun htest st) k
termination_by (n - lo).toNat
decreasing_by omega

/-- The loop up to the extent, over tiles. -/
theorem upward_sweeps (h : Sized call extent size n t L) {m : Merge} (hi : i ∉ [next, inside, after] ++ blockBinds use)
    (hm : m.get? i = some (.int64 0, .var after .i64)) (hne : next ≠ inside) (hafter : after ∉ blockBinds use)
    (hfree : ∀ y ∈ extent.reads ++ size.reads, y ∉ [i, next, inside, after] ++ m.keys ++ blockBinds use)
    (hfuel : (tilesBelow n t).length ≤ fuel) :
    (reduceTiles i next inside after extent size use m).Sweeps
    ((reduceTiles i next inside after extent size use m).upward extent) call fuel
      (tilesBelow n t) L := by
  refine ⟨reduceEnter i next inside after n t, fun tile M y hy => reduceEnter_get? tile M hy,
    fun tile M M' hM' => ?_, ?_⟩
  · simp only [List.mem_append, List.mem_cons, List.not_mem_nil, not_or] at hi
    refine sliceIndex_pure ?_ ?_
    · rw [hM' i hi.2, reduceEnter, get?_insert_of_ne _ _ hi.1.2.2.1, get?_insert_of_ne _ _ hi.1.2.1,
        get?_insert_of_ne _ _ hi.1.1, get?_insert_self]
    · rw [hM' after hafter, reduceEnter, get?_insert_self]
  · funext st
    rw [TileLoop.upward, stmt]
    refine state_bind_congr fun M st1 hentry => ?_
    have hM : Sized call extent size n t M := h.congr fun y hy => bindMerge_keeps hentry y fun hk =>
      hfree y hy (List.mem_append_left _ (List.mem_append_right _ hk))
    exact iterate_tiles rfl hm hne hafter hfree hM (Int.le_refl 0)
      ((bindMerge_get? hentry hm (int64_pure 0)).trans (by rw [Int.min_eq_left h.nonneg]; rfl)) hfuel st1

end Loops

/-! ## The loops that are emitted -/

theorem cast_i64 {e : Expr} (he : e.ty = .i64) : Build.cast e .i64 = pure e := by
  unfold Build.cast
  rw [he]
  exact if_pos rfl

/-- A primitive on a name and another integer is not folded. -/
theorem prim_counter {p : Prim} {t : ScalarTy} (hp : p.operandTys [.i64, .i64] = [.i64, .i64])
    (ht : p.resultTy [.i64, .i64] = t) {x : VarName} {e v : Expr} (he : e.ty = .i64) {name : String} {b b' : Builder}
    (h : Build.prim p [.var x .i64, e] name b = .ok v b') :
    ∃ y, v = .var y (.scalar t) ∧ Appended [.assign (.var y (.scalar t)) (.prim p [.var x .i64, e] (.scalar t))] b b' ∧
      ¬ b.Old y ∧ b'.Old y := by
  have htys : operandTys [.var x .i64, e] = .ok [.i64, .i64] := by
    rw [operandTys, operandTys, he]
    rfl
  have hcasts : castAll ([.var x .i64, e].zip [.i64, .i64]) = pure [.var x .i64, e] := by
    show (Build.cast (.var x .i64) .i64 >>= fun a =>
      (Build.cast e .i64 >>= fun c => pure [] >>= fun cs => pure (c :: cs)) >>= fun cs => pure (a :: cs)) = _
    rw [cast_i64 rfl, cast_i64 he]
    rfl
  have htemp : Build.prim p [.var x .i64, e] name = Build.temp (.prim p [.var x .i64, e] (.scalar t)) name := by
    unfold Build.prim
    rw [htys]
    show (castAll ([.var x .i64, e].zip (p.operandTys [.i64, .i64])) >>= fun args => _) = _
    rw [hp, hcasts, ht]
    rfl
  rw [htemp] at h
  exact Build.temp_appended h

/-- What emitting a counted loop comes to. -/
theorem forLoop_ok {α : Type} {start stop step : Expr} (hstart : start.ty = .i64) (hstop : stop.ty = .i64)
    (hstep : step.ty = .i64) {merge : Merge} {body : Expr → Build α} {a : α} {b b' : Builder}
    (h : forLoop start stop step merge body b = .ok a b') :
    ∃ i b1 b2, Appended [] b b1 ∧ ¬ b.Old i ∧ b1.Old i ∧ body (.var i .i64) { b1 with block := [] } = .ok a b2 ∧
      b'.block = b.block ++ [.forLoop ⟨i, start, stop, step⟩ b2.block merge] := by
  unfold forLoop at h
  rw [cast_i64 hstart, cast_i64 hstop, cast_i64 hstep, pure_bind, pure_bind, pure_bind] at h
  obtain ⟨i, b0, hfresh, h⟩ := state_bind_ok h
  obtain ⟨rfl, hsilent, hnext⟩ := Build.freshName_ok hfresh
  obtain ⟨_, b1, hdeclare, h⟩ := state_bind_ok h
  obtain ⟨rfl, hdeclared, hsession⟩ := Build.declare_ok hdeclare
  obtain ⟨⟨code, a'⟩, b3, hnested, h⟩ := state_bind_ok h
  obtain ⟨_, b4, hemit, h⟩ := state_bind_ok h
  obtain ⟨rfl, rfl⟩ := state_pure_ok h
  obtain ⟨b2, hbody, rfl, rfl⟩ := nested_ok hnested
  have hblock : b1.block = b.block := by rw [hdeclared.block, hsilent.block, List.append_nil, List.append_nil]
  have hlt : b.session.nextName < b1.session.nextName := by
    rw [hsession, hnext]
    exact Nat.lt_succ_self _
  refine ⟨_, b1, b2, ⟨by rw [hblock, List.append_nil], Nat.le_of_lt hlt, fun _ hy => absurd hy List.not_mem_nil⟩,
    fun hold => ?_, Builder.old_numbered hlt "i", hbody, ?_⟩
  · exact Nat.lt_irrefl _ (hold _ _ rfl)
  · rw [(emit_ok hemit).block, ← hblock]

/-- Code that names a part of each value, the one at the bounds along its axis. A value without the axis is taken
whole. -/
inductive Parts (bounds : Expr) : List (Expr × Nat) → Block → List Expr → Prop
  | nil : Parts bounds [] [] []
  | whole {x : Expr} {axis : Nat} {xs : List (Expr × Nat)} {code : Block} {es : List Expr} (h : x.ty.rank ≤ axis)
      (hxs : Parts bounds xs code es) : Parts bounds ((x, axis) :: xs) code (x :: es)
  | part {x : Expr} {axis : Nat} {xs : List (Expr × Nat)} {code : Block} {es : List Expr} {y : VarName} {t : Ty}
      (h : axis < x.ty.rank) (hxs : Parts bounds xs code es) :
      Parts bounds ((x, axis) :: xs)
        (.assign (.var y t) (.index x (Adverb.sliceIndex Build.domain x.ty.rank axis bounds) t) :: code)
          (.var y t :: es)

theorem Parts.append {bounds : Expr} {xs ys : List (Expr × Nat)} {code code' : Block} {es es' : List Expr}
    (hx : Parts bounds xs code es) (hy : Parts bounds ys code' es') :
    Parts bounds (xs ++ ys) (code ++ code') (es ++ es') := by
  induction hx with
  | nil => exact hy
  | whole h _ ih => exact .whole h ih
  | part h _ ih => exact .part h ih

/-- Only an array has an axis. -/
theorem index_appended {x idx e : Expr} (hx : 0 < x.ty.rank) {name : String} {b b' : Builder}
    (h : Build.index x idx name b = .ok e b') :
    ∃ y t, e = .var y t ∧ Appended [.assign (.var y t) (.index x idx t)] b b' := by
  unfold Build.index at h
  cases hty : x.ty with
  | array elt rank =>
    simp only [hty] at h
    cases ht : (Ty.array elt rank).indexTy idx.ty with
    | none =>
      rw [ht] at h
      cases h
    | some t =>
      rw [ht] at h
      obtain ⟨y, rfl, happ, -⟩ := Build.temp_appended h
      exact ⟨y, t, rfl, happ⟩
  | _ =>
    rw [hty] at hx
    exact absurd hx (Nat.lt_irrefl 0)

theorem sliceAlong_parts {x e bounds : Expr} {axis : Nat} {b b' : Builder}
    (h : Build.sliceAlong x axis bounds b = .ok e b') :
    ∃ code, Parts bounds [(x, axis)] code [e] ∧ Appended code b b' := by
  unfold Build.sliceAlong Adverb.sliceAlong at h
  by_cases hrank : x.ty.rank ≤ axis
  · rw [show Build.domain.rank x = x.ty.rank from rfl, if_pos hrank] at h
    obtain ⟨rfl, rfl⟩ := state_pure_ok h
    exact ⟨[], .whole hrank .nil, .refl b⟩
  · rw [show Build.domain.rank x = x.ty.rank from rfl, if_neg hrank] at h
    obtain ⟨y, t, rfl, happ⟩ := index_appended (by omega) h
    exact ⟨_, .part (Nat.lt_of_not_le hrank) .nil, happ⟩

theorem mapM_parts {bounds : Expr} {xs : List (Expr × Nat)} {es : List Expr} {b b' : Builder}
    (h : (xs.mapM fun x => Build.sliceAlong x.1 x.2 bounds : Build (List Expr)) b = .ok es b') :
    ∃ code, Parts bounds xs code es ∧ Appended code b b' := by
  induction xs generalizing b es with
  | nil =>
    obtain ⟨rfl, rfl⟩ := state_pure_ok h
    exact ⟨[], .nil, .refl b⟩
  | cons x xs ih =>
    rw [List.mapM_cons] at h
    obtain ⟨e, b1, hx, h⟩ := state_bind_ok h
    obtain ⟨es, b2, hxs, h⟩ := state_bind_ok h
    obtain ⟨rfl, rfl⟩ := state_pure_ok h
    obtain ⟨code, hcode, happ⟩ := sliceAlong_parts hx
    obtain ⟨code', hcode', happ'⟩ := ih hxs
    exact ⟨code ++ code', hcode.append hcode', happ.append happ'⟩

theorem tileArgs_parts {captured : List Expr} {args : List (Expr × Nat)} {bounds : Expr}
    {sizes : Option Expr} {onTile : List Expr} {b b' : Builder}
    (h : tileArgs captured args bounds sizes b = .ok onTile b') :
    ∃ code es, Parts bounds args code es ∧ Appended code b b' := by
  obtain ⟨es, b1, hparts, h⟩ := state_bind_ok h
  obtain ⟨-, rfl⟩ := state_pure_ok h
  obtain ⟨code, hcode, happ⟩ := mapM_parts hparts
  exact ⟨code, es, hcode, happ⟩

/-- Using a tile begins with the parts of the values at its bounds. -/
def TileLoop.Cuts (l : TileLoop) (values : List (Expr × Nat)) : Prop :=
  ∃ cut es rest, Parts l.bounds values cut es ∧ l.use = cut ++ rest

section Emitted

variable {c : Callee} {args : List Expr} {axes : List Nat} {extent size e : Expr} {sizes : Option Expr} {b b' : Builder}

theorem mapLoop_emits (h : mapLoop c args axes extent size sizes b = .ok e b') (hextent : extent.ty = .i64)
    (hsize : size.ty = .i64) :
    ∃ i next stop use before, b'.block = before ++ [(mapTiles i next stop extent size use).counted extent size] ∧
      axes.headD 0 < e.ty.rank ∧ (mapTiles i next stop extent size use).Cuts (args.zip axes ++ [(e, axes.headD 0)]) ∧
      (∀ y, b.Old y → y ∉ [i, next, stop] ++ blockBinds use) ∧ i ∉ [next, stop] ++ blockBinds use ∧
      stop ∉ blockBinds use := by
  unfold mapLoop at h
  obtain ⟨result, b1, halloc, h⟩ := state_bind_ok h
  obtain ⟨room, happ1⟩ := Build.Fresh.of_tidy (Tidy.allocResult _ _ _ _) _ _ _ halloc
  dsimp only at h
  by_cases hrank : result.ty.rank ≤ axes.headD 0
  · rw [if_pos hrank] at h
    cases h
  rw [if_neg hrank] at h
  obtain ⟨u, b2, hloop, h⟩ := state_bind_ok h
  obtain ⟨rfl, rfl⟩ := state_pure_ok h
  obtain ⟨i, b3, b4, happ3, hinew, hiold, hbody, hblock⟩ := forLoop_ok rfl hextent hsize hloop
  obtain ⟨_, b5, hnext, hbody⟩ := state_bind_ok hbody
  obtain ⟨next, rfl, happ5, hnextnew, hnextold⟩ := prim_counter rfl rfl hsize hnext
  obtain ⟨_, b6, hstop, hbody⟩ := state_bind_ok hbody
  obtain ⟨stop, rfl, happ6, hstopnew, hstopold⟩ := prim_counter rfl rfl hextent hstop
  obtain ⟨onTile, b7, htile, hbody⟩ := state_bind_ok hbody
  obtain ⟨cut, es, hcut, happ7⟩ := tileArgs_parts htile
  obtain ⟨region, b8, hregion, hbody⟩ := state_bind_ok hbody
  obtain ⟨place, hplace, happ8⟩ := sliceAlong_parts hregion
  have hrest : Build.Fresh (do
      let _ ← Build.inline c.fn onTile (some region)
      pure ()) :=
    .bind (Build.inline_fresh _ _ _) fun _ => .of_tidy (Tidy.pure _)
  obtain ⟨rest, happ9⟩ := hrest _ _ _ hbody
  have happ := (happ7.append happ8).append happ9
  have hhead : b6.block = mapHead i next stop extent size := by
    rw [happ6.block, happ5.block]
    rfl
  refine ⟨i, next, stop, cut ++ place ++ rest, b1.block, ?_, Nat.lt_of_not_le hrank,
    ⟨cut ++ place, es ++ [region], rest, hcut.append hplace, rfl⟩, ?_, ?_, ?_⟩
  · rw [hblock, happ.block, hhead]
    rfl
  · intro y hy hm
    have hy3 : b3.Old y := (happ1.append happ3).old hy
    simp only [List.mem_append, List.mem_cons, List.not_mem_nil, or_false] at hm
    rcases hm with (rfl | rfl | rfl) | hm
    · exact hinew (happ1.old hy)
    · exact hnextnew hy3
    · exact hstopnew (happ5.old hy3)
    · exact happ.not_mem (happ6.old (happ5.old hy3)) (blockBinds_append .. ▸ hm)
  · intro hm
    simp only [List.mem_append, List.mem_cons, List.not_mem_nil, or_false] at hm
    rcases hm with (rfl | rfl) | hm
    · exact hnextnew hiold
    · exact hstopnew (happ5.old hiold)
    · exact happ.not_mem (happ6.old (happ5.old hiold)) (blockBinds_append .. ▸ hm)
  · exact happ.not_mem hstopold

/-- Room for a result has a name of its own. -/
theorem allocResult_fresh {callable : Expr} {inner outer : List Expr} {name : String}
    (h : Build.allocResult callable inner outer name b = .ok e b') :
    ∃ x ty, e = .var x ty ∧ ¬ b.Old x ∧ b'.Old x := by
  obtain ⟨shape, b1, hshape, h⟩ := state_bind_ok h
  obtain ⟨⟨elt, dims⟩, b2, hparts, h⟩ := state_bind_ok h
  obtain ⟨-, rfl⟩ := state_lift_ok hparts
  have hle1 := next_of_tidy (Tidy.ofCall _ _) hshape
  dsimp only at h
  unfold Build.allocShaped at h
  by_cases hempty : (outer ++ dims).isEmpty = true
  · rw [if_pos hempty] at h
    obtain ⟨x, rfl, -, hnew, hold⟩ := Build.freshVar_fresh h
    exact ⟨x, _, rfl, fun h => hnew (h.mono hle1), hold⟩
  · rw [if_neg hempty] at h
    obtain ⟨ds, b2, hcasts, h⟩ := state_bind_ok h
    obtain ⟨count, b3, hcount, h⟩ := state_bind_ok h
    obtain ⟨data, b4, hdata, h⟩ := state_bind_ok h
    obtain ⟨strides, b5, hstrides, h⟩ := state_bind_ok h
    obtain ⟨x, rfl, -, hnew, hold⟩ := Build.temp_appended h
    have hle2 := next_of_tidy (Tidy.castAll _) hcasts
    have hle3 := next_of_tidy (Tidy.prod _ _) hcount
    have hle4 := next_of_tidy (Build.temp_tidy _ _) hdata
    have hle5 := next_of_tidy (Tidy.rowMajorStrides _ _) hstrides
    exact ⟨x, _, rfl, fun h => hnew (h.mono (by omega)), hold⟩

/-- Filling takes names. -/
theorem fillFrom_next {acc init : Expr} {k : Nat} {outer : List Expr} (h : fillFrom acc init k outer b = .ok () b') :
    b.session.nextName ≤ b'.session.nextName := by
  induction k generalizing b b' outer with
  | zero => exact next_of_tidy (Tidy.setIndex _ _ _) h
  | succ k ih =>
    obtain ⟨extent, b1, hshape, h⟩ := state_bind_ok h
    obtain ⟨p, b2, hcounter, h⟩ := state_bind_ok h
    obtain ⟨q, b3, hnested, h⟩ := state_bind_ok h
    obtain ⟨b4, hbody, -, rfl⟩ := nested_ok hnested
    obtain ⟨_, b5, hfill, hbody⟩ := state_bind_ok hbody
    obtain ⟨next, b6, hnext, hbody⟩ := state_bind_ok hbody
    have hle1 := next_of_tidy (Tidy.shape _ _) hshape
    have hle3 := ih hfill
    change b2.session.nextName ≤ _ at hle3
    have hle4 := next_of_tidy (Tidy.prim _ _ _) hnext
    have hle5 := (emit_ok hbody).next
    have hle6 : b4.session.nextName ≤ b'.session.nextName := (emit_ok h).next
    obtain ⟨j, after, b2', hcounter', happ2, -⟩ := Build.loopCounter_fresh "j" (.int64 0) b1
    rw [hcounter] at hcounter'
    cases hcounter'
    have hle2 := happ2.next
    omega

/-- What becomes of the merge of a reduction: the counter stays in it, and only the accumulator may join. The next
name of the accumulator is new. -/
structure Joins (acc : Expr) (m : Merge) (b : Builder) (p : Option Expr × Merge) (b' : Builder) : Prop where
  next : b.session.nextName ≤ b'.session.nextName
  kept : ∀ i s, m.get? i = some s → (∀ ty, acc ≠ .var i ty) → p.2.get? i = some s
  keys : ∀ x ∈ p.2.keys, x ∈ m.keys ∨ ∃ ty, acc = .var x ty
  after : ∀ a, p.1 = some a → ∃ u ty, a = .var u ty ∧ ¬ b.Old u

theorem startAccumulator_joins {acc init : Expr} {m : Merge} {p : Option Expr × Merge}
    (h : startAccumulator acc init m b = .ok p b') :
    Joins acc m b p b' := by
  unfold startAccumulator at h
  split at h
  · obtain ⟨entry, b1, hentry, h⟩ := state_bind_ok h
    obtain ⟨_, b2, hafter, h⟩ := state_bind_ok h
    have hle := next_of_tidy (Tidy.coerce _ _ _) hentry
    obtain ⟨u, rfl, happ, hnew, -⟩ := Build.freshVar_fresh hafter
    have hu : ∀ a, some (Expr.var u acc.ty) = some a → ∃ u ty, a = .var u ty ∧ ¬ b.Old u := by
      rintro a ⟨⟩
      exact ⟨u, _, rfl, fun hold => hnew (hold.mono hle)⟩
    have hnext : b.session.nextName ≤ b2.session.nextName := Nat.le_trans hle happ.next
    cases acc with
    | var x ty =>
      obtain ⟨rfl, rfl⟩ := state_pure_ok h
      refine ⟨hnext, fun i s hi hne => ?_, fun y hy => ?_, hu⟩
      · rw [get?_insert_of_ne _ _ fun e => hne ty (by rw [e]), hi]
      · rcases NameMap.mem_keys_insert.mp hy with rfl | hy
        · exact .inr ⟨ty, rfl⟩
        · exact .inl hy
    | _ =>
      obtain ⟨rfl, rfl⟩ := state_pure_ok h
      exact ⟨hnext, fun i s hi _ => hi, fun y hy => .inl hy, hu⟩
  · obtain ⟨_, b1, hfill, h⟩ := state_bind_ok h
    obtain ⟨rfl, rfl⟩ := state_pure_ok h
    refine ⟨?_, fun i s hi _ => hi, fun x hx => .inl hx, fun a ha => by cases ha⟩
    unfold fillWith at hfill
    split at hfill
    · cases hfill
    · exact fillFrom_next hfill

/-- What the body of a reduction does with the arguments on one tile. -/
def reduceRest (c k : Callee) (acc : Expr) (combineSizes accAfter : Option Expr) (onTile : List Expr) : Build Unit := do
  let result ← Build.call (.fnRefTo c.fn.name) onTile "tile_result"
  let combined ← Build.call (.fnRefTo k.fn.name) (k.captured ++ [acc, result] ++ combineSizes.toList) "combined"
  match accAfter with
  | some accAfter => Build.assign accAfter (← Build.coerce combined accAfter.ty "tiled reduce")
  | none => Build.setIndex acc (.wholeIndex acc.ty.rank) combined

/-- It binds names of its own, and the next name of the accumulator. -/
theorem reduceRest_binds {k : Callee} {acc : Expr} {combineSizes accAfter : Option Expr} {onTile : List Expr}
    (hafter : ∀ a, accAfter = some a → ∃ u ty, a = .var u ty)
    (h : reduceRest c k acc combineSizes accAfter onTile b = .ok () b') :
    ∃ out, b'.block = b.block ++ out ∧ ∀ y ∈ blockBinds out, ¬ b.Old y ∨ ∃ ty, accAfter = some (.var y ty) := by
  obtain ⟨result, b1, hresult, h⟩ := state_bind_ok h
  obtain ⟨combined, b2, hcombined, h⟩ := state_bind_ok h
  obtain ⟨out1, happ1⟩ := Build.Fresh.of_tidy (Tidy.call _ _ _) _ _ _ hresult
  obtain ⟨out2, happ2⟩ := Build.Fresh.of_tidy (Tidy.call _ _ _) _ _ _ hcombined
  cases accAfter with
  | none =>
    obtain ⟨out3, happ3⟩ := Build.Fresh.of_tidy (Tidy.setIndex _ _ _) _ _ _ h
    have happ := (happ1.append happ2).append happ3
    exact ⟨_, happ.block, fun y hy => .inl (happ.names y hy).1⟩
  | some a =>
    obtain ⟨u, ty, rfl⟩ := hafter a rfl
    obtain ⟨v, b3, hv, h⟩ := state_bind_ok h
    obtain ⟨out3, happ3⟩ := Build.Fresh.of_tidy (Tidy.coerce _ _ _) _ _ _ hv
    have happ := (happ1.append happ2).append happ3
    refine ⟨out1 ++ out2 ++ out3 ++ [.assign (.var u ty) v], ?_, fun y hy => ?_⟩
    · rw [(emit_ok h).block, happ.block, List.append_assoc]
    · rw [blockBinds_append] at hy
      rcases List.mem_append.mp hy with hy | hy
      · exact .inl (happ.names y hy).1
      · exact .inr ⟨ty, by rw [List.mem_singleton.mp hy]⟩

theorem reduceLoop_emits {k : Callee} {init : Expr} {combineSizes : Option Expr}
    (h : reduceLoop c k init args axes extent size sizes combineSizes b = .ok e b') (hextent : extent.ty = .i64)
    (hsize : size.ty = .i64) :
    ∃ i next inside after use m before, b'.block = before ++
      [(reduceTiles i next inside after extent size use m).upward extent] ∧
      (reduceTiles i next inside after extent size use m).Cuts (args.zip axes) ∧
      m.get? i = some (.int64 0, .var after .i64) ∧
        (∀ y, b.Old y → y ∉ [i, next, inside, after] ++ m.keys ++ blockBinds use) ∧
      i ∉ [next, inside, after] ++ blockBinds use ∧ next ≠ inside ∧ after ∉ blockBinds use := by
  rw [reduceLoop_eq] at h
  obtain ⟨acc, b1, halloc, h⟩ := state_bind_ok h
  obtain ⟨x, xty, rfl, hxnew, hxold⟩ := allocResult_fresh halloc
  have hle1 := next_of_tidy (Tidy.allocResult _ _ _ _) halloc
  obtain ⟨i, after, b2, hcounter, happ2, hi, hafter, hne⟩ := Build.loopCounter_fresh "i" (.int64 0) b1
  rw [state_bind_of_ok hcounter] at h
  obtain ⟨⟨accAfter, m⟩, b3, hstart, h⟩ := state_bind_ok h
  have hjoins := startAccumulator_joins hstart
  obtain ⟨⟨body, _⟩, b4, hnested, h⟩ := state_bind_ok h
  obtain ⟨_, b5, hemit, h⟩ := state_bind_ok h
  obtain ⟨-, rfl⟩ := state_pure_ok h
  obtain ⟨b5, hbody, rfl, rfl⟩ := nested_ok hnested
  -- the end of the tile
  obtain ⟨_, b6, hnext, hbody⟩ := state_bind_ok hbody
  obtain ⟨next, rfl, happ6, hnextnew, hnextold⟩ := prim_counter rfl rfl hsize hnext
  obtain ⟨_, b7, hinside, hbody⟩ := state_bind_ok hbody
  obtain ⟨inside, rfl, happ7, hinsidenew, hinsideold⟩ := prim_counter rfl rfl hextent hinside
  obtain ⟨_, b8, hguard, hbody⟩ := state_bind_ok hbody
  have hemits := emit_ok hguard
  obtain ⟨onTile, b9, htile, hrest⟩ := state_bind_ok hbody
  obtain ⟨cut, es, hcut, happ9⟩ := tileArgs_parts htile
  obtain ⟨rest, hblock, hbinds⟩ :=
    reduceRest_binds (fun a ha => (hjoins.after a ha).imp fun u hu => hu.imp fun ty h => h.1) hrest
  have hhead : b8.block = reduceHead i next inside after extent size := by
    rw [hemits.block, happ7.block, happ6.block]
    rfl
  -- what was there when the counter had its names is not bound by the rest of the body
  have hlater : ∀ {y}, b2.Old y → Builder.Old { b3 with block := [] } y := fun hy => hy.mono hjoins.next
  have huse : ∀ y, b2.Old y → y ∉ blockBinds (cut ++ rest) := by
    intro y hy hm
    have hy8 : b8.Old y := (happ7.old (happ6.old (hlater hy))).mono hemits.next
    rw [blockBinds_append] at hm
    rcases List.mem_append.mp hm with hm | hm
    · exact happ9.not_mem hy8 hm
    · rcases hbinds y hm with hnew | ⟨ty, ha⟩
      · exact hnew (happ9.old hy8)
      · obtain ⟨u, uty, hu, hunew⟩ := hjoins.after _ ha
        cases hu
        exact hunew hy
  have hhere : ∀ y, b2.Old y → y ∉ [next, inside] := by
    intro y hy hm
    simp only [List.mem_cons, List.not_mem_nil, or_false] at hm
    rcases hm with rfl | rfl
    · exact hnextnew (hlater hy)
    · exact hinsidenew (happ6.old (hlater hy))
  refine ⟨i, next, inside, after, cut ++ rest, m, b3.block, ?_, ⟨cut, es, rest, hcut, rfl⟩, ?_, fun y hy hm => ?_,
    fun hm => ?_, fun e => ?_, huse after hafter.2⟩
  · rw [(emit_ok hemit).block, hblock, happ9.block, hhead, List.append_assoc]
    rfl
  · refine hjoins.kept i _ (get?_insert_self ..) fun ty e => ?_
    cases e
    exact hi.1 hxold
  · have hy1 : b1.Old y := hy.mono hle1
    have hy2 : b2.Old y := happ2.old hy1
    have hhere := hhere y hy2
    simp only [List.mem_append, List.mem_cons, List.not_mem_nil, or_false, not_or] at hm hhere
    rcases hm with ((rfl | rfl | rfl | rfl) | hm) | hm
    · exact hi.1 hy1
    · exact hhere.1 rfl
    · exact hhere.2 rfl
    · exact hafter.1 hy1
    · rcases hjoins.keys y hm with hm | ⟨ty, e⟩
      · rcases NameMap.mem_keys_insert.mp hm with rfl | hm
        · exact hi.1 hy1
        · cases hm
      · cases e
        exact hxnew hy
    · exact huse y hy2 hm
  · have hhere := hhere i hi.2
    simp only [List.mem_append, List.mem_cons, List.not_mem_nil, or_false, not_or] at hm hhere
    rcases hm with (e | e | e) | hm
    · exact hhere.1 e
    · exact hhere.2 e
    · exact hne e
    · exact huse i hi.2 hm
  · exact hinsidenew (e ▸ hnextold)

end Emitted

/-- The loops emitted for tiled maps and reductions go over the same tiles, which partition the integers below the
extent. Each argument with the axis is indexed at the bounds, as is the room for the result of a map; however the
bounds are computed, they are those of the tiles, one after the other. -/
theorem loops_partition {n t : Int} (hn : 0 ≤ n) (ht : 1 ≤ t) (hfits : Fits (n + t)) :
    Partitions n t (tilesBelow n t) ∧
    (∀ {c args axes extent size sizes b e b'}, mapLoop c args axes extent size sizes b = .ok e b' →
      extent.ty = .i64 → size.ty = .i64 →
      (∀ y ∈ extent.reads ++ size.reads, b.Old y) →
      ∃ l before, b'.block = before ++ [TileLoop.counted l extent size] ∧ axes.headD 0 < e.ty.rank ∧
        l.Cuts (args.zip axes ++ [(e, axes.headD 0)]) ∧
        ∀ call fuel L, Eval.expr call L extent = pure (.ofInt n) → Eval.expr call L size = pure (.ofInt t) →
          l.Sweeps (l.counted extent size) call fuel (tilesBelow n t) L) ∧
    ∀ {c k init args axes extent size sizes combineSizes b e b'},
      reduceLoop c k init args axes extent size sizes combineSizes b = .ok e b' → extent.ty = .i64 → size.ty = .i64 →
      (∀ y ∈ extent.reads ++ size.reads, b.Old y) →
      ∃ l before, b'.block = before ++ [TileLoop.upward l extent] ∧ l.Cuts (args.zip axes) ∧
        ∀ call fuel L, Eval.expr call L extent = pure (.ofInt n) → Eval.expr call L size = pure (.ofInt t) →
          (tilesBelow n t).length ≤ fuel →
          l.Sweeps (l.upward extent) call fuel (tilesBelow n t) L := by
  refine ⟨tilesBelow_partitions hn ht, ?_, ?_⟩
  · intro c args axes extent size sizes b e b' h hextent hsize hold
    obtain ⟨i, next, stop, use, before, hblock, hrank, hcuts, hfree, hi, hstop⟩ := mapLoop_emits h hextent hsize
    exact ⟨_, before, hblock, hrank, hcuts, fun call fuel L hext hsz =>
      counted_sweeps ⟨hn, ht, hfits, hext, hsz⟩ hi hstop fun y hy => hfree y (hold y hy)⟩
  · intro c k init args axes extent size sizes combineSizes b e b' h hextent hsize hold
    obtain ⟨i, next, inside, after, use, m, before, hblock, hcuts, hm, hfree, hi, hne, hafter⟩ :=
      reduceLoop_emits h hextent hsize
    exact ⟨_, before, hblock, hcuts, fun call fuel L hext hsz hfuel =>
      upward_sweeps ⟨hn, ht, hfits, hext, hsz⟩ hi hm hne hafter (fun y hy => hfree y (hold y hy)) hfuel⟩

open Sample (plus)

/-- The first element of a vector. -/
def firstOf : Func := .returning "firstOf" [("x", .array .i64 1)]
  (.index (.var "x" (.array .i64 1)) (.int64 0) .i64)

/-- A vector `a` and its length `n` are in scope. -/
def vectorBuilder : Builder :=
  ⟨{ functions := [same, firstOf, plus] }, .ofList [("a", .array .i64 1), ("n", .i64)], []⟩

/-- The vector, two elements at a time. -/
def sameByTwo : Build Expr := mapLoop ⟨same, [], 0⟩ [.var "a" (.array .i64 1)] [0] (.var "n" .i64) (.int64 2) none

/-- The sum of every other element. -/
def sumByTwo : Build Expr :=
  reduceLoop ⟨firstOf, [], 0⟩ ⟨plus, [], 0⟩ (.int64 0) [.var "a" (.array .i64 1)] [0] (.var "n" .i64) (.int64 2)
    none none

/-- Five elements, two at a time. -/
theorem loops_partition_five : tilesBelow 5 2 = [(0, 2), (2, 4), (4, 5)] ∧
    (∃ e b' l before, sameByTwo vectorBuilder = .ok e b' ∧
      b'.block = before ++ [TileLoop.counted l (.var "n" .i64) (.int64 2)] ∧
      l.Cuts [(.var "a" (.array .i64 1), 0), (e, 0)] ∧
      l.Sweeps (l.counted (.var "n" .i64) (.int64 2)) (vectorBuilder.session.call 1) 0 (tilesBelow 5 2)
        (.ofList [("n", .int 5)])) ∧
    ∃ e b' l before, sumByTwo vectorBuilder = .ok e b' ∧
      b'.block = before ++ [TileLoop.upward l (.var "n" .i64)] ∧ l.Cuts [(.var "a" (.array .i64 1), 0)] ∧
      l.Sweeps (l.upward (.var "n" .i64)) (vectorBuilder.session.call 1) 3 (tilesBelow 5 2)
        (.ofList [("n", .int 5)]) := by
  have htiles : tilesBelow 5 2 = [(0, 2), (2, 4), (4, 5)] := by simp [tilesBelow, tilesFrom, visits]
  have hold : ∀ y ∈ (Expr.var "n" .i64).reads ++ (Expr.int64 2).reads, vectorBuilder.Old y := by
    intro y hy
    rw [List.mem_singleton.mp hy]
    exact Builder.old_of_no_dot (by decide) _
  obtain ⟨-, hmap, hreduce⟩ := loops_partition (n := 5) (t := 2) (by decide) (by decide) (by decide)
  refine ⟨htiles, ?_, ?_⟩
  · obtain ⟨e, b', h⟩ := exists_of_succeeds (show succeeds (sameByTwo vectorBuilder) = true by decide +kernel)
    obtain ⟨l, before, hblock, -, hcuts, hsweeps⟩ := hmap h rfl rfl hold
    exact ⟨e, b', l, before, h, hblock, hcuts, hsweeps _ _ _ rfl rfl⟩
  · obtain ⟨e, b', h⟩ := exists_of_succeeds (show succeeds (sumByTwo vectorBuilder) = true by decide +kernel)
    obtain ⟨l, before, hblock, hcuts, hsweeps⟩ := hreduce h rfl rfl hold
    exact ⟨e, b', l, before, h, hblock, hcuts, hsweeps _ _ _ rfl rfl (by rw [htiles]; exact Nat.le_refl 3)⟩

end Tiling

end ArrayIR
