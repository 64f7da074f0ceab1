/-
  ArrayIR.Proofs.Tiling.Lifting — filling an accumulator with its initial value.

  An array accumulator is filled by a nest of loops, one for each axis that the initial
  value lacks, around a store at the coordinates that the loops have come to. Running
  them leaves in it what broadcasting the value gives, and changes nothing else
  (`fillWith_broadcasts`). The induction is on the axes that are left (`Lift.fillFrom_fills`):
  a loop over one axis keeps up what its body does for each coordinate (`Passed.step`).

  The value is computed anew for every store. That is the same value as long as
  computing it changes no buffer and reads nothing of the accumulator; otherwise the
  elements differ (`value_computed_per_place`).
-/

import ArrayIR.Proofs.Adverbs.Stacking
import ArrayIR.Proofs.Again
import ArrayIR.Proofs.Fresh
import ArrayIR.Proofs.Inlining.Output
import ArrayIR.Proofs.Loops
import ArrayIR.Proofs.Shapes.Allocation
import ArrayIR.Tiling.Lower

namespace ArrayIR

open Value (ofInt rank)

namespace View

variable {u region : View} {s t t' : Store}

/-! ## What changes -/

/-- Since the store `s` buffers have been added, and of those that were there only cells of the view have
changed. -/
structure Updates (u : View) (s t : Store) : Prop where
  size : s.size ≤ t.size
  length : (t.cells u.buffer).size = (s.cells u.buffer).size
  cells : ∀ b < s.size, ∀ i : Nat, (b = u.buffer → (i : Int) ∉ u.offsets) → (t.cells b)[i]? = (s.cells b)[i]?

namespace Updates

theorem refl (u : View) (s : Store) : u.Updates s s := ⟨Nat.le_refl _, rfl, fun _ _ _ _ => rfl⟩

theorem trans (h : u.Updates s t) (h' : u.Updates t t') : u.Updates s t' where
  size := Nat.le_trans h.size h'.size
  length := h'.length.trans h.length
  cells b hb i hi := (h'.cells b (Nat.lt_of_lt_of_le hb h.size) i hi).trans (h.cells b hb i hi)

theorem of_grows (hu : u.buffer < s.size) (h : s.Grows t) : u.Updates s t :=
  ⟨h.size, congrArg Array.size (h.cells hu), fun _ hb _ _ => by rw [h.cells hb]⟩

/-- All other buffers are as they were. -/
theorem growsBut (h : u.Updates s t) : s.GrowsBut u.buffer t :=
  ⟨h.size, fun {b} hb hne => Array.ext_getElem? fun i => h.cells b hb i fun e => absurd e hne⟩

theorem oneToOne (h : u.Updates s t) (hu : u.OneToOne s) : u.OneToOne t := hu.congr h.length

/-- A region of the view has been filled. -/
theorem of_filled (hbuf : region.buffer = u.buffer) (hsub : ∀ o ∈ region.offsets, o ∈ u.offsets) (x : Value) :
    u.Updates s (region.filled s x) where
  size := Nat.le_of_eq (filled_onlyChanges region s x).size.symm
  length := size_filled region s x u.buffer
  cells b _ i hi := (filled_onlyChanges region s x).cells b i fun hb ho => hi (hb.trans hbuf) (hsub _ ho)

end Updates

/-! ## Positions that start with given coordinates -/

theorem Takes.of_shape {v : Value} (h : u.Takes v) (hs : region.shape = v.shape) : region.Takes v := by
  cases v with
  | array w =>
    show w.shape <:+ region.shape
    rw [hs]
    exact List.suffix_rfl
  | scalar _ => trivial
  | _ => exact h.elim

/-- Integers drop the first axes, and the others are taken whole. -/
theorem resolveAxes_prefix {dims pre ss : List Int} (hpre : Within dims pre) (hs : ss.length = dims.length)
    (hfits : ∀ d ∈ dims, Eval.Fits d) {axes : List (Int × Int)} (haxes : ∀ p ∈ axes, 0 ≤ p.1) (axis n : Nat) :
    resolveAxes axis (dims.zip ss ++ axes) (pre.map ofInt ++ List.replicate n .wholeAxis) = .ok (dot pre ss, axes) := by
  induction dims generalizing pre ss axis with
  | nil =>
    cases pre with
    | cons i pre => exact hpre.elim
    | nil =>
      rw [List.zip_nil_left, List.map_nil, List.nil_append, List.nil_append, resolveAxes_whole haxes, dot]
      rintro i is s ss ⟨⟩
  | cons d dims ih =>
    obtain ⟨hd, hdims⟩ := List.forall_mem_cons.mp hfits
    cases pre with
    | nil => exact hpre.elim
    | cons i pre =>
      cases ss with
      | nil => cases hs
      | cons s ss =>
        have hi : Eval.Fits i := Eval.fits_zero.of_between hd (.inl ⟨hpre.1.1, Int.le_of_lt hpre.1.2⟩)
        have haxis : resolveAxis axis d s (ofInt i) = .ok (i * s, []) := by
          have hin : ¬ (i < 0 ∨ d ≤ i) := by
            have := hpre.1
            omega
          show (if (Int64.ofInt i).toInt < 0 ∨ d ≤ (Int64.ofInt i).toInt then _ else _) = _
          rw [hi.toInt_ofInt, if_neg hin]
          rfl
        rw [List.zip_cons_cons, List.cons_append, List.map_cons, List.cons_append, resolveAxes, haxis,
          ih hpre.2 (Nat.succ.inj hs) hdims]
        rfl

/-- An index that fixes the first coordinates selects the positions that start with them. -/
theorem resolve_prefix {dims shape pre : List Int} (hshape : u.shape = dims ++ shape)
    (hlen : u.strides.length = u.shape.length) (hpre : Within dims pre) (hfits : ∀ d ∈ dims, Eval.Fits d)
    (hpos : ∀ d ∈ shape, 0 ≤ d) {n : Nat} (hn : n ≤ shape.length) :
    ∃ region, u.resolve (.tuple (pre.map ofInt ++ List.replicate n .wholeAxis)) = .ok region ∧
      region.shape = shape ∧ ∀ p, region.address p = u.address (pre ++ p) := by
  obtain ⟨ss, ts, hstrides, hss, hts⟩ : ∃ ss ts, u.strides = ss ++ ts ∧ ss.length = dims.length ∧
      ts.length = shape.length := by
    refine ⟨u.strides.take dims.length, u.strides.drop dims.length, (List.take_append_drop _ _).symm, ?_, ?_⟩
    · rw [List.length_take, hlen, hshape, List.length_append]
      omega
    · rw [List.length_drop, hlen, hshape, List.length_append]
      omega
  have hzip : u.shape.zip u.strides = dims.zip ss ++ shape.zip ts := by
    rw [hshape, hstrides, List.zip_append hss.symm]
  have hcount : ¬ u.shape.length < (pre.map ofInt ++ List.replicate n Value.wholeAxis).length := by
    rw [hshape, List.length_append, List.length_append, List.length_map, List.length_replicate, hpre.length]
    omega
  have hres : u.resolve (.tuple (pre.map ofInt ++ List.replicate n .wholeAxis)) =
      .ok { u with shape := shape, strides := ts, offset := u.offset + dot pre ss } := by
    unfold resolve
    rw [components, if_neg hcount, hzip, resolveAxes_prefix hpre hss hfits fun p hp => hpos p.1 (List.of_mem_zip hp).1]
    show Except.ok _ = _
    rw [List.map_fst_zip (Nat.le_of_eq hts.symm), List.map_snd_zip (Nat.le_of_eq hts)]
  refine ⟨_, hres, rfl, fun p => ?_⟩
  show u.offset + dot pre ss + dot p ts = u.offset + dot (pre ++ p) u.strides
  rw [hstrides, dot_append (by rw [hpre.length, hss]), Int.add_assoc]

end View

namespace Tiling

open Eval

/-! ## One store -/

/-- An accumulator that is a view `u`, and an initial value that it can be filled with: the extents of the value
are the last ones of the accumulator, nothing that it is computed from leads to the accumulator, and computing it
changes no buffer. -/
structure Lift (call : Caller) (x : VarName) (u : View) (init : Expr) (v : Value) (dims : List Int)
    (L₀ : Locals) (t₀ t₁ : Store) :
    Prop where
  shape : u.shape = dims ++ v.shape
  strides : u.strides.length = u.shape.length
  live : u.buffer < t₀.size
  oneToOne : u.OneToOne t₀
  fits : ∀ d ∈ u.shape, Fits d
  acc : L₀.get? x = some (.array u)
  apart : init.ReadsApart u.buffer t₀ L₀
  value : Eval.expr call L₀ init t₀ = .ok v t₁
  quiet : t₀.Grows t₁
  takes : u.Takes v
  extents : ∀ d ∈ u.shape, 0 ≤ d
  ty : init.ty = .ofRank u.elt v.rank

/-- The accumulator as an expression. -/
def accumulator (x : VarName) (u : View) : Expr := .var x (.array u.elt u.shape.length)

/-- Where the loops around have come to: their counters are the coordinates `pre`, and what the initial value is
computed from is as it was. -/
structure Reached (x : VarName) (u : View) (init : Expr) (L₀ : Locals) (t₀ : Store) (dims : List Int)
    (outer : List VarName) (pre : List Int) (L : Locals) (t : Store) : Prop where
  acc : L.get? x = some (.array u)
  reads : ∀ y ∈ init.reads, L.get? y = L₀.get? y
  counters : List.Forall₂ (fun y i => L.get? y = some (.ofInt i)) outer pre
  within : Within (dims.take outer.length) pre
  updates : u.Updates t₀ t

variable {call : Caller} {x : VarName} {u : View} {init : Expr} {v : Value} {L₀ L : Locals}
  {t₀ t₁ t : Store} {dims pre : List Int}
  {outer : List VarName}

/-- Names that are not bound in the meantime. -/
theorem Reached.congr (h : Reached x u init L₀ t₀ dims outer pre L t) {L' : Locals} {t' : Store}
    (hx : L'.get? x = L.get? x) (hreads : ∀ y ∈ init.reads, L'.get? y = L.get? y)
    (houter : ∀ y ∈ outer, L'.get? y = L.get? y) (ht : u.Updates t₀ t') :
    Reached x u init L₀ t₀ dims outer pre L' t' where
  acc := hx.trans h.acc
  reads y hy := (hreads y hy).trans (h.reads y hy)
  counters := by
    have hall : ∀ p ∈ outer.zip pre, L.get? p.1 = some (.ofInt p.2) :=
      fun p hp => (List.forall₂_iff_zip.mp h.counters).2 hp
    refine List.forall₂_iff_zip.mpr ⟨h.counters.length_eq, fun {y i} hp => ?_⟩
    rw [houter y (List.of_mem_zip hp).1]
    exact hall (y, i) hp
  within := h.within
  updates := ht

/-- The counters and whole axes as an index. -/
theorem index_pure (hcounters : List.Forall₂ (fun y i => L.get? y = some (ofInt i)) outer pre) (n : Nat) :
    Eval.expr call L (.tupleOf (outer.map (.var · .i64) ++ List.replicate n .wholeAxis)) =
      pure (.tuple (pre.map ofInt ++ List.replicate n .wholeAxis)) := by
  have hall : Eval.exprs call L (outer.map (.var · .i64) ++ List.replicate n .wholeAxis) =
      pure (pre.map ofInt ++ List.replicate n .wholeAxis) := by
    induction hcounters with
    | nil => exact Inlining.exprs_wholeAxis call n
    | cons hy _ ih =>
      rw [List.map_cons, List.cons_append, Eval.exprs, var_pure hy, pure_bind, ih, pure_bind]
      rfl
  rw [Expr.tupleOf, Eval.expr, hall, pure_bind]

/-- The elements that the accumulator is to have, whatever the first coordinates. -/
def wanted (v : Value) (t₁ : Store) (_ p : List Int) : Option Scalar := v.element? t₁ p

/-- Storing the initial value at the coordinates of all the loops. -/
theorem Lift.store_run (h : Lift call x u init v dims L₀ t₀ t₁) (hcall : call.Local)
    (hr : Reached x u init L₀ t₀ dims outer pre L t) (houter : outer.length = dims.length) (fuel : Nat) (ty : Ty)
    {done : List Int → Prop} (hdone : ∀ q, done q → Within dims q) (hstacked : u.Stacked v.shape (wanted v t₁) done t) :
    ∃ t', block call fuel [.assign (.index (accumulator x u)
        (.tupleOf (outer.map (.var · .i64) ++ List.replicate v.rank .wholeAxis)) ty) init] L t = .ok (.next L) t' ∧
      u.Updates t t' ∧ u.Stacked v.shape (wanted v t₁) (fun q => done q ∨ q = pre) t' := by
  have hpre : Within dims pre := by
    have := hr.within
    rwa [houter, List.take_length] at this
  -- the initial value is computed again, and gives the same elements
  have hapart : init.ReadsApart u.buffer t₀ L := fun y hy w hw => h.apart y hy w ((hr.reads y hy).symm.trans hw)
  have hagain : Eval.expr call L init t₀ = .ok v t₁ := by rw [expr_congr init hr.reads, h.value]
  obtain ⟨v', t2, w, hv', hgrows, -, hagree, hlikes⟩ := expr_again hcall hapart hagain h.quiet hr.updates.growsBut
  have hlive : u.buffer < t.size := Nat.lt_of_lt_of_le h.live hr.updates.size
  have hupdates : u.Updates t t2 := .of_grows hlive hgrows
  have hshape : v'.shape = v.shape := hlikes.shape.symm
  obtain ⟨region, hregion, hrs, hat⟩ := View.resolve_prefix h.shape h.strides hpre
    (fun d hd => h.fits d (h.shape ▸ List.mem_append_left _ hd))
      (fun d hd => h.extents d (h.shape ▸ List.mem_append_right _ hd))
    (Nat.le_refl v.rank)
  obtain ⟨-, hbuf, -⟩ := View.resolve_proper hregion
  have htakes : region.Takes v' := Inlining.takes_alike hlikes (h.takes.of_shape hrs)
  have hwrite : u.write (.tuple (pre.map ofInt ++ List.replicate v.rank .wholeAxis)) v' t2 =
      .ok () (region.filled t2 v') :=
    View.write_of_resolve hregion htakes
  refine ⟨region.filled t2 v', ?_, hupdates.trans (.of_filled hbuf ?_ v'), ?_⟩
  · rw [block_singleton, stmt, state_bind_of_ok hv']
    show (do
      let a ← Eval.expr call L (.var x _)
      let i ← Eval.expr call L (.tupleOf _)
      store a i v'
      return .next L : Exec Flow) t2 = _
    rw [var_pure hr.acc, pure_bind, index_pure hr.counters, pure_bind, store, state_bind_of_ok hwrite]
    rfl
  · intro o ho
    obtain ⟨p, hp, rfl⟩ := View.mem_offsets.mp ho
    exact View.mem_offsets.mpr ⟨pre ++ p, by rw [h.shape]; exact hpre.append (hrs ▸ hp), (hat p).symm⟩
  · refine View.filled_stacked dims pre ((hr.updates.trans hupdates).oneToOne h.oneToOne) h.strides
      h.shape hpre hregion hrs hat
      hshape htakes (fun p _ => (Value.element?_alike hagree hlikes p).symm) hdone ?_
    exact hstacked.congr (hgrows.cells hlive)

/-! ## One loop -/

/-- The elements to be stored at coordinates that start with `pre` come out of running the code. -/
def Fills (call : Caller) (x : VarName) (u : View) (init : Expr) (v : Value) (dims : List Int)
    (L₀ : Locals) (t₀ t₁ : Store) (outer : List VarName) (out : Block) : Prop :=
  ∀ fuel, (∀ d ∈ u.shape, d.toNat ≤ fuel) → ∀ {L t pre} {done : List Int → Prop},
    Reached x u init L₀ t₀ dims outer pre L t → (∀ q, done q → Within dims q) → u.Stacked v.shape (wanted v t₁) done t →
    ∃ L' t', block call fuel out L t = .ok (.next L') t' ∧ u.Updates t t' ∧
      u.Stacked v.shape (wanted v t₁) (fun q => done q ∨ (Within dims q ∧ pre <+: q)) t'

/-- The loop over one axis, with the statements that take its extent. -/
def overAxis (acc : Expr) (axis : Nat) (s n j after next : VarName) (inner : Block) : Block :=
  [.assign (.var s (Ty.extents acc.ty.rank)) (.attr acc .shape (Ty.extents acc.ty.rank)),
    .assign (.var n .i64) (.proj (.var s (Ty.extents acc.ty.rank)) axis .i64),
    upTo j n after (inner ++ [.assign (.var next .i64) (.prim .add [.var j .i64, .int64 1] .i64),
      .assign (.var after .i64) (.var next .i64)])]

/-- Coordinates that start with `pre` have a next one. -/
theorem next_coordinate {lead trail q : List Int} {d : Int} (hq : Within (lead ++ d :: trail) q) (hpre : pre <+: q)
    (hlen : pre.length = lead.length) : ∃ i : Nat, i < d.toNat ∧ pre ++ [(i : Int)] <+: q := by
  obtain ⟨rest, rfl⟩ := hpre
  obtain ⟨-, hrest⟩ := hq.of_append hlen
  cases rest with
  | nil => exact hrest.elim
  | cons i rest =>
    refine ⟨i.toNat, by have := hrest.1; omega, rest, ?_⟩
    rw [Int.toNat_of_nonneg hrest.1.1, List.append_assoc]
    rfl

/-- What holds after `k` iterations of the loop over an axis, which binds the names `W`: the elements at
coordinates that go on from `pre` with less than `k` are there. -/
structure Passed (u : View) (v : Value) (t₁ : Store) (dims pre : List Int) (done : List Int → Prop)
    (j : VarName) (W : List VarName) (L : Locals) (t : Store) (k : Nat) (M : Locals) (t' : Store) : Prop where
  kept : ∀ y, y ∉ W → M.get? y = L.get? y
  counter : M.get? j = some (.ofInt k)
  updates : u.Updates t t'
  stacked : u.Stacked v.shape (wanted v t₁) (fun q => done q ∨
    (Within dims q ∧ ∃ i : Nat, i < k ∧ pre ++ [(i : Int)] <+: q)) t'

section Axis

variable {s n j after next : VarName} {inner : Block} {done : List Int → Prop} {lead trail : List Int}
  {d : Int} {L₁ : Locals}

/-- One iteration. -/
theorem Passed.step (hinner : Fills call x u init v dims L₀ t₀ t₁ (outer ++ [j]) inner)
    (hdims : dims = lead ++ d :: trail) (hlead : lead.length = outer.length) {fuel : Nat}
    (hfuel : ∀ d ∈ u.shape, d.toNat ≤ fuel) (hkept : ∀ y, y = x ∨ y ∈ init.reads ∨ y ∈ outer →
    y ∉ j :: after :: next :: Stmt.blockBinds inner) (hj : j ∉ after :: next :: Stmt.blockBinds inner)
    (hr : Reached x u init L₀ t₀ dims outer pre L₁ t) (hdone : ∀ q, done q → Within dims q) {k : Nat} {M : Locals}
    {t' : Store} (hk : k < d.toNat) (h : Passed u v t₁ dims pre done j
    (j :: after :: next :: Stmt.blockBinds inner) L₁ t k M t') :
    ∃ M' t'', block call fuel (inner ++ [.assign (.var next .i64) (.prim .add [.var j .i64, .int64 1] .i64),
        .assign (.var after .i64) (.var next .i64)]) M t' = .ok (.next M') t'' ∧
      M'.get? after = some (.ofInt (k + 1 : Nat)) ∧
      Passed u v t₁ dims pre done j (j :: after :: next :: Stmt.blockBinds inner) L₁ t (k + 1)
        (M'.insert j (.ofInt (k + 1 : Nat))) t'' := by
  have hreached : Reached x u init L₀ t₀ dims (outer ++ [j]) (pre ++ [(k : Int)]) M t' := by
    have hM := hr.congr (h.kept x (hkept x (.inl rfl))) (fun y hy => h.kept y (hkept y (.inr (.inl hy))))
      (fun y hy => h.kept y (hkept y (.inr (.inr hy)))) (hr.updates.trans h.updates)
    refine { hM with counters := List.rel_append hM.counters (.cons h.counter .nil), within := ?_ }
    have hpre : Within lead pre := by
      have := hr.within
      rwa [hdims, ← hlead, List.take_left] at this
    rw [hdims, List.length_append, ← hlead, List.take_length_add_append]
    exact hpre.append ⟨⟨Int.natCast_nonneg k, by omega⟩, trivial⟩
  obtain ⟨L2, t2, hrun, hupdates, hstacked⟩ := hinner fuel hfuel hreached
    (fun q hq => hq.elim (hdone q) (·.1)) h.stacked
  have hout : ∀ y, y ∉ Stmt.blockBinds inner → L2.get? y = M.get? y := block_within hrun
  have hcount : L2.get? j = some (.ofInt k) := by
    rw [hout j fun hm => hj (List.mem_cons_of_mem _ (List.mem_cons_of_mem _ hm)), h.counter]
  have hadd : Eval.expr call L2 (.prim .add [.var j .i64, .int64 1] .i64) t2 = .ok (.ofInt (k + 1 : Nat)) t2 := by
    rw [prim_pure (var_pure hcount _) (int64_pure 1) (add_eval _ _),
      ← show Int64.ofInt 1 = 1 from rfl, ← Int64.ofInt_add]
    rfl
  refine ⟨(L2.insert next (.ofInt (k + 1 : Nat))).insert after (.ofInt (k + 1 : Nat)), t2, ?_,
    NameMap.get?_insert_self .., ?_, ?_, ?_, ?_⟩
  · rw [block_append_next hrun, block_assign hadd]
    exact assign_run (by rw [var_pure (NameMap.get?_insert_self ..)]; rfl) after .i64
  · intro y hy
    simp only [List.mem_cons, not_or] at hy
    rw [NameMap.get?_insert_of_ne _ _ hy.1, NameMap.get?_insert_of_ne _ _ hy.2.1,
      NameMap.get?_insert_of_ne _ _ hy.2.2.1, hout y hy.2.2.2]
    exact h.kept y (by simp [hy])
  · exact NameMap.get?_insert_self ..
  · exact h.updates.trans hupdates
  · refine hstacked.mono fun q hq => ?_
    rcases hq with hq | ⟨hq, i, hi, hpi⟩
    · exact .inl (.inl hq)
    · by_cases hik : i = k
      · exact .inr ⟨hq, hik ▸ hpi⟩
      · exact .inl (.inr ⟨hq, i, by omega, hpi⟩)

theorem overAxis_fills (h : Lift call x u init v dims L₀ t₀ t₁) (hlt : outer.length < dims.length)
    (hkept : ∀ y, y = x ∨ y ∈ init.reads ∨ y ∈ outer → y ∉ s :: n :: j :: after :: next :: Stmt.blockBinds inner)
    (hn : n ∉ j :: after :: next :: Stmt.blockBinds inner) (hj : j ∉ after :: next :: Stmt.blockBinds inner)
    (hinner : Fills call x u init v dims L₀ t₀ t₁ (outer ++ [j]) inner) :
    Fills call x u init v dims L₀ t₀ t₁ outer (overAxis (accumulator x u) outer.length s n j after next inner) := by
  intro fuel hfuel L t pre done hr hdone hstacked
  obtain ⟨lead, d, trail, hdims, hlead⟩ : ∃ lead d trail, dims = lead ++ d :: trail ∧ lead.length = outer.length := by
    refine ⟨dims.take outer.length, dims[outer.length], dims.drop (outer.length + 1), ?_, ?_⟩
    · rw [List.getElem_cons_drop, List.take_append_drop]
    · rw [List.length_take]
      omega
  have hd : d ∈ u.shape := by simp [h.shape, hdims]
  -- the extent of the axis
  let L₁ : Locals := (L.insert s (.tuple (u.shape.map ofInt))).insert n (.ofInt d)
  have hL1 : ∀ y, y = x ∨ y ∈ init.reads ∨ y ∈ outer → L₁.get? y = L.get? y := by
    intro y hy
    have hne := hkept y hy
    simp only [List.mem_cons, not_or] at hne
    rw [NameMap.get?_insert_of_ne _ _ hne.2.1, NameMap.get?_insert_of_ne _ _ hne.1]
  have hr1 : Reached x u init L₀ t₀ dims outer pre L₁ t :=
    hr.congr (hL1 x (.inl rfl)) (fun y hy => hL1 y (.inr (.inl hy))) (fun y hy => hL1 y (.inr (.inr hy))) hr.updates
  have hshape : Eval.expr call L (.attr (accumulator x u) .shape (Ty.extents (accumulator x u).ty.rank)) t =
      .ok (.tuple (u.shape.map ofInt)) t := by
    rw [accumulator, Eval.expr, var_pure hr.acc]
    rfl
  have hextent : Eval.expr call (L.insert s (.tuple (u.shape.map ofInt)))
    (.proj (.var s (Ty.extents (accumulator x u).ty.rank)) outer.length .i64) t =
      .ok (.ofInt d) t := by
    have hitem : (u.shape.map ofInt)[outer.length]? = some (.ofInt d) := by
      rw [List.getElem?_map, h.shape, hdims, ← hlead, List.append_assoc,
        List.getElem?_append_right (Nat.le_refl _), Nat.sub_self]
      rfl
    rw [Eval.expr, var_pure (NameMap.get?_insert_self ..), pure_bind]
    simp only [hitem]
    rfl
  obtain ⟨L', t', hrun, hpassed⟩ := upTo_run (L := L₁) (t := t) (h.fits d hd) (hfuel d hd)
    (I := Passed u v t₁ dims pre done j (j :: after :: next :: Stmt.blockBinds inner) L₁ t)
    (fun k M t' hI => ⟨(hI.kept n hn).trans (NameMap.get?_insert_self ..), hI.counter⟩)
    (fun k M t' hk hI => hI.step hinner hdims hlead hfuel (fun y hy hm => hkept y hy
      (List.mem_cons_of_mem _ (List.mem_cons_of_mem _ hm))) hj hr1 hdone hk)
    ⟨fun y hy => NameMap.get?_insert_of_ne _ _ (fun e => hy (e ▸ List.mem_cons_self)),
      NameMap.get?_insert_self .., .refl u t,
      hstacked.mono fun q hq => hq.elim id fun hq => absurd hq.2.choose_spec.1 (Nat.not_lt_zero _)⟩
  refine ⟨L', t', ?_, hpassed.updates, hpassed.stacked.mono fun q hq => ?_⟩
  · rw [overAxis, block_assign hshape, block_assign hextent, block_singleton, hrun]
  · rcases hq with hq | ⟨hq, hpq⟩
    · exact .inl hq
    · refine .inr ⟨hq, next_coordinate (hdims ▸ hq) hpq ?_⟩
      rw [← hr.counters.length_eq, hlead]

end Axis

/-! ## The loops that are emitted -/

theorem droppedAll?_counters (n m : Nat) : Ty.droppedAll?
    (List.replicate n .i64 ++ List.replicate m .slice) = some n := by
  induction n with
  | zero => exact Inlining.droppedAll?_slices m
  | succ n ih =>
    rw [List.replicate_succ, List.cons_append, Ty.droppedAll?, ih]
    show some (1 + n) = some (n + 1)
    rw [Nat.add_comm]

theorem indexTy_counters (elt : ScalarTy) (n m : Nat) :
    (Ty.array elt (n + m)).indexTy (.tuple (List.replicate n .i64 ++ List.replicate m .slice)) =
    some (.ofRank elt m) := by
  have hlen : ¬ n + m < (List.replicate n Ty.i64 ++ List.replicate m Ty.slice).length := by simp
  have hdropped : ¬ n + m < n := Nat.not_lt.mpr (Nat.le_add_right n m)
  show (do
    let dropped ← if n + m < (List.replicate n Ty.i64 ++ List.replicate m Ty.slice).length then none
      else Ty.droppedAll? (List.replicate n .i64 ++ List.replicate m .slice)
    if n + m < dropped then none else return Ty.ofRank elt (n + m - dropped) : Option Ty) = _
  rw [if_neg hlen, droppedAll?_counters]
  show (if n + m < n then none else some (Ty.ofRank elt (n + m - n))) = _
  rw [if_neg hdropped, Nat.add_sub_cancel_left]

/-- The store inside all the loops. -/
theorem Lift.setIndex_emits (h : Lift call x u init v dims L₀ t₀ t₁)
    (houter : outer.length = dims.length) (b : Builder) :
    ∃ b', Build.setIndex (accumulator x u)
      (.tupleOf (outer.map (.var · .i64) ++ List.replicate v.rank .wholeAxis)) init b = .ok () b' ∧
      Appended [.assign (.index (accumulator x u)
        (.tupleOf (outer.map (.var · .i64) ++ List.replicate v.rank .wholeAxis)) (.ofRank u.elt v.rank)) init]
        b b' := by
  have hrank : u.shape.length = outer.length + v.rank := by rw [h.shape, List.length_append, houter, rank]
  have hitems : (outer.map (Expr.var · .i64) ++ List.replicate v.rank Expr.wholeAxis).map Expr.ty =
      List.replicate outer.length Ty.i64 ++ List.replicate v.rank .slice := by
    rw [List.map_append, List.map_map, List.map_replicate]
    exact congrArg (· ++ _) List.map_const'
  have hty :
    (accumulator x u).ty.indexTy (Expr.tupleOf (outer.map (.var · .i64) ++ List.replicate v.rank .wholeAxis)).ty =
      some (.ofRank u.elt v.rank) := by
    show Ty.indexTy (.array u.elt u.shape.length)
      (.tuple ((outer.map (Expr.var · .i64) ++ List.replicate v.rank Expr.wholeAxis).map Expr.ty)) = _
    rw [hitems, hrank, indexTy_counters]
  have hstored : Build.stored (.ofRank u.elt v.rank) init = pure init := by
    cases hv : v.rank with
    | zero =>
      have hinit : init.ty = .scalar u.elt := by rw [h.ty, hv]; rfl
      rw [Inlining.stored_scalar 0 hinit]
      unfold Build.cast
      rw [hinit]
      exact if_pos rfl
    | succ r =>
      have hinit : init.ty = .array u.elt (r + 1) := by rw [h.ty, hv]; rfl
      have hother : ∀ t, init.ty ≠ .scalar t := by
        intro t ht
        rw [hinit] at ht
        cases ht
      rw [Inlining.stored_other _ hother, hinit]
      exact if_pos rfl
  refine ⟨_, ?_, .of_emit rfl b⟩
  unfold Build.setIndex
  rw [hty]
  show (Build.stored _ init >>= _) b = _
  rw [hstored]
  rfl

/-- The loops that remain fill what the counters around leave open. -/
theorem Lift.fillFrom_fills (h : Lift call x u init v dims L₀ t₀ t₁) (hcall : call.Local)
    (remaining : Nat) {b : Builder} (houter : outer.length + remaining = dims.length) (hx : b.Old x)
    (hreads : ∀ y ∈ init.reads, b.Old y) (hold : ∀ y ∈ outer, b.Old y) :
    ∃ out b', fillFrom (accumulator x u) init remaining (outer.map (.var · .i64)) b = .ok () b' ∧ Appended out b b' ∧
      Fills call x u init v dims L₀ t₀ t₁ outer out := by
  induction remaining generalizing outer b with
  | zero =>
    have hrank : (accumulator x u).ty.rank - (outer.map (Expr.var · .i64)).length = v.rank := by
      show u.shape.length - _ = _
      rw [h.shape, List.length_append, List.length_map, rank]
      omega
    obtain ⟨b', hset, happ⟩ := h.setIndex_emits houter b
    refine ⟨_, b', by rw [fillFrom, hrank, hset], happ, fun fuel _ L t pre done hr hdone hstacked => ?_⟩
    obtain ⟨t', hrun, hupdates, hstacked'⟩ := h.store_run hcall hr houter fuel (.ofRank u.elt v.rank) hdone hstacked
    refine ⟨L, t', hrun, hupdates, hstacked'.mono fun q hq => hq.imp_right fun hq => ?_⟩
    -- coordinates along all the axes are not the start of others
    refine (hq.2.eq_of_length ?_).symm
    rw [hq.1.length, ← hr.counters.length_eq, ← houter, Nat.add_zero]
  | succ remaining ih =>
    obtain ⟨s, n, b1, hshape, happ1⟩ := Build.shape_fresh (a := accumulator x u) rfl
      (show outer.length < u.shape.length by rw [h.shape, List.length_append]; omega) b
    obtain ⟨j, after, b2, hcounter, happ2, hj, hafter, hne⟩ := Build.loopCounter_fresh "j" (.int64 0) b1
    have hle : b.session.nextName ≤ b2.session.nextName := Nat.le_trans happ1.next happ2.next
    have houter2 : ∀ y ∈ outer ++ [j], b2.Old y := by
      intro y hy
      rcases List.mem_append.mp hy with hy | hy
      · exact (hold y hy).mono hle
      · exact List.mem_singleton.mp hy ▸ hj.2
    have hlen : (outer ++ [j]).length + remaining = dims.length := by
      rw [List.length_append, ← houter]
      exact Nat.add_right_comm ..
    have hx2 : Builder.Old { b2 with block := [] } x := hx.mono hle
    obtain ⟨inner, b3, hfill, happ3, hfills⟩ := ih hlen hx2 (fun y hy => (hreads y hy).mono hle) houter2
    obtain ⟨next, b4, hnext, happ4, hnew, -⟩ := Build.temp_fresh (.prim .add [.var j .i64, .int64 1] .i64) "j_next" b3
    have hinner : ∀ z ∈ next :: Stmt.blockBinds inner, ¬ b2.Old z := by
      intro z hz
      rcases List.mem_cons.mp hz with rfl | hz
      · exact fun hz => hnew (happ3.old hz)
      · exact (happ3.names z hz).1
    have hloop : ∀ z ∈ j :: after :: next :: Stmt.blockBinds inner, ¬ b1.Old z := by
      intro z hz
      rcases List.mem_cons.mp hz with rfl | hz
      · exact hj.1
      rcases List.mem_cons.mp hz with rfl | hz
      · exact hafter.1
      · exact fun hold => hinner z hz (happ2.old hold)
    have hall : ∀ z ∈ s :: n :: j :: after :: next :: Stmt.blockBinds inner, ¬ b.Old z := by
      intro z hz
      rcases List.mem_cons.mp hz with rfl | hz
      · exact (happ1.names z List.mem_cons_self).1
      rcases List.mem_cons.mp hz with rfl | hz
      · exact (happ1.names z (List.mem_cons_of_mem _ List.mem_cons_self)).1
      · exact fun hold => hloop z hz (happ1.old hold)
    let code := inner ++ [.assign (.var next .i64) (.prim .add [.var j .i64, .int64 1] .i64),
      .assign (.var after .i64) (.var next .i64)]
    have hblock : b4.block ++ [.assign (.var after .i64) (.var next .i64)] = code := by
      rw [happ4.block, happ3.block, List.nil_append, List.append_assoc]
      rfl
    have hbody : (do
        fillFrom (accumulator x u) init remaining (outer.map (.var · .i64) ++ [.var j .i64])
        let next ← Build.add (.var j .i64) (.int64 1) "j_next"
        Build.assign (.var after .i64) next : Build Unit) { b2 with block := [] } =
          .ok () { b4 with block := code } := by
      have hadd : Build.add (.var j .i64) (.int64 1) "j_next" =
          Build.temp (.prim .add [.var j .i64, .int64 1] .i64) "j_next" := rfl
      rw [List.map_append, List.map_singleton] at hfill
      rw [state_bind_of_ok hfill, hadd, state_bind_of_ok hnext, ← hblock]
      rfl
    refine ⟨overAxis (accumulator x u) outer.length s n j after next inner,
      { b4 with block := b2.block ++ [upTo j n after code] }, ?_, ?_, ?_⟩
    · rw [fillFrom, List.length_map, state_bind_of_ok hshape, state_bind_of_ok hcounter]
      exact state_bind_of_ok (Build.nested_of_ok hbody)
    · refine happ1.append ((happ3.append happ4).enclose
        (by rw [happ2.block, List.append_nil]) happ2.next fun y hy => ?_)
      have hy :
        y ∈ j :: Stmt.blockBinds (inner ++ [.assign (.var next .i64) (.prim .add [.var j .i64, .int64 1] .i64)] ++
          [.assign (.var after .i64) (.var next .i64)]) := by
        rw [List.append_assoc]
        exact hy
      rcases List.mem_cons.mp hy with rfl | hy
      · exact .inr hj
      rw [Stmt.blockBinds_append] at hy
      rcases List.mem_append.mp hy with hy | hy
      · exact .inl hy
      · exact .inr (List.mem_singleton.mp hy ▸ hafter)
    · refine overAxis_fills h (by omega) (fun y hy hm => hall y hm ?_) (fun hm => ?_) (fun hm => ?_) hfills
      · rcases hy with rfl | hy | hy
        · exact hx
        · exact hreads y hy
        · exact hold y hy
      · exact hloop n hm (happ1.names n (List.mem_cons_of_mem _ List.mem_cons_self)).2
      · rcases List.mem_cons.mp hm with hm | hm
        · exact hne hm
        · exact hinner j hm hj.2

/-! ## Broadcasting -/

/-- What the initial value refers to is there. -/
theorem Lift.element?_alloc (h : Lift call x u init v dims L₀ t₀ t₁) (hcall : call.Local)
    (cells : Array Scalar) (p : List Int) :
    v.element? (t₁.alloc cells).2 p = v.element? t₁ p := by
  obtain ⟨v', t', w, -, -, -, hagree, hlikes⟩ := expr_again hcall h.apart h.value h.quiet (.refl t₀)
  cases v with
  | array a =>
    obtain ⟨a', -, ha⟩ := hlikes
    have hrel : w.rel a.buffer a'.buffer := (ha.layout.resolve_right fun h => h.1).2.2
    have hlt : a.buffer < t₁.size := hagree.left ▸ (w.bounded hrel).1
    simp only [Value.element?, View.element, Store.cells_alloc_old t₁ cells hlt]
  | _ => cases p <;> rfl

/-- Broadcasting the initial value gives a new array with its elements, whatever the first coordinates. -/
theorem Lift.broadcast_run (h : Lift call x u init v dims L₀ t₀ t₁) (hcall : call.Local) :
    ∃ r t', broadcastLike v (.array u) t₁ = .ok (.array r) t' ∧ r.elt = u.elt ∧ r.shape = u.shape ∧
      ∀ lead trail, Within dims lead → Within v.shape trail →
        some (r.element t' (lead ++ trail)) = (v.element? t₁ trail).map (·.convert u.elt) := by
  let cells := (List.replicate (extent u.shape).toNat (Scalar.zero u.elt)).toArray
  let r := View.rowMajorAt u.elt u.shape t₁.size
  have hlen : r.strides.length = r.shape.length := length_rowMajor u.shape
  have hone : r.OneToOne (t₁.alloc cells).2 := View.rowMajorAt_oneToOne (by
    rw [Store.cells_alloc_new, List.size_toArray, List.length_replicate])
  have hnone : r.shape = [] ++ u.shape := rfl
  obtain ⟨region, hregion, hrs, hat⟩ := View.resolve_prefix hnone hlen (show Within [] [] from trivial)
    (fun _ hd => absurd hd List.not_mem_nil) h.extents (Nat.zero_le _)
  obtain ⟨helt, hbuf, hrlen⟩ := View.resolve_proper hregion
  have htakes : region.Takes v := by
    cases v with
    | array a =>
      show a.shape <:+ region.shape
      rw [hrs]
      exact h.takes
    | scalar _ => trivial
    | _ => exact h.takes.elim
  have hwrite : r.write (.tuple []) v (t₁.alloc cells).2 = .ok () (region.filled (t₁.alloc cells).2 v) :=
    View.write_of_resolve hregion htakes
  refine ⟨r, _, state_bind_of_ok hwrite, rfl, rfl, fun lead trail hlead htrail => ?_⟩
  have hin : Within region.shape (lead ++ trail) := by
    rw [hrs, h.shape]
    exact hlead.append htrail
  obtain ⟨y, hy, hnew⟩ := View.element_filled (hone.resolve hregion) hrlen htakes hin htrail.length
  rw [h.element?_alloc hcall] at hy
  have hsame : r.element (region.filled (t₁.alloc cells).2 v) (lead ++ trail) =
      region.element (region.filled (t₁.alloc cells).2 v) (lead ++ trail) := by
    simp only [View.element, helt, hbuf, hat, List.nil_append]
  rw [hy, hsame, hnew, helt]
  rfl

/-- What comes of filling the accumulator: the elements of the initial value stand at all of its positions, whatever
their first coordinates, just as in the array that broadcasting makes; no other cell and no name in use has
changed. -/
structure Lifted (u : View) (v : Value) (dims : List Int) (used : VarName → Prop) (L : Locals) (t t₁ : Store)
    (L' : Locals) (t' : Store) :
    Prop where
  elements : ∀ lead, Within dims lead → u.HoldsAt t' lead v t₁
  broadcast : ∃ r t'', broadcastLike v (.array u) t₁ = .ok (.array r) t'' ∧ r.elt = u.elt ∧ r.shape = u.shape ∧
    r.elements t'' = u.elements t'
  updates : u.Updates t t'
  names : ∀ y, used y → L'.get? y = L.get? y

/-- Two arrays of the accumulator's extents with the same elements at all coordinates. -/
theorem Lift.elements_eq (h : Lift call x u init v dims L₀ t₀ t₁) {r : View} {t' t'' : Store} (hr : r.shape = u.shape)
    (hsame : ∀ lead trail, Within dims lead → Within v.shape trail →
      r.element t'' (lead ++ trail) = u.element t' (lead ++ trail)) :
    r.elements t'' = u.elements t' := by
  rw [View.elements_eq_map, View.elements_eq_map, hr]
  refine List.map_congr_left fun p hp => ?_
  have hp : Within (dims ++ v.shape) p := h.shape ▸ mem_places.mp hp
  have hlen : (p.take dims.length).length = dims.length := by
    rw [List.length_take, hp.length, List.length_append]
    exact Nat.min_eq_left (Nat.le_add_right ..)
  rw [← List.take_append_drop dims.length p] at hp ⊢
  obtain ⟨hlead, htrail⟩ := hp.of_append hlen
  exact hsame _ _ hlead htrail

/-- Filling an accumulator with an initial value of a higher rank is refused. Otherwise loops are emitted that end and
leave in the accumulator what broadcasting the value gives. -/
theorem fillWith_broadcasts (s : Session) (n : Nat) (x : VarName) (u : View) (init : Expr) (b : Builder) :
    (u.shape.length < init.ty.rank →
      fillWith (accumulator x u) init b = .error (.error (.initRank init.ty.rank u.shape.length)) b) ∧
    ∀ {v dims L t t₁}, Lift (s.call n) x u init v dims L t t₁ → b.Old x → (∀ y ∈ init.reads, b.Old y) →
      ∃ out b', fillWith (accumulator x u) init b = .ok () b' ∧ b'.block = b.block ++ out ∧
        ∀ fuel, (∀ d ∈ u.shape, d.toNat ≤ fuel) → ∃ L' t', block (s.call n) fuel out L t = .ok (.next L') t' ∧
          Lifted u v dims b.Old L t t₁ L' t' := by
  refine ⟨fun hrank => ?_, fun {v dims L t t₁} h hx hreads => ?_⟩
  · have hhigher : (accumulator x u).ty.rank < init.ty.rank := hrank
    rw [fillWith, if_pos hhigher]
    rfl
  have hcall : (s.call n).Local := s.call_local n
  have hinit : init.ty.rank = v.rank := by
    rw [h.ty]
    cases v.rank <;> rfl
  have hrank : u.shape.length - v.rank = dims.length := by
    rw [h.shape, List.length_append]
    exact Nat.add_sub_cancel ..
  have hle : ¬ u.shape.length < init.ty.rank := by
    rw [hinit, h.shape, List.length_append, rank]
    omega
  obtain ⟨out, b', hfill, happ, hfills⟩ := h.fillFrom_fills hcall dims.length
    (List.length_nil.symm ▸ Nat.zero_add _) hx hreads
    (fun y hy => absurd hy List.not_mem_nil)
  refine ⟨out, b', ?_, happ.block, fun fuel hfuel => ?_⟩
  · show (if u.shape.length < init.ty.rank then _
      else fillFrom _ _ (u.shape.length - init.ty.rank) [] : Build Unit) b = _
    rw [if_neg hle, hinit, hrank]
    exact hfill
  have hstart : Reached x u init L t dims [] [] L t := ⟨h.acc, fun _ _ => rfl, .nil, trivial, .refl u t⟩
  have hnone : u.Stacked v.shape (wanted v t₁) (fun _ => False) t := fun _ _ hq => hq.elim
  obtain ⟨L', t', hrun, hupdates, hstacked⟩ := hfills fuel hfuel hstart (fun _ => False.elim) hnone
  have hstacked := hstacked.mono fun q (hq : Within dims q) => .inr ⟨hq, List.nil_prefix⟩
  obtain ⟨r, t'', hbroadcast, helt, hshape, helements⟩ := h.broadcast_run hcall
  refine ⟨L', t', hrun, fun lead hlead => hstacked.holds hlead rfl fun _ => rfl,
    ⟨r, t'', hbroadcast, helt, hshape, ?_⟩, hupdates, fun y hy => block_within hrun y (happ.not_mem hy)⟩
  exact h.elements_eq hshape fun lead trail hlead htrail => Option.some.inj
    ((helements lead trail hlead htrail).trans (hstacked lead trail hlead htrail).symm)

/-- The two rows of `x`, and the row `y` to fill them with. -/
def rowsLocals : Locals := .ofList [("x", .array ⟨.i64, 0, [2, 3], [3, 1], 0⟩), ("y", .array ⟨.i64, 1, [3], [1], 0⟩)]

def rowsStore : Store := ⟨#[#[.int 0, .int 0, .int 0, .int 0, .int 0, .int 0], #[.int 7, .int 8, .int 9]]⟩

/-- Both rows become the row `y`. -/
theorem fillWith_broadcasts_rows : ∃ out b', fillWith (.var "x" (.array .i64 2))
    (.var "y" (.array .i64 1)) ⟨{}, .empty, []⟩ = .ok () b' ∧
    b'.block = [] ++ out ∧ ∃ L' t', block (Session.call {} 0) 3 out rowsLocals rowsStore = .ok (.next L') t' ∧
      View.elements ⟨.i64, 0, [2, 3], [3, 1], 0⟩ t' = [.int 7, .int 8, .int 9, .int 7, .int 8, .int 9] := by
  have hlift : Lift (Session.call {} 0) "x" ⟨.i64, 0, [2, 3], [3, 1], 0⟩ (.var "y" (.array .i64 1))
    (.array ⟨.i64, 1, [3], [1], 0⟩) [2]
      rowsLocals rowsStore rowsStore := by
    refine ⟨rfl, rfl, by decide, ?_, by decide, rfl, ?_, rfl, .refl _, ⟨[2], rfl⟩, by decide, rfl⟩
    · show (View.rowMajorAt .i64 [2, 3] 0).OneToOne rowsStore
      exact View.rowMajorAt_oneToOne rfl
    · intro y hy v hv
      cases List.mem_singleton.mp hy
      cases hv
      refine ⟨?_, ?_⟩
      · show ∀ b ∈ [1], b < 2
        decide
      · show 0 ∉ [1]
        decide
  obtain ⟨out, b', hfill, hblock, hrun⟩ :=
    (fillWith_broadcasts {} 0 "x" ⟨.i64, 0, [2, 3], [3, 1], 0⟩ (.var "y" (.array .i64 1)) ⟨{}, .empty, []⟩).2
    hlift (Builder.old_of_no_dot (by decide) _) (fun y hy => List.mem_singleton.mp hy ▸
      Builder.old_of_no_dot (by decide) _)
  obtain ⟨L', t', hL', hlifted⟩ := hrun 3 (by decide)
  obtain ⟨r, t'', hr, -, -, helements⟩ := hlifted.broadcast
  refine ⟨out, b', hfill, hblock, L', t', hL', ?_⟩
  rw [← helements]
  with_unfolding_all cases hr
  with_unfolding_all rfl

/-- The two places of `x`, next to the counter `a`. -/
def placesOfX : View := ⟨.i64, 1, [2], [1], 0⟩

def placesLocals : Locals := .ofList [("a", .array ⟨.i64, 0, [1], [1], 0⟩), ("x", .array placesOfX)]

def placesStore : Store := ⟨#[#[.int 3], #[.int 0, .int 0]]⟩

def downOfA : Expr := .call "countDown" [.var "a" (.array .i64 1)] .i64

/-- What stands in the two places after they are filled with what `countDown` returns. -/
def countedPlaces? : Option (List Int64) :=
  match fillWith (accumulator "x" placesOfX) downOfA ⟨{ functions := [Shapes.countDown] }, .empty, []⟩ with
  | .ok () b' =>
    match block (Session.call { functions := [Shapes.countDown] } 1) 2 b'.block placesLocals placesStore with
    | .ok _ t => ((placesOfX.elements t).mapM Scalar.asInt).toOption
    | .error _ _ => none
  | .error _ _ => none

/-- What broadcasting gives there. -/
def countedBroadcast? : Option (List Int64) :=
  match Eval.expr (Session.call { functions := [Shapes.countDown] } 1) placesLocals downOfA placesStore with
  | .ok v t =>
    match broadcastLike v (.array placesOfX) t with
    | .ok (.array r) t' => ((r.elements t').mapM Scalar.asInt).toOption
    | _ => none
  | .error _ _ => none

/-- An initial value that changes a buffer is computed anew for every place. -/
theorem value_computed_per_place : countedPlaces? = some [2, 1] ∧ countedBroadcast? = some [2, 2] := by decide +kernel

end Tiling

end ArrayIR
