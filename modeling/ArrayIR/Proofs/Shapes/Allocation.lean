/-
  ArrayIR.Proofs.Shapes.Allocation — the code that allocates an array.

  The builder computes the number of elements and the strides in bytes out of the
  extents, folding what it knows; the interpreter computes strides in elements, and
  those of a view it gets by dividing. For extents that do not overflow the two agree
  (`Allocates.run`), so the code gives what the interpreter allocates
  (`allocShaped_zeroed`).

  An extent that is not a constant is copied to wherever it is needed. That is the same
  number as long as computing it changes no buffer; otherwise the array may be given
  another extent than its buffer has room for (`extent_computed_again`).
-/

import ArrayIR.Proofs.Adverbs.Slices
import ArrayIR.Proofs.Again
import ArrayIR.Proofs.Appending
import ArrayIR.Proofs.Building.Copying
import ArrayIR.Proofs.Places
import ArrayIR.Proofs.Shapes.Known
import ArrayIR.Proofs.Trips

namespace ArrayIR

open Int64 (ofInt ofInt_mul)

namespace Shapes

open Eval

variable {c : Site} {L : Locals} {e : Expr} {s : Session}

/-! ## Extents -/

variable {t : Store} {es : List Expr} {ds : List Int}

/-- An expression that was evaluated once without a change to a buffer stands for its value. -/
theorem Stands.of_once (hcall : c.call.Local) (hreads : ∀ x ∈ e.reads, ∃ v, L.get? x = some v ∧ v.Live c.store)
    {x : Scalar} (h : expr c.call L e c.store = .ok (.scalar x) t)
    (hquiet : c.store.Grows t) : Stands c L e (.scalar x) where
  bound y hy := by
    obtain ⟨v, hv, -⟩ := hreads y hy
    exact ⟨v, hv⟩
  value u hu := by
    have hapart : e.ReadsApart c.store.size c.store L := by
      intro y hy v hv
      obtain ⟨w, hw, hlive⟩ := hreads y hy
      cases hv.symm.trans hw
      exact ⟨hlive, fun hm => Nat.lt_irrefl _ (hlive _ hm)⟩
    obtain ⟨v, u', -, hv, hgrows, -, -, rfl⟩ := expr_again hcall hapart h hquiet (.of_grows hu)
    exact ⟨u', hv, hgrows⟩

/-- The expression is an `i64` integer that was computed without a change to a buffer. -/
structure Extent (c : Site) (L : Locals) (e : Expr) (d : Int64) : Prop where
  ty : e.ty = .i64
  bound : ∀ x ∈ e.reads, ∃ v, L.get? x = some v
  value : ∃ t, expr c.call L e c.store = .ok (.int d) t ∧ c.store.Grows t

theorem Extent.knows {d : Int64} (hcall : c.call.Local) (hlive : ∀ x v, L.get? x = some v → v.Live c.store)
    (h : Extent c L e d) : Knows c L e (.int d) where
  stands := by
    obtain ⟨t, hv, hquiet⟩ := h.value
    refine .of_once hcall (fun x hx => ?_) hv hquiet
    obtain ⟨v, hv⟩ := h.bound x hx
    exact ⟨v, hv, hlive x v hv⟩
  ty := h.ty
  literal i t he := by
    have ht := h.ty
    rw [he] at ht
    obtain rfl : t = .i64 := ht
    rfl

/-! ## Code that is always there -/

/-- The computation succeeds, what it emits runs at the site, and what it gives is as `P` says. -/
def Provides {α : Type} (c : Site) (s : Session) (L : Locals) (P : Locals → α → Prop) (x : Build α) : Prop :=
  ∀ ⦃b : Builder⦄, Ready s L b → ∃ a b' out L', x b = .ok a b' ∧ Adds c out b L b' L' ∧ P L' a

namespace Provides

variable {α β : Type} {P : Locals → α → Prop} {Q : Locals → β → Prop}

theorem of_supplies {x : Build α} (h : Supplies c s L P x) (htotal : ∀ b, ∃ a b', x b = .ok a b') :
    Provides c s L P x := by
  intro b hb
  obtain ⟨a, b', hx⟩ := htotal b
  obtain ⟨out, L', hadds, ha⟩ := h hb hx
  exact ⟨a, b', out, L', hx, hadds, ha⟩

theorem pure {a : α} (h : P L a) : Provides c s L P (pure a) := .of_supplies (.pure h) fun b => ⟨a, b, rfl⟩

theorem bind {x : Build α} {f : α → Build β} (h : Provides c s L P x)
    (next : ∀ L' a, Locals.Part L L' → P L' a → Provides c s L' Q (f a)) : Provides c s L Q (x >>= f) := by
  intro b hb
  obtain ⟨a, b1, out, L1, hx, hadds, ha⟩ := h hb
  obtain ⟨a', b2, out', L2, hf, hadds', hq⟩ := next L1 a hadds.part ha (hadds.ready hb)
  exact ⟨a', b2, out ++ out', L2, (state_bind_of_ok hx).trans hf, hadds.append hadds', hq⟩

end Provides

theorem mul_provides {e f : Expr} {i j : Int64} (he : Knows c L e (.int i))
    (hf : Knows c L f (.int j)) (name : String) :
    Provides c s L (fun L' y => Knows c L' y (.int (i * j))) (Build.mul e f name) := by
  refine .of_supplies (prim_supplies (.cons he (.cons hf .nil)) rfl name) fun b => ?_
  obtain ⟨y, b', -, -, h, -, -⟩ := Build.prim_prepares (p := .mul) rfl ⟨he.ty, rfl⟩ ⟨hf.ty, rfl⟩ name b
  exact ⟨y, b', h⟩

/-- Expressions that are known to be the integers. -/
abbrev KnowsInts (c : Site) (L : Locals) : List Expr → List Int → Prop :=
  List.Forall₂ fun e d => Knows c L e (.int (ofInt d))

theorem KnowsInts.mono {L' : Locals} (h : KnowsInts c L es ds) (hL : Locals.Part L L') :
    KnowsInts c L' es ds := h.imp fun _ _ hk => hk.mono hL

theorem products_provide (h : KnowsInts c L es ds) {acc : Expr} {a : Int} (hacc : Knows c L acc (.int (ofInt a)))
    (name : String) :
    Provides c s L (fun L' y => Knows c L' y (.int (ofInt (ds.foldl (· * ·) a))))
      (es.foldlM (fun acc e => Build.mul acc e name) acc) := by
  induction es generalizing ds L acc a with
  | nil =>
    cases h
    exact .pure hacc
  | cons e es ih =>
    cases h with
    | @cons _ d _ ds he hes =>
      rw [List.foldlM_cons, List.foldl_cons]
      refine (mul_provides hacc he name).bind fun L1 y hL1 hy => ih (KnowsInts.mono hes hL1) ?_
      rwa [ofInt_mul]

/-- The product is that of the integers, as far as 64 bits go. -/
theorem prod_provides (h : KnowsInts c L es ds) (name : String) :
    Provides c s L (fun L' y => Knows c L' y (.int (ofInt (extent ds)))) (Build.prod es name) := by
  cases h with
  | nil => exact .pure (.int64 1)
  | @cons e d es ds he hes =>
    have hone : extent (d :: ds) = ds.foldl (· * ·) d := by rw [extent, List.foldl_cons, Int.one_mul]
    rw [hone]
    exact products_provide hes he name

/-- The strides are those of the row-major array, in bytes. -/
theorem rowMajorStrides_provides (elt : ScalarTy) (h : KnowsInts c L es ds) :
    Provides c s L (fun L' ss => KnowsInts c L' ss ((rowMajor ds).map (· * (elt.bytes : Int))))
      (Build.rowMajorStrides elt es) := by
  induction h with
  | nil => exact .pure .nil
  | @cons e d es ds he hes ih =>
    cases hes with
    | nil =>
      have hbytes : Int64.ofNat elt.bytes = ofInt (1 * elt.bytes) := by rw [Int.one_mul, Int64.ofInt_eq_ofNat]
      exact .pure (.cons (hbytes ▸ .int64 _) .nil)
    | @cons e' d' es ds he' hes =>
      refine ih.bind fun L1 inner hL1 hinner => ?_
      rw [rowMajor_cons d' ds, List.map_cons] at hinner
      cases hinner with
      | @cons s0 _ ss _ hs0 hss =>
        refine (mul_provides hs0 (he'.mono hL1) "stride").bind fun L2 y hL2 hy => .pure ?_
        rw [rowMajor_cons d (d' :: ds), rowMajor_cons d' ds, List.map_cons, List.map_cons]
        refine .cons ?_ (.cons (hs0.mono hL2) (KnowsInts.mono hss hL2))
        rwa [extent_cons, Int.mul_comm d', Int.mul_right_comm, ofInt_mul]

/-! ## What the code binds -/

/-- The statement binds a name to a scalar that it computes. -/
def Computes (st : Stmt) : Prop :=
  ∃ y t, (∃ p es u, st = .assign (.var y t) (.prim p es u)) ∨ ∃ x u, st = .assign (.var y t) (.cast x u)

/-- Code of computations only. -/
abbrev Arithmetic {α : Type} (x : Build α) : Prop := Appends (fun _ out => ∀ st ∈ out, Computes st) x

namespace Arithmetic

variable {α β : Type}

theorem pure (a : α) : Arithmetic (pure a : Build α) := Appends.pure fun _ h => absurd h List.not_mem_nil

theorem bind {x : Build α} {f : α → Build β} (h : Arithmetic x) (next : ∀ a, Arithmetic (f a)) : Arithmetic (x >>= f) :=
  Appends.bind h fun a _ hout => (next a).mono fun _ _ hmore st hst =>
    (List.mem_append.mp hst).elim (hout st) (hmore st)

theorem temp {v : Expr} (h : ∀ y t, Computes (.assign (.var y t) v)) (name : String) :
    Arithmetic (Build.temp v name) := by
  intro b e b' he
  obtain ⟨y, rfl, hemits, -⟩ := Build.temp_ok he
  exact ⟨_, hemits.block, fun st hst => List.mem_singleton.mp hst ▸ h y v.ty⟩

theorem cast (e : Expr) (t : ScalarTy) : Arithmetic (Build.cast e t) := by
  unfold Build.cast
  split
  · exact .fail _
  · split
    · exact pure _
    · split
      · exact pure _
      · exact pure _
      · exact temp (fun y u => ⟨y, u, .inr ⟨_, _, rfl⟩⟩) _

theorem castAll (ps : List (Expr × ScalarTy)) : Arithmetic (Build.castAll ps) := by
  induction ps with
  | nil => exact pure _
  | cons p ps ih => exact (cast p.1 p.2).bind fun _ => ih.bind fun _ => pure _

theorem prim (p : Prim) (args : List Expr) (name : String) : Arithmetic (Build.prim p args name) := by
  unfold Build.prim
  refine bind ?_ fun tys => (castAll _).bind fun args => ?_
  · intro b tys b' h
    obtain ⟨-, rfl⟩ := state_lift_ok h
    exact ⟨[], (List.append_nil _).symm, fun _ h => absurd h List.not_mem_nil⟩
  · split
    · intro b e b' h
      obtain ⟨-, -, rfl⟩ := Build.literal_ok h
      exact ⟨[], (List.append_nil _).symm, fun _ h => absurd h List.not_mem_nil⟩
    · exact temp (fun y u => ⟨y, u, .inl ⟨_, _, _, rfl⟩⟩) _

theorem rowMajorStrides (elt : ScalarTy) (dims : List Expr) : Arithmetic (Build.rowMajorStrides elt dims) := by
  induction dims with
  | nil => exact pure _
  | cons d ds ih =>
    cases ds with
    | nil => exact pure _
    | cons e ds => exact ih.bind fun _ => (prim _ _ _).bind fun _ => pure _

theorem prod (es : List Expr) (name : String) : Arithmetic (Build.prod es name) := by
  have fold : ∀ (es : List Expr) (acc : Expr), Arithmetic (es.foldlM (fun acc e => Build.mul acc e name) acc) := by
    intro es
    induction es with
    | nil => exact pure
    | cons e es ih =>
      intro acc
      rw [List.foldlM_cons]
      exact (prim _ _ _).bind ih
  cases es with
  | nil => exact pure _
  | cons e es => exact fold es e

end Arithmetic

/-- A computation gives a scalar. -/
theorem Computes.run {st : Stmt} (h : Computes st) {call : Caller} {fuel : Nat} {M : Locals} {fl : Flow} {t' : Store}
    (hrun : stmt call fuel st M t = .ok fl t') : ∃ y x, fl = .next (M.insert y (.scalar x)) := by
  obtain ⟨y, u, ⟨p, es, v, rfl⟩ | ⟨e, v, rfl⟩⟩ := h
  · rw [stmt, expr] at hrun
    obtain ⟨z, t1, hz, hrun⟩ := state_bind_ok hrun
    obtain ⟨vs, t2, -, hz⟩ := state_bind_ok hz
    obtain ⟨xs, t3, -, hz⟩ := state_bind_ok hz
    obtain ⟨w, t4, -, hz⟩ := state_bind_ok hz
    obtain ⟨x, t5, -, hz⟩ := state_bind_ok hz
    obtain ⟨rfl, -⟩ := state_pure_ok hz
    obtain ⟨rfl, -⟩ := state_pure_ok hrun
    exact ⟨y, x, rfl⟩
  · rw [stmt, expr] at hrun
    obtain ⟨z, t1, hz, hrun⟩ := state_bind_ok hrun
    obtain ⟨vs, t2, -, hz⟩ := state_bind_ok hz
    obtain ⟨xs, t3, -, hz⟩ := state_bind_ok hz
    obtain ⟨w, t4, -, hz⟩ := state_bind_ok hz
    obtain ⟨rfl, -⟩ := state_pure_ok hz
    obtain ⟨rfl, -⟩ := state_pure_ok hrun
    exact ⟨y, _, rfl⟩

/-- Computations bind names to scalars only. -/
theorem scalars_bound {out : Block} (h : ∀ st ∈ out, Computes st) {call : Caller} {fuel : Nat} {M M' : Locals}
    {t' : Store} (hrun : block call fuel out M t = .ok (.next M') t') {x : VarName} {v : Value}
    (hv : M'.get? x = some v) : M.get? x = some v ∨ ∃ z, v = .scalar z := by
  induction out generalizing M t with
  | nil =>
    rw [block_nil] at hrun
    obtain ⟨hM, -⟩ := state_pure_ok hrun
    cases hM
    exact .inl hv
  | cons st out ih =>
    obtain ⟨hst, hout⟩ := List.forall_mem_cons.mp h
    rw [block_cons] at hrun
    obtain ⟨fl, t1, hfl, hrest⟩ := state_bind_ok hrun
    obtain ⟨y, z, rfl⟩ := hst.run hfl
    rcases ih hout hrest with hold | hscalar
    · rw [NameMap.get?_insert] at hold
      split at hold
      · cases hold
        exact .inr ⟨z, rfl⟩
      · exact .inl hold
    · exact .inr hscalar

/-! ## Running it -/

/-- The integers as a tuple. -/
theorem KnowsInts.tuple (h : KnowsInts c L es ds) (ht : c.store.Grows t) :
    ∃ t', expr c.call L (.tupleOf es) t = .ok (.tuple (ds.map Value.ofInt)) t' ∧ t.Grows t' := by
  have hall : List.Forall₂ (Stands c L) es (ds.map Value.ofInt) := by
    rw [List.forall₂_map_right_iff]
    exact h.imp fun _ _ hk => hk.stands
  obtain ⟨t', hrun, hgrows⟩ := Stands.list hall ht
  refine ⟨t', ?_, hgrows⟩
  rw [Expr.tupleOf, expr, state_bind_of_ok hrun]
  rfl

/-- A buffer of zeros is allocated after the count has been computed. -/
theorem alloc_run (elt : ScalarTy) {count : Expr} {n : Int} (h : Knows c L count (.int (ofInt n))) (hn : 0 ≤ n)
    (hfits : Fits n) (ty : Ty) (ht : c.store.Grows t) :
    ∃ t', t.Grows t' ∧ expr c.call L (.alloc elt count ty) t =
      .ok (.buffer elt t'.size) (t'.alloc (List.replicate n.toNat (Scalar.zero elt)).toArray).2 := by
  obtain ⟨t', hv, hgrows⟩ := h.stands.value t ht
  refine ⟨t', hgrows, ?_⟩
  have hpos : ¬ ofInt n < 0 := by
    rw [Int64.lt_iff_toInt_lt, hfits.toInt_ofInt]
    exact Int.not_lt.mpr hn
  rw [expr, state_bind_of_ok hv]
  show EStateM.bind _ _ t' = _
  rw [show (liftM (Value.scalar (.int (ofInt n))).asInt : Exec Int64) = pure (ofInt n) from rfl]
  show (if ofInt n < 0 then _ else _ : Exec Value) t' = _
  rw [if_neg hpos, hfits.toInt_ofInt]
  rfl

/-- A view of the buffer, its strides divided by the size of an element. -/
theorem view_run {elt : ScalarTy} {dims strides : List Expr} {ss : List Int} {data : VarName} {r : BufferId}
    (hdata : L.get? data = some (.buffer elt r)) (hdims : KnowsInts c L dims ds) (hstrides : KnowsInts c L strides ss)
    (hd : ∀ d ∈ ds, Fits d) (hs : ∀ d ∈ ss, Fits d) (u : Ty) (count : Expr) (ty : Ty) (ht : c.store.Grows t) :
    ∃ t', t.Grows t' ∧ expr c.call L (.view (.var data u) (.tupleOf dims) (.tupleOf strides) (.int64 0) count ty) t =
      .ok (.array { elt := elt, buffer := r, shape := ds, strides := ss.map (·.tdiv elt.bytes), offset := 0 }) t' := by
  obtain ⟨t1, hdims, hgrows1⟩ := hdims.tuple ht
  obtain ⟨t2, hstrides, hgrows2⟩ := hstrides.tuple (ht.trans hgrows1)
  refine ⟨t2, hgrows1.trans hgrows2, ?_⟩
  have hshape : (ds.map ofInt).map (·.toInt) = ds := by
    rw [List.map_map]
    exact (List.map_congr_left fun d h => (hd d h).toInt_ofInt).trans (List.map_id _)
  have hstride : (ss.map ofInt).map (fun s => s.toInt.tdiv elt.bytes) = ss.map (·.tdiv elt.bytes) := by
    rw [List.map_map]
    exact List.map_congr_left fun d h => by rw [Function.comp_apply, (hs d h).toInt_ofInt]
  have hvar : expr c.call L (.var data u) t = .ok (.buffer elt r) t := by rw [expr, hdata]; rfl
  have hints : ∀ is : List Int, (Value.tuple (is.map Value.ofInt)).asInts = .ok (is.map ofInt) := Adverb.asIntList_ofInt
  rw [expr, state_bind_of_ok hvar]
  show (expr c.call L (.tupleOf dims) >>= _) t = _
  rw [state_bind_of_ok hdims, hints]
  show (expr c.call L (.tupleOf strides) >>= _) t1 = _
  rw [state_bind_of_ok hstrides, hints]
  show EStateM.Result.ok _ t2 = _
  rw [hshape, hstride]
  rfl

end Shapes

/-! ## Sizes -/

theorem ScalarTy.bytes_pos (t : ScalarTy) : 0 < t.bytes := by cases t <;> decide

theorem extent_nonneg {ds : List Int} (h : ∀ d ∈ ds, 0 ≤ d) : 0 ≤ extent ds := by
  induction ds with
  | nil => decide
  | cons d ds ih =>
    rw [extent_cons]
    exact Int.mul_nonneg (h d List.mem_cons_self) (ih fun e he => h e (List.mem_cons_of_mem _ he))

/-- A stride is the number of positions of the axes after it. -/
theorem suffix_of_mem_rowMajor {ds : List Int} {s : Int} (h : s ∈ rowMajor ds) :
    ∃ rest, rest <:+ ds ∧ s = extent rest := by
  induction ds with
  | nil => cases h
  | cons d ds ih =>
    rw [rowMajor_cons] at h
    rcases List.mem_cons.mp h with rfl | h
    · exact ⟨ds, List.suffix_cons d ds, rfl⟩
    · obtain ⟨rest, hrest, hs⟩ := ih h
      exact ⟨rest, hrest.trans (List.suffix_cons d ds), hs⟩

namespace Shapes

open Eval

/-- What the axes from any one on take in bytes is within 64 bits. -/
def Small (elt : ScalarTy) (ds : List Int) : Prop := ∀ rest, rest <:+ ds → Fits (extent rest * elt.bytes)

namespace Small

variable {elt : ScalarTy} {ds : List Int}

theorem count (h : Small elt ds) (hds : ∀ d ∈ ds, 0 ≤ d) : Fits (extent ds) := by
  have hpos := elt.bytes_pos
  have hle : extent ds * 1 ≤ extent ds * elt.bytes := Int.mul_le_mul_of_nonneg_left (by omega) (extent_nonneg hds)
  exact fits_zero.of_between (h ds List.suffix_rfl) (.inl ⟨extent_nonneg hds, by omega⟩)

theorem strides (h : Small elt ds) : ∀ s ∈ (rowMajor ds).map (· * (elt.bytes : Int)), Fits s := by
  intro s hs
  obtain ⟨stride, hstride, rfl⟩ := List.mem_map.mp hs
  obtain ⟨rest, hrest, rfl⟩ := suffix_of_mem_rowMajor hstride
  exact h rest hrest

end Small

/-- Strides in bytes are brought back to strides in elements. -/
theorem map_tdiv_bytes (elt : ScalarTy) (ss : List Int) :
    (ss.map (· * (elt.bytes : Int))).map (·.tdiv elt.bytes) = ss := by
  have hne : (elt.bytes : Int) ≠ 0 := by
    have := elt.bytes_pos
    omega
  rw [List.map_map]
  refine (List.map_congr_left fun s _ => ?_).trans (List.map_id _)
  exact Int.mul_tdiv_cancel s hne

variable {c : Site} {L : Locals} {elt : ScalarTy} {dims : List Expr} {ds : List Int} {data y : VarName} {out : Block}

/-! ## Allocation -/

/-- The code of an allocation: the number of elements is computed, then a buffer of that size is allocated, then
the strides are computed, and last the view is made. -/
inductive Allocates (c : Site) (L : Locals) (elt : ScalarTy) (dims : List Expr) (ds : List Int)
    (data y : VarName) : Block → Prop
  | intro {counting striding : Block} {count : Expr} {strides : List Expr} {L₁ L₂ : Locals} {b b₁ b₂ b₃ : Builder}
      (counts : Adds c counting b L b₁ L₁) (counted : Knows c L₁ count (.int (ofInt (extent ds))))
      (steps : Adds c striding b₂ L₁ b₃ L₂) (stepped : KnowsInts c L₂ strides
        ((rowMajor ds).map (· * (elt.bytes : Int))))
      (scalars : ∀ st ∈ counting, Computes st) (scalars' : ∀ st ∈ striding, Computes st) (fresh : L₁.get? data = none)
      (kept : data ∉ Stmt.blockBinds striding) :
      Allocates c L elt dims ds data y (counting ++ ([.assign (.var data (.ptr elt)) (.alloc elt count (.ptr elt))] ++
        (striding ++ [.assign (.var y (.array elt dims.length))
          (.view (.var data (.ptr elt)) (.tupleOf dims) (.tupleOf strides) (.int64 0) count
            (.array elt dims.length))])))

theorem castAll_known (h : KnowsInts c L dims ds) : Build.castAll (dims.map (·, .i64)) = pure dims := by
  induction h with
  | nil => rfl
  | @cons e d es ds hk _ ih =>
    have hty : e.ty = .scalar .i64 := hk.ty
    rw [List.map_cons, Build.castAll, Build.cast_self hty, ih]
    rfl

theorem Arithmetic.of_emits {α : Type} {x : Build α} (h : Arithmetic x) {b b' : Builder} {a : α} (hx : x b = .ok a b')
    {N : List VarName} (hemits : Emits N out b b') : ∀ st ∈ out, Computes st := by
  obtain ⟨out', hout', hall⟩ := h hx
  rw [hemits.block] at hout'
  exact List.append_cancel_left hout' ▸ hall

/-- The builder always has code for an allocation whose extents are known. -/
theorem allocShaped_allocates (elt : ScalarTy) (hne : dims ≠ []) (hdims : KnowsInts c L dims ds) {b : Builder}
    (hfree : Free L b.session.nextName) (name : String) :
    ∃ data y out b', Build.allocShaped elt dims name b = .ok (.var y (.array elt dims.length)) b' ∧
      b'.block = b.block ++ out ∧ Allocates c L elt dims ds data y out := by
  have hb : Ready b.session L b := ⟨rfl, hfree⟩
  obtain ⟨count, b1, counting, L1, hcount, hadds1, hknown⟩ := prod_provides hdims "nelts" hb
  obtain ⟨dataVar, b2, hdata⟩ : ∃ e b2, Build.temp (.alloc elt count (.ptr elt)) "data" b1 = .ok e b2 := ⟨_, _, rfl⟩
  obtain ⟨data, rfl, hemits, htaken⟩ := Build.temp_ok hdata
  have hb1 := hadds1.ready hb
  have hb2 : Ready b.session L1 b2 :=
    ⟨by rw [hemits.session, hb1.session], fun a i hi => hb1.free a i (Nat.le_trans hemits.next hi)⟩
  have hfresh : L1.get? data = none := by
    obtain ⟨a, i, rfl, hi, -⟩ := htaken.number data List.mem_cons_self
    exact hb1.free a i hi
  obtain ⟨strides, b3, striding, L2, hstrides, hadds2, hknown'⟩ :=
    rowMajorStrides_provides elt (hdims.mono hadds1.part) hb2
  obtain ⟨e, b4, hview⟩ : ∃ e b4, Build.temp (.view (.var data (.ptr elt)) (.tupleOf dims) (.tupleOf strides) (.int64 0)
      count (.array elt dims.length)) name b3 = .ok e b4 := ⟨_, _, rfl⟩
  obtain ⟨y, rfl, hemits', -⟩ := Build.temp_ok hview
  refine ⟨data, y, _, b4, ?_, ?_, .intro hadds1 hknown hadds2 hknown' ?_ ?_ hfresh ?_⟩
  · unfold Build.allocShaped
    rw [if_neg (by simpa using hne), castAll_known hdims, pure_bind, state_bind_of_ok hcount, state_bind_of_ok hdata,
      state_bind_of_ok hstrides]
    exact hview
  · rw [hemits'.block, hadds2.emits.block, hemits.block, hadds1.emits.block]
    simp only [List.append_assoc]
    rfl
  · exact (Arithmetic.prod _ _).of_emits hcount hadds1.emits
  · exact (Arithmetic.rowMajorStrides _ _).of_emits hstrides hadds2.emits
  · exact htaken.disjoint hadds2.taken data List.mem_cons_self

/-- The name stands for a new array of zeros as the interpreter allocates it, which only it and the name of the
raw buffer lead to. -/
structure Zeroed (elt : ScalarTy) (ds : List Int) (data y : VarName) (st : Store) (M : Locals) (t : Store)
    (u : View) : Prop where
  bound : M.get? y = some (.array u)
  like : ∃ z t', View.zeroed elt ds st = .ok z t' ∧ u = { z with buffer := u.buffer } ∧
    t.cells u.buffer = t'.cells z.buffer
  new : st.size ≤ u.buffer ∧ u.buffer < t.size
  sole : ∀ x v, M.get? x = some v → u.buffer ∈ v.buffers → x = y ∨ x = data

/-- Running the code changes no buffer and allocates the array. -/
theorem Allocates.run (h : Allocates c L elt dims ds data y out) (hdims : KnowsInts c L dims ds)
    (hpos : ∀ d ∈ ds, 0 ≤ d) (hfits : ∀ d ∈ ds, Fits d) (hsmall : Small elt ds)
    (hlive : ∀ x v, L.get? x = some v → v.Live c.store) (fuel : Nat) :
    ∃ M t u, block c.call fuel out L c.store = .ok (.next M) t ∧ c.store.Grows t ∧
      Zeroed elt ds data y c.store M t u := by
  cases h with
  | @intro counting striding count strides L1 L2 _ _ _ _ hadds1 hcount hadds2 hstrides hs1 hs2 hfresh hkept =>
  obtain ⟨M1, t1, hrun1, hgrows1, hpart1⟩ := hadds1.run fuel (.refl L) (.refl c.store)
  obtain ⟨t2, hgrows2, hrun2⟩ := alloc_run elt (hcount.mono hpart1) (extent_nonneg hpos)
    (hsmall.count hpos) (.ptr elt) hgrows1
  have hold := hgrows1.trans hgrows2
  have hgrows3 := hold.trans (.alloc t2 (List.replicate (extent ds).toNat (Scalar.zero elt)).toArray)
  have hpart2 : Locals.Part L1 (M1.insert data (.buffer elt t2.size)) := by
    intro x v hx
    have hne : x ≠ data := by
      rintro rfl
      cases hfresh.symm.trans hx
    rw [NameMap.get?_insert_of_ne _ _ hne]
    exact hpart1 hx
  obtain ⟨M3, t3, hrun3, hgrows4, hpart3⟩ := hadds2.run fuel hpart2 hgrows3
  have hdata : M3.get? data = some (.buffer elt t2.size) := by
    rw [block_within hrun3 data hkept]
    exact NameMap.get?_insert_self ..
  obtain ⟨t4, hgrows5, hrun4⟩ := view_run hdata (hdims.mono ((hadds1.part.trans hadds2.part).trans hpart3))
    (KnowsInts.mono hstrides hpart3) hfits hsmall.strides (.ptr elt) count (.array elt dims.length)
      (hgrows3.trans hgrows4)
  have hlater := hgrows4.trans hgrows5
  have hnew : t2.size < (t2.alloc (List.replicate (extent ds).toNat (Scalar.zero elt)).toArray).2.size := by
    rw [Store.size_alloc]
    exact Nat.lt_succ_self _
  rw [map_tdiv_bytes] at hrun4
  refine ⟨M3.insert y _, t4, ⟨elt, t2.size, ds, rowMajor ds, 0⟩, ?_, hgrows3.trans hlater, NameMap.get?_insert_self ..,
    ⟨_, _, rfl, rfl, ?_⟩, ⟨hold.size, Nat.lt_of_lt_of_le hnew hlater.size⟩, ?_⟩
  · rw [block_append_next hrun1, block_append_next (assign_run hrun2 data (.ptr elt)), block_append_next hrun3]
    exact assign_run hrun4 y (.array elt dims.length)
  · show t4.cells t2.size = _
    rw [hlater.cells hnew, Store.cells_alloc_new]
    exact (Store.cells_alloc_new c.store _).symm
  · intro x v hv hmem
    have hscalar : ∀ z : Scalar, v ≠ .scalar z := by
      rintro z rfl
      cases hmem
    rw [NameMap.get?_insert] at hv
    split at hv
    · next hx => exact .inl hx
    rcases scalars_bound hs2 hrun3 hv with hv | ⟨z, hz⟩
    · rw [NameMap.get?_insert] at hv
      split at hv
      · next hx => exact .inr hx
      rcases scalars_bound hs1 hrun1 hv with hv | ⟨z, hz⟩
      · exact absurd (hlive x v hv _ hmem) (Nat.not_lt.mpr hold.size)
      · exact absurd hz (hscalar z)
    · exact absurd hz (hscalar z)

/-- For extents that are computed without a change to a buffer, the code that allocates an array gives what the
interpreter allocates for them, over a buffer that nothing else leads to, and changes nothing else. -/
theorem allocShaped_zeroed (s : Session) (n : Nat) (elt : ScalarTy) {dims : List Expr} {ds : List Int64}
    {L : Locals} {st : Store} (hne : dims ≠ []) (hdims : List.Forall₂ (Extent ⟨s.call n, st⟩ L) dims ds)
    (hpos : ∀ d ∈ ds, 0 ≤ d.toInt) (hsmall : Small elt (ds.map (·.toInt)))
    (hlive : ∀ x v, L.get? x = some v → v.Live st) {b : Builder} (hfree : Free L b.session.nextName) (name : String) :
    ∃ data y out b', Build.allocShaped elt dims name b = .ok (.var y (.array elt dims.length)) b' ∧
      b'.block = b.block ++ out ∧
      ∀ fuel, ∃ M t u, block (s.call n) fuel out L st = .ok (.next M) t ∧
        (∀ x, x ∉ Stmt.blockBinds out → M.get? x = L.get? x) ∧
        st.Grows t ∧ Zeroed elt (ds.map (·.toInt)) data y st M t u := by
  have hknown : KnowsInts ⟨s.call n, st⟩ L dims (ds.map (·.toInt)) := by
    rw [KnowsInts, List.forall₂_map_right_iff]
    refine hdims.imp fun e d h => ?_
    rw [Int64.ofInt_toInt]
    exact h.knows (s.call_local n) hlive
  have hnonneg : ∀ d ∈ ds.map (·.toInt), 0 ≤ d := List.forall_mem_map.mpr hpos
  have hfits : ∀ d ∈ ds.map (·.toInt), Fits d := List.forall_mem_map.mpr fun d _ => fits_toInt d
  obtain ⟨data, y, out, b', hbuild, hblock, halloc⟩ := allocShaped_allocates elt hne hknown hfree name
  refine ⟨data, y, out, b', hbuild, hblock, fun fuel => ?_⟩
  obtain ⟨M, t, u, hrun, hgrows, hzeroed⟩ := halloc.run hknown hnonneg hfits hsmall hlive fuel
  exact ⟨M, t, u, hrun, block_within hrun, hgrows, hzeroed⟩

/-- The first element of `a`. -/
def firstOfA : Expr := .index (.var "a" (.array .i64 1)) (.int64 0) .i64

def localsOfA : Locals := .ofList [("a", .array ⟨.i64, 0, [1], [1], 0⟩)]

def storeOfA (i : Int64) : Store := ⟨#[#[.int i]]⟩

theorem free_localsOfA (n : Nat) : Free localsOfA n := by
  intro a i _
  refine NameMap.get?_insert_of_ne _ _ fun h => ?_
  have hdot := congrArg (fun s : String => '.' ∈ s.toList) h
  simp [numbered] at hdot

/-- Two rows, as long as the first element of `a` says. -/
theorem allocShaped_zeroed_rows :
    ∃ data y out b', Build.allocShaped .f64 [.int64 2, firstOfA] "rows" ⟨{}, .empty, []⟩ =
      .ok (.var y (.array .f64 2)) b' ∧
      b'.block = [] ++ out ∧ ∃ M t u, block (Session.call {} 0) 0 out localsOfA (storeOfA 3) = .ok (.next M) t ∧
        Zeroed .f64 [2, 3] data y (storeOfA 3) M t u ∧ u.strides = [3, 1] := by
  have hdims : List.Forall₂ (Extent ⟨Session.call {} 0, storeOfA 3⟩ localsOfA) [.int64 2, firstOfA] [2, 3] := by
    refine .cons ⟨rfl, fun x hx => ?_, _, rfl, .refl _⟩ (.cons ⟨rfl, fun x hx => ?_, _, rfl, .refl _⟩ .nil)
    · cases hx
    · cases List.mem_singleton.mp hx
      exact ⟨_, rfl⟩
  have hsmall : Small .f64 ([2, 3].map Int64.toInt) := by
    intro rest hrest
    simp only [List.map_cons, List.map_nil, List.suffix_cons_iff, List.suffix_nil] at hrest
    rcases hrest with rfl | rfl | rfl <;> decide
  have hpos : ∀ d ∈ [(2 : Int64), 3], 0 ≤ d.toInt := by
    simp only [List.forall_mem_cons]
    exact ⟨by decide, by decide, fun _ hd => absurd hd List.not_mem_nil⟩
  have hlive : ∀ x v, localsOfA.get? x = some v → v.Live (storeOfA 3) := by
    intro x v hv
    obtain ⟨-, rfl⟩ := Prod.ext_iff.mp (List.mem_singleton.mp (NameMap.mem_toList.mpr hv))
    show ∀ b ∈ [0], b < 1
    decide
  obtain ⟨data, y, out, b', hbuild, hblock, hrun⟩ :=
    allocShaped_zeroed {} 0 .f64 (by decide) hdims hpos hsmall hlive (free_localsOfA 0) (b := ⟨{}, .empty, []⟩) "rows"
  obtain ⟨M, t, u, hM, -, -, hzeroed⟩ := hrun 0
  refine ⟨data, y, out, b', hbuild, hblock, M, t, u, hM, hzeroed, ?_⟩
  obtain ⟨z, t', hz, hu, -⟩ := hzeroed.like
  cases hz
  rw [hu]
  rfl

/-- Count one down in the first element, and return it. -/
def countDown : Func where
  name := "countDown"
  params := ["a"]
  paramTys := [.array .i64 1]
  result := .i64
  env := .ofList [("a", .array .i64 1)]
  body := [.assign firstOfA (.prim .sub [firstOfA, .int64 1] .i64), .ret firstOfA]

/-- The array that is allocated at the extent that `countDown` returns, and the number of its cells. -/
def countedDown? : Option (List Int × Nat) :=
  match Build.allocShaped .i64 [.call "countDown" [.var "a" (.array .i64 1)] .i64] "t"
    ⟨{ functions := [countDown] }, .empty, []⟩ with
  | .ok (.var y _) b' =>
    match block (Session.call { functions := [countDown] } 1) 1 b'.block localsOfA (storeOfA 3) with
    | .ok (.next M) t =>
      match M.get? y with
      | some (.array u) => some (u.shape, (t.cells u.buffer).size)
      | _ => none
    | _ => none
  | _ => none

/-- An extent that changes a buffer is computed once for the number of elements and again for the shape. -/
theorem extent_computed_again : countedDown? = some ([1], 2) := by decide +kernel

end Shapes

end ArrayIR
