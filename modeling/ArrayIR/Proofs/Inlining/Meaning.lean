/-
  ArrayIR.Proofs.Inlining.Meaning — inlining a call does not change what it does.

  Running the code emitted for a call and evaluating the expression returned for it
  gives what the call gives, and leaves the buffers as the call leaves them. With a
  region to put the result in, the region is filled with it, and all other cells are
  as the call alone would leave them. The names that were bound keep their values
  (`Inlining.inlined_meaning`).

  The merges of the callee are copied under other names, and a merge is evaluated in
  the order of its names. So they must not depend on the order: at
  `Inlining.reordered_merge` there is one that does.
-/

import ArrayIR.Proofs.Inlining.Output

namespace ArrayIR

open Eval

namespace Inlining

variable {f : Func} {args : List Expr} {b : Builder}

/-- Inlining a call does not change what it does. The code emitted for it, with the expression returned,
answers as the call does; with a region, it fills the region with what the call gives, and leaves all
other cells as the call does. The names that were bound keep their values. -/
theorem inlined_meaning (hf : Spliceable b.session f args) :
    (∀ {e b'}, Build.inline f args none b = .ok e b' → ∃ out, b'.block = b.block ++ out ∧
      ∀ L st, Site args (Stmt.blockBinds out) L st →
        (∀ d cells, Answered (fun n => expr (b.session.call n) L (.call f.name args f.result)) st d cells ↔
          Answered (fun n => runThen (b.session.call n) n out L e) st d cells) ∧
        ∀ fuel fl st₁, block (b.session.call fuel) fuel out L st = .ok fl st₁ →
          ∃ L', fl = .next L' ∧ ∀ x v, L.get? x = some v → L'.get? x = some v) ∧
    ∀ {region elt rank e b'}, (∀ e ∈ args, e.PlainLiteral) → region.ty = .array elt rank →
      Build.inline f args (some region) b = .ok e b' → e = region ∧ ∃ out, b'.block = b.block ++ out ∧
        ∀ L st view fuel v st₁, Site args (Stmt.blockBinds out) L st → Region L st region view →
          expr (b.session.call fuel) L (.call f.name args f.result) st = .ok v st₁ → ReturnsTyped f v → view.Takes v →
          ∃ L' st₂, block (b.session.call fuel) fuel out L st = .ok (.next L') st₂ ∧
            (∀ x u, L.get? x = some u → L'.get? x = some u) ∧ Filled view st₂ v st₁ ∧
            ∀ c < st.size, ∀ i : Nat, (c = view.buffer → (i : Int) ∉ view.offsets) →
              (st₂.cells c)[i]? = (st₁.cells c)[i]? :=
  ⟨returned hf, fun hargs hty h => stored hf hargs hty h⟩

/-- One of two arrays. -/
def pick : Func where
  name := "pick"
  params := ["x", "y", "c"]
  paramTys := [.array .i64 1, .array .i64 1, .scalar .bool]
  result := .array .i64 1
  env := .ofList [("x", .array .i64 1), ("y", .array .i64 1), ("c", .scalar .bool), ("r", .array .i64 1)]
  body := [.ite (.var "c" (.scalar .bool)) [] [] (.ofList [("r", .var "x" (.array .i64 1), .var "y" (.array .i64 1))]),
    .ret (.var "r" (.array .i64 1))]

/-- The first argument of the call is a tail of the array, and has to be bound to a temporary. -/
def pickArgs : List Expr :=
  [.index (.var "p" (.array .i64 1)) (.range (.int64 1) .nothing (.int64 1)) (.array .i64 1), .var "q" (.array .i64 1),
    .bool true]

def pickBuilder : Builder where
  session := { functions := [pick] }
  env := .ofList [("p", .array .i64 1), ("q", .array .i64 1), ("out", .array .i64 1)]
  block := []

def pickStore : Store :=
    { buffers := #[#[.int 7, .int 3, .int 4], #[.int 5, .int 6], #[.int 0, .int 0, .int 0, .int 0]] }

/-- The second column of the last buffer, as a table of two rows. -/
def pickColumn : View := ⟨.i64, 2, [2], [2], 1⟩

def pickLocals : Locals := .ofList [("p", .array ⟨.i64, 0, [3], [1], 0⟩), ("q", .array ⟨.i64, 1, [2], [1], 0⟩),
  ("out", .array pickColumn)]

def pickRegion : Expr := .var "out" (.array .i64 1)

theorem pick_spliceable : Spliceable pickBuilder.session pick pickArgs where
  found := List.find?_cons_of_pos (by decide)
  verified := by rfl
  wellScoped := by decide
  typed := by decide
  reorderable _ := ⟨⟨.inl (by decide), trivial, trivial⟩, trivial, trivial⟩

/-- Whether inlining has succeeded, and has bound none of the locals. -/
def pickFresh : EStateM.Result Fault Builder Expr → Bool
  | .ok _ b' => (Stmt.blockBinds b'.block).all fun y => (pickLocals.get? y).isNone
  | .error _ _ => false

theorem exists_of_pickFresh {r : EStateM.Result Fault Builder Expr} (h : pickFresh r = true) :
    ∃ e b', r = .ok e b' ∧ (Stmt.blockBinds b'.block).all (fun y => (pickLocals.get? y).isNone) = true := by
  cases r with
  | ok e b' => exact ⟨e, b', rfl, h⟩
  | error e b' => cases h

theorem pick_site {out : Block} (h : (Stmt.blockBinds out).all (fun y => (pickLocals.get? y).isNone) = true) :
    Site pickArgs (Stmt.blockBinds out) pickLocals pickStore where
  bound := by
    have hreads : ∀ e ∈ pickArgs, ∀ x ∈ e.reads, (pickLocals.get? x).isSome = true := by decide
    exact fun e he x hx => Option.isSome_iff_exists.mp (hreads e he x hx)
  unbound y hy := by simpa using List.all_eq_true.mp h y hy
  live x v hx := by
    simp only [pickLocals, NameMap.ofList, NameMap.insertAll, List.foldl, NameMap.get?_insert, NameMap.get?_empty] at hx
    have hsize : pickStore.size = 3 := rfl
    split_ifs at hx <;> cases hx <;> simp [Value.buffers, pickColumn, hsize]

theorem pick_region : Region pickLocals pickStore pickRegion pickColumn where
  typed := rfl
  bound x hx := by
    have hreads : ∀ x ∈ pickRegion.reads, (pickLocals.get? x).isSome = true := by decide
    exact Option.isSome_iff_exists.mp (hreads x hx)
  value call st := by
    rw [pickRegion, expr]
    rfl
  proper := ⟨rfl, by decide⟩
  distinct := ⟨by decide, by decide +kernel, by decide +kernel⟩

/-- The tail of the first array is picked, and put into the column. -/
theorem inlined_pick :
    (∃ e b', Build.inline pick pickArgs none pickBuilder = .ok e b' ∧
      Answered (fun n => runThen (pickBuilder.session.call n) n b'.block pickLocals e) pickStore
        (Dump.value pickStore (.array ⟨.i64, 0, [2], [1], 1⟩)) pickStore.cells) ∧
    ∃ b' L' st₂, Build.inline pick pickArgs (some pickRegion) pickBuilder = .ok pickRegion b' ∧
      block (pickBuilder.session.call 1) 1 b'.block pickLocals pickStore = .ok (.next L') st₂ ∧
      pickColumn.elements st₂ = [.int 3, .int 4] := by
  have hcall : expr (pickBuilder.session.call 1) pickLocals (.call pick.name pickArgs pick.result) pickStore =
      .ok (.array ⟨.i64, 0, [2], [1], 1⟩) pickStore := by rfl
  have hmeaning := inlined_meaning pick_spliceable
  constructor
  · obtain ⟨e, b', h, hfresh⟩ := exists_of_pickFresh
      (show pickFresh (Build.inline pick pickArgs none pickBuilder) = true by decide +kernel)
    obtain ⟨out, hblock, hout⟩ := hmeaning.1 h
    obtain rfl : b'.block = out := hblock
    exact ⟨e, b', h, ((hout _ _ (pick_site hfresh)).1 _ _).mp ⟨1, _, _, hcall, rfl, fun _ _ => rfl⟩⟩
  · obtain ⟨e, b', h, hfresh⟩ := exists_of_pickFresh
      (show pickFresh (Build.inline pick pickArgs (some pickRegion) pickBuilder) = true by decide +kernel)
    have hplain : ∀ e ∈ pickArgs, e.PlainLiteral := by simp [pickArgs, Expr.PlainLiteral, Expr.bool]
    have htyped : ReturnsTyped pick (.array ⟨.i64, 0, [2], [1], 1⟩) := by
      refine ⟨[_], .var "r" (.array .i64 1), rfl, ?_, ?_, ?_⟩
      · rintro x t ⟨⟩
        rfl
      · rintro i t ⟨⟩
      · rintro t ⟨⟩
    obtain ⟨rfl, out, hblock, hout⟩ := hmeaning.2 hplain rfl h
    obtain rfl : b'.block = out := hblock
    obtain ⟨L', st₂, hrun, -, hfilled, -⟩ := hout _ _ _ _ _ _ (pick_site hfresh) pick_region hcall htyped ⟨[], rfl⟩
    refine ⟨b', L', st₂, h, hrun, ?_⟩
    rcases hfilled with ⟨lead, hlead, hcells⟩ | ⟨x, hx, -⟩
    · obtain rfl : lead = [] := by simpa [pickColumn] using hlead
      rw [hcells]
      with_unfolding_all rfl
    · cases hx

/-- Count one up in the first cell. -/
def bump : Func where
  name := "bump"
  params := ["a"]
  paramTys := [.array .i64 1]
  result := .i64
  env := .ofList [("a", .array .i64 1)]
  body := [.assign (.index (.var "a" (.array .i64 1)) (.int64 0) .i64)
      (.prim .add [.index (.var "a" (.array .i64 1)) (.int64 0) .i64, .int64 1] .i64),
    .ret (.index (.var "a" (.array .i64 1)) (.int64 0) .i64)]

/-- A merge that counts up under one name, and reads the cell under the next. -/
def readAfterBump : Func where
  name := "readAfterBump"
  params := ["a", "c"]
  paramTys := [.array .i64 1, .scalar .bool]
  result := .i64
  env := .ofList [("a", .array .i64 1), ("c", .scalar .bool), ("m", .i64), ("m-", .i64)]
  body := [.ite (.var "c" (.scalar .bool)) [] []
    (.ofList [("m", .call "bump" [.var "a" (.array .i64 1)] .i64, .int64 0),
      ("m-", .index (.var "a" (.array .i64 1)) (.int64 0) .i64, .int64 0)]),
    .ret (.var "m-" .i64)]

def bumpArgs : List Expr := [.var "p" (.array .i64 1), .bool true]

def bumpBuilder : Builder where
  session := { functions := [bump, readAfterBump] }
  env := .ofList [("p", .array .i64 1)]
  block := []

def bumpLocals : Locals := .ofList [("p", .array ⟨.i64, 0, [1], [1], 0⟩)]

/-- The value that a run gives from a buffer of one zero. -/
def bumpValue? (x : Exec Value) : Option Value :=
  match x ⟨#[#[.int 0]]⟩ with
  | .ok v _ => some v
  | .error _ _ => none

/-- The value that the inlined code gives there. -/
def bumpInlined? : Option Value :=
  match Build.inline readAfterBump bumpArgs none bumpBuilder with
  | .ok e b' => bumpValue? (runThen (bumpBuilder.session.call 2) 2 b'.block bumpLocals e)
  | .error _ _ => none

/-- The copy of `m-` is named so that it comes ahead of that of `m`, and reads the cell too early. -/
theorem reordered_merge :
    bumpValue? (expr (bumpBuilder.session.call 2) bumpLocals (.call "readAfterBump" bumpArgs .i64)) = some (.int 1) ∧
      bumpInlined? = some (.int 0) := by
  constructor
  · with_unfolding_all rfl
  · rfl

end Inlining

end ArrayIR
