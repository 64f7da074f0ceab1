/-
  ArrayIR.Proofs.Tiling.Threading — the sizes counted are the sizes taken.

  The number of tile sizes that a function takes at run time is counted before it is
  lowered. Lowering takes each item of the tuple once, in order, and the tuple goes to
  the functions that have it as a parameter (`lowerTiled_threads_sizes`), as long as
  all that is counted is visited. The count looks at what any closure captured, though,
  and lowering only at what one with the type of a closure captured
  (`miscounted_adds_no_parameter`).
-/

import ArrayIR.Proofs.Tiling.Spending

namespace ArrayIR

namespace Tiling

variable {s s' : Session} {f g : Func} {sizes : List Int64} {st : State}

/-- Lowering begins with a count. -/
theorem counted_of_apply {lower : LowerFn} (h : (pass lower sizes).apply { sizes := sizes } f s = .ok (g, st) s') :
    ∃ n, s.numDynamicTiles f = .ok n := by
  rcases enter_cases f { sizes := sizes } ⟨s, f.env, []⟩ with ⟨e, he⟩ | ⟨-, hn⟩ | ⟨n, -, hn, -⟩
  · have hbody : (pass lower sizes).body f { sizes := sizes } ⟨s, f.env, []⟩ =
        EStateM.bind (enter f { sizes := sizes }) (fun r => (pass lower sizes).block f.body r.2) ⟨s, f.env, []⟩ := rfl
    unfold EStateM.bind at hbody
    rw [he] at hbody
    rw [Pass.apply, hbody] at h
    cases h
  · exact ⟨0, hn rfl⟩
  · exact ⟨n, hn⟩

/-- Running the pass is running the logging pass and forgetting the log. -/
theorem traced_of_apply (h : (passIn s sizes).apply { sizes := sizes } f s = .ok (g, st) s') :
    ∃ log, (Traced.pass (Traced.lowerAt s.numFunctions) sizes).apply ⟨{ sizes := sizes }, []⟩ f s =
      .ok (g, ⟨st, log⟩) s' := by
  have hforget := (Traced.pass_forgets (Traced.lowerAt_forgets s.numFunctions) sizes).apply ⟨{ sizes := sizes }, []⟩ f s
  change _ = (passIn s sizes).apply { sizes := sizes } f s at hforget
  rw [h] at hforget
  cases hr : (Traced.pass (Traced.lowerAt s.numFunctions) sizes).apply ⟨{ sizes := sizes }, []⟩ f s with
  | error e s1 =>
    rw [hr] at hforget
    cases hforget
  | ok r s1 =>
    rw [hr] at hforget
    cases hforget
    exact ⟨r.2.log, rfl⟩

/-- The sizes counted are the sizes taken. If some are, the lowered function has a tuple of that many as one
more parameter, else its parameters stay. Over the whole lowering, with that of the functions applied, the items
of the tuple are taken one after the other, each once, and the tuple is passed just to the functions that have
it as one more parameter. -/
theorem lowerTiled_threads_sizes (htidy : ∀ k, s.Reaches Expr.demands f k → ∀ e ∈ k.subterms, e.Tidy)
    (h : (passIn s sizes).apply { sizes := sizes } f s = .ok (g, st) s') :
    ∃ n p log, s.numDynamicTiles f = .ok n ∧
      (n = 0 ∧ p = none ∧ g.params = f.params ∧ g.paramTys = f.paramTys ∨
        0 < n ∧ ∃ x, p = some (.var x (.tuple (List.replicate n .i64))) ∧
          g.params = f.params ++ [x] ∧ g.paramTys = f.paramTys ++ [.tuple (List.replicate n .i64)]) ∧
      (Traced.pass (Traced.lowerAt s.numFunctions) sizes).apply ⟨{ sizes := sizes }, []⟩ f s = .ok (g, ⟨st, log⟩) s' ∧
      positions log = List.range n ∧ ∀ e ∈ log, e.Proper p := by
  obtain ⟨n, hn⟩ := counted_of_apply h
  obtain ⟨log, hlog⟩ := traced_of_apply h
  have htakes := Session.takes_of_numDynamicTiles hn
  have hsecure : s.Secure Expr.demands Expr.Tidy f := htakes.secure.imp fun k hk e he _ => htidy k hk e he
  have hstarts : Starts n ({ sizes := sizes } : State) := ⟨rfl, .inl rfl⟩
  have hdeveloped := apply_counts (lowerAt_counts s.numFunctions) (t := ⟨_, []⟩) htakes (fun _ => hsecure) hstarts sizes
  rw [hlog] at hdeveloped
  obtain ⟨-, -, p, hp, hspent, hext⟩ := hdeveloped
  obtain ⟨new, hnew, hpos, hproper⟩ := hspent.log
  rw [List.nil_append] at hnew
  change log = new at hnew
  subst hnew
  refine ⟨n, p, log, hn, ?_, hlog, ?_, ?_⟩
  · rcases hext with ⟨rfl, hparams⟩ | ⟨hpos, x, t, rfl, hparams⟩
    · exact (hp.new rfl).imp (fun ⟨_, hnone⟩ => ⟨rfl, hnone, hparams⟩) fun ⟨hpos, _⟩ => absurd hpos (Nat.lt_irrefl 0)
    · rcases hp.new rfl with ⟨rfl, -⟩ | ⟨-, y, hy⟩
      · exact absurd hpos (Nat.lt_irrefl 0)
      · cases hy
        exact .inr ⟨hpos, x, rfl, hparams⟩
  · exact hpos.trans List.range_eq_range'.symm
  · exact hproper

/-! ## Tiles in tiles, and tiles left out -/

/-- A function that gives back the vector it is given. -/
def same : Func := .returning "same" [("x", .array .i64 1)] (.var "x" (.array .i64 1))

/-- The same, tile by tile. -/
def tiles : Func := .returning "tiles" [("x", .array .i64 1)]
  (.tiledMap (.fnRefTo "same") [.var "x" (.array .i64 1)] [0] .dynamic (.array .i64 1))

/-- Tiles of tiles, and tiles again. -/
def nest : Func where
  name := "nest"
  params := ["x"]
  paramTys := [.array .i64 1]
  result := .array .i64 1
  env := .ofList [("x", .array .i64 1), ("y", .array .i64 1)]
  body := [.assign (.var "y" (.array .i64 1)) (.tiledMap (.fnRefTo "tiles") [.var "x" (.array .i64 1)]
    [0] .dynamic (.array .i64 1)), .ret (.call "tiles" [.var "y" (.array .i64 1)] (.array .i64 1))]

def nesting : Session := { functions := [nest, tiles, same] }

/-- Tiles in tiles, and tiles again, have three sizes: one more parameter holds them, and they are taken one after the
other. -/
theorem nest_threads_sizes : nesting.numDynamicTiles nest = .ok 3 ∧
    ∃ g st s' x log, (passIn nesting [1]).apply { sizes := [1] } nest nesting = .ok (g, st) s' ∧
      g.params = nest.params ++ [x] ∧ g.paramTys = nest.paramTys ++ [.tuple [.i64, .i64, .i64]] ∧
      (Traced.pass (Traced.lowerAt 3) [1]).apply ⟨{ sizes := [1] }, []⟩ nest nesting = .ok (g, ⟨st, log⟩) s' ∧
      positions log = [0, 1, 2] ∧ ∀ e ∈ log, e.Proper (some (.var x (.tuple [.i64, .i64, .i64]))) := by
  have hcount : nesting.numDynamicTiles nest = .ok 3 := rfl
  have htidy : ∀ k ∈ nesting.functions, ∀ e ∈ k.subterms, e.Tidy := by decide +kernel
  obtain ⟨⟨g, st⟩, s', h⟩ := exists_of_succeeds
    (show succeeds ((passIn nesting [1]).apply { sizes := [1] } nest nesting) = true by decide +kernel)
  obtain ⟨n, p, log, hn, hparam, hlog, hpos, hproper⟩ :=
    lowerTiled_threads_sizes (Session.everywhere_of_functions htidy rfl) h
  obtain rfl : 3 = n := Except.ok.inj (hcount.symm.trans hn)
  rcases hparam with ⟨hzero, -⟩ | ⟨-, x, rfl, hparams, htys⟩
  · cases hzero
  · exact ⟨hcount, g, st, s', x, log, h, hparams, htys, hlog, hpos, hproper⟩

/-- A tiled map that applies a closure whose type is not that of a closure, and that captured tiles. -/
def miscounted : Func := .returning "miscounted" [("x", .array .i64 1)]
  (.tiledMap
    (.closure "same" [.tiledMap (.fnRefTo "same") [.var "x" (.array .i64 1)] [0] .dynamic (.array .i64 1)] (.fn "same"))
    [.var "x" (.array .i64 1)] [0] .fixed (.array .i64 1))

def miscounting : Session := { functions := [miscounted, same] }

/-- All that is applied to tiles is literal, and one size is counted, but the lowered function has no parameter
for it. -/
theorem miscounted_adds_no_parameter :
    (∀ k ∈ miscounting.functions, ∀ e ∈ k.subterms, e.isTiled = true → ∀ o ∈ e.operands, o.isLiteral = true) ∧
    miscounting.numDynamicTiles miscounted = .ok 1 ∧
    ∃ g st s', (passIn miscounting [1]).apply { sizes := [1] } miscounted miscounting = .ok (g, st) s' ∧
      g.params = miscounted.params := by
  obtain ⟨⟨g, st⟩, s', h, hparams⟩ := exists_of_succeedsWith
    (show succeedsWith (fun r _ => decide (r.1.params = miscounted.params))
      ((passIn miscounting [1]).apply { sizes := [1] } miscounted miscounting) = true by decide +kernel)
  exact ⟨by decide +kernel, rfl, g, st, s', h, of_decide_eq_true hparams⟩

end Tiling

end ArrayIR
