/-
  ArrayIR.Proofs.Unrolling.Steady — unrolling loops whose bounds may change.

  A loop evaluates its bounds once, before its first iteration. Once it is split they
  are evaluated several times: for the unrolled loop, and by the loop left over, which
  comes to its stop and its step when the unrolled loop has been run. That makes no
  difference if evaluating them changes no buffer, and if the stop and the step are
  then what they were (`Steady`): the new function gives the answers of the old one
  (`steady_answers`). A loop that raises the element that bounds it is run for longer
  (`raised_bound_runs_on`).
-/

import ArrayIR.Proofs.Unrolling.Walk

namespace ArrayIR

open Eval

namespace Unrolling

/-- The bounds of the loop are 64-bit integers and change no buffer when they are evaluated, and the merges in
and around its body can be evaluated in any order. -/
structure Separable (call : Caller) (c : Counter) (body : Block) (m : Merge) : Prop where
  ty : c.start.ty = .i64 ∧ c.stop.ty = .i64 ∧ c.step.ty = .i64
  quiet : Quiet call c.start ∧ Quiet call c.stop ∧ Quiet call c.step
  merge : m.Commutes call
  body : Stmt.blockCommutes call body

/-- If the loop is split, its range and `n` times its step fit 64 bits, and when the unrolled loop is done its stop
and its step are what they were. -/
def Steady (n : Nat) (call : Caller) (fuel : Nat) : Stmt.AtLoops := fun c body m L st =>
  short body = true → ∀ h st₁, header call L c st = .ok h st₁ →
    Fits (h.stop - h.start) ∧ Fits (n * h.step) ∧ Again n call fuel c body m h L st₁

/-- A loop that ends, and has been split. -/
theorem steady_halves_simulate {n : Nat} {E env : TypeEnv} {call : Caller} {fuel : Nat} (hn : 0 < n)
    (hcall : CallersAlike .strict call call) :
    HalvesSimulate n E env call fuel (fun c body m => short body = true → Separable call c body m)
      (Stmt.Ending (Steady n call fuel) call fuel) := by
  rintro c body m out V hgood ⟨h1, hshort, t, p, ht, hparts, rfl⟩ hk hs w L st L' st' hst hL ⟨hsteady, fl, st1, hrun⟩
  obtain ⟨⟨hty1, hty2, hty3⟩, ⟨hq1, hq2, hq3⟩, hc, hbc⟩ := hgood hshort
  obtain ⟨hl, hclear⟩ := halves_scoped (l := ⟨c, body, m, t⟩) hk hs hc hbc
  obtain ⟨h, s0, hx, h0⟩ := forLoop_header hrun
  obtain ⟨hrange, hlong, hagain⟩ := hsteady hshort h s0 hx
  exact halves_outcome hparts (Nat.lt_of_le_of_ne hn fun e => h1 e.symm) hcall hl
    (halves_counts hparts hk ht hty1 hty2 hty3) ⟨hq1, hq2, hq3⟩ hclear hst hL hx h0 hrange hlong hagain

/-- What a function answers, and leaves in the buffers, the unrolled function does as well: if the function is well
scoped and its loops can be separated, and if the bounds of the loops that are run are steady. -/
theorem steady_answers {factor : UnrollFactor} {s s' : Session} {f g : Func} (hf : s.find? f.name = some f)
    (h : (pass factor).apply () f s = .ok (g, ()) s') (hscoped : Stmt.blockWellScoped f.body f.inputs = true)
    (hloops : ∀ c body m, .forLoop c body m ∈ f.statements → short body = true →
      ∀ fuel, Separable (s'.call fuel) c body m)
    {args : List Value} {st : Store} (hlive : ∀ v ∈ args, ∀ b ∈ v.buffers, b < st.size)
    (hsteady : ∀ fuel, Stmt.blockAlong (Steady factor.val (s'.call fuel) fuel) (s'.call fuel) fuel f.body
      (.ofList (f.params.zip args)) st) {d : Dump} {cells : BufferId → Array Scalar} :
    s'.Answers f.name args st d cells → s'.Answers g.name args st d cells := by
  refine Outcome.answered (x := fun fuel => s'.call fuel f.name args) (y := fun fuel => s'.call fuel g.name args) ?_
  intro fuel v st₁ hrun
  cases fuel with
  | zero => cases hrun
  | succ fuel =>
    -- the body has been run to its end
    have hbody : ∃ fl st₂, block (s'.call fuel) fuel f.body (.ofList (f.params.zip args)) st = .ok fl st₂ := by
      rw [Session.call_succ ((apply_unrolled h).2.2.1 hf)] at hrun
      split at hrun
      · cases hrun
      · obtain ⟨fl, st₂, hbody, -⟩ := state_bind_ok hrun
        exact ⟨fl, st₂, hbody⟩
    obtain ⟨fl, st₂, hbody⟩ := hbody
    exact apply_outcome hf h hscoped hlive (fun c body m hp hshort => hloops c body m hp hshort fuel)
      (steady_halves_simulate factor.pos (Session.call_inStep s'.strict_admits fuel)) ((hsteady fuel).ending hbody)

/-- The element `k` of the array `a`. -/
def element (k : Int64) : Expr := .index (.var "a" (.array .i64 1)) (.int64 k) .i64

/-- Adds one to the element `k`, as many times as the first element says. -/
def raising (k : Int64) : Func where
  name := "raise"
  params := ["a"]
  paramTys := [.array .i64 1]
  result := .i64
  env := .ofList [("a", .array .i64 1), ("i", .i64)]
  body := [.forLoop ⟨"i", .int64 0, element 0, .int64 1⟩
      [.assign (element k) (.prim .add [element k, .int64 1] .i64)] .empty,
    .ret (element k)]

/-- An array of two elements, in the first buffer. -/
def pair : Value := .array ⟨.i64, 0, [2], [1], 0⟩

def holding (x y : Int64) : Store := ⟨#[#[.int x, .int y]]⟩

/-- After two of its three iterations the loop has not touched its bound. -/
theorem raising_steady (call : Caller) (fuel : Nat) :
    Stmt.blockAlong (Steady 2 call fuel) call fuel (raising 1).body (.ofList [("a", pair)]) (holding 3 5) := by
  refine ⟨⟨fun _ h st1 hx => ?_, fun _ _ _ _ _ _ => ?_⟩, fun _ _ _ => ⟨trivial, fun _ _ _ => trivial⟩⟩
  · have hheader : header call (.ofList [("a", pair)]) ⟨"i", .int64 0, element 0, .int64 1⟩ (holding 3 5) =
        .ok ⟨0, 3, 1⟩ (holding 3 5) := by rfl
    rw [hheader] at hx
    cases hx
    refine ⟨by decide, by decide, fun L1 st2 hrun => ?_⟩
    have htwice : (bindMerge call .empty Prod.fst (.ofList [("a", pair)]) >>= repeatCounted "i" 1
        (block call fuel [.assign (element 1) (.prim .add [element 1, .int64 1] .i64)])
        (bindMerge call .empty Prod.snd) 2 0) (holding 3 5) =
          .ok (.next (.ofList [("a", pair), ("i", .int 1)])) (holding 3 7) := by with_unfolding_all rfl
    cases hrun.symm.trans htwice
    exact ⟨⟨.int 3, holding 3 7, 3, by rfl, rfl, rfl⟩, ⟨.int 1, holding 3 7, 1, by rfl, rfl, rfl⟩⟩
  · exact .of_forall (fun _ _ => ⟨trivial, fun _ _ _ => trivial⟩) _ _ _ _ _ _ _ _

theorem raising_separable (call : Caller) (k : Int64) {c : Counter} {body : Block} {m : Merge}
    (hp : .forLoop c body m ∈ (raising k).statements) : Separable call c body m := by
  have hquiet : Quiet call (element 0) := quiet_of_not_calls (by decide)
  rcases List.mem_cons.mp hp with hp | hp
  · cases hp
    exact ⟨⟨rfl, rfl, rfl⟩, ⟨quiet_of_not_calls rfl, hquiet, quiet_of_not_calls rfl⟩, .inl (Nat.zero_le 1),
      trivial, trivial⟩
  · simp [Stmt.blockParts, Stmt.parts] at hp

/-- Two at a time, and one more. -/
theorem steady_answers_raising :
    ∃ g s', (pass ⟨2, by decide⟩).apply () (raising 1) { functions := [raising 1] } = .ok (g, ()) s' ∧
      s'.Answers g.name [pair] (holding 3 5) (Dump.value .empty (.int 8)) (holding 3 8).cells := by
  have hok : succeeds ((pass ⟨2, by decide⟩).apply () (raising 1) { functions := [raising 1] }) = true := by
    decide +kernel
  obtain ⟨⟨g, _⟩, s', h⟩ := exists_of_succeeds hok
  have hreg : Session.find? { functions := [raising 1] } (raising 1).name = some (raising 1) :=
    List.find?_cons_of_pos (by decide)
  have hrun : s'.call 1 (raising 1).name [pair] (holding 3 5) = .ok (.int 8) (holding 3 8) := by
    rw [Session.call_succ ((apply_unrolled h).2.2.1 hreg)]
    with_unfolding_all rfl
  have hlive : ∀ v ∈ [pair], ∀ b ∈ v.buffers, b < (holding 3 5).size := by decide
  exact ⟨g, s', h, steady_answers hreg h (by decide) (fun c body m hp _ fuel => raising_separable _ 1 hp) hlive
    (fun fuel => raising_steady _ fuel) ⟨1, _, _, hrun, rfl, fun _ _ => rfl⟩⟩

/-- Raising the first element itself moves the stop of the loop left over. -/
theorem raised_bound_runs_on :
    ∃ g s', (pass ⟨2, by decide⟩).apply () (raising 0) { functions := [raising 0] } = .ok (g, ()) s' ∧
      integer? (s'.call 1 "raise" [pair] (holding 3 5)) = some 6 ∧
      integer? (s'.call 1 g.name [pair] (holding 3 5)) = some 8 := by
  have hok : succeedsWith (fun r s' => integer? (s'.call 1 "raise" [pair] (holding 3 5)) = some 6 ∧
      integer? (s'.call 1 r.1.name [pair] (holding 3 5)) = some 8)
      ((pass ⟨2, by decide⟩).apply () (raising 0) { functions := [raising 0] }) = true := by decide +kernel
  obtain ⟨⟨g, _⟩, s', h, hruns⟩ := exists_of_succeedsWith hok
  exact ⟨g, s', h, of_decide_eq_true hruns⟩

end Unrolling

end ArrayIR
