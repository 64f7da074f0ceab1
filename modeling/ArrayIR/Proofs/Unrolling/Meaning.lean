/-
  ArrayIR.Proofs.Unrolling.Meaning — unrolling loops does not change what a function computes.

  That holds as long as the integers by which loops are split fit 64 bits
  (`Stmt.blockInRange`), and the merges of loops that are unrolled can be evaluated in
  any order (`Stmt.blockReorderable`): the copies have merges of other names, and the
  entries of a merge are evaluated in the order of their names.
-/

import ArrayIR.Proofs.Unrolling.Walk

namespace ArrayIR

open Eval

/-! ## Functions whose loops can be unrolled -/

/-- Whether the bounds of a loop are 64-bit integers, computed without calls and without reading arrays. -/
def Counter.plain (c : Counter) : Bool :=
  [c.start, c.stop, c.step].all fun e => decide (e.ty = .i64) && e.plain

namespace Stmt

mutual

/-- Whether all bounds of counted loops are plain. -/
def plainBounds : Stmt → Bool
  | assign _ _ | ret _ => true
  | ite _ yes no _ => blockPlainBounds yes && blockPlainBounds no
  | whileLoop _ body _ => blockPlainBounds body
  | forLoop c body _ => c.plain && blockPlainBounds body

def blockPlainBounds : List Stmt → Bool
  | [] => true
  | s :: ss => s.plainBounds && blockPlainBounds ss

end

mutual

/-- The merges in and around the bodies that may be copied can be evaluated in any order. -/
def Reorderable (call : Caller) : Stmt → Prop
  | assign _ _ | ret _ => True
  | ite _ yes no _ => blockReorderable call yes ∧ blockReorderable call no
  | whileLoop _ body _ => blockReorderable call body
  | forLoop _ body m => (simpleAll body = true → m.Commutes call ∧ blockCommutes call body) ∧ blockReorderable call body

def blockReorderable (call : Caller) : List Stmt → Prop
  | [] => True
  | s :: ss => s.Reorderable call ∧ blockReorderable call ss

end

mutual

/-- For every counted loop that is run from here on, its range and `n` times its step fit 64 bits. -/
def InRange (n : Nat) (call : Caller) (fuel : Nat) : Stmt → Locals → Store → Prop
  | assign _ _, _, _ | ret _, _, _ => True
  | ite c yes no _, L, st => ∀ b st₁, condition call L c st = .ok b st₁ →
    if b then blockInRange n call fuel yes L st₁ else blockInRange n call fuel no L st₁
  | whileLoop c body m, L, st => ∀ L₁ st₁, bindMerge call m Prod.fst L st = .ok L₁ st₁ →
    IterateGuard (blockInRange n call fuel body) (condition call · c) (block call fuel body)
      (bindMerge call m Prod.snd) fuel L₁ st₁
  | forLoop c body m, L, st => ∀ h st₁, header call L c st = .ok h st₁ →
    (Eval.Fits (h.stop - h.start) ∧ Eval.Fits (n * h.step)) ∧ ∀ L₁ st₂, bindMerge call m Prod.fst L st₁ = .ok L₁ st₂ →
      RepeatGuard (blockInRange n call fuel body) c.var h.step (block call fuel body) (bindMerge call m Prod.snd)
        h.trips h.start L₁ st₂

def blockInRange (n : Nat) (call : Caller) (fuel : Nat) : List Stmt → Locals → Store → Prop
  | [], _, _ => True
  | s :: ss, L, st => s.InRange n call fuel L st ∧
    ∀ L₁ st₁, stmt call fuel s L st = .ok (.next L₁) st₁ → blockInRange n call fuel ss L₁ st₁

end

/-! ## What holds of the loops of a block -/

/-- The range of the loop and `n` times its step fit 64 bits. -/
def RangeFits (n : Nat) (call : Caller) : AtLoops := fun c _ _ L st =>
  ∀ h st₁, header call L c st = .ok h st₁ → Eval.Fits (h.stop - h.start) ∧ Eval.Fits (n * h.step)

section

variable {n : Nat} {call : Caller} {fuel : Nat}

/-- A condition `S` on statements, and `B` on blocks, passes to what they are made of, and says `Q` of loops. -/
structure Inherited (Q : Counter → Block → Merge → Prop) (S : Stmt → Prop) (B : Block → Prop) : Prop where
  ite : ∀ {c yes no m}, S (ite c yes no m) → B yes ∧ B no
  whileLoop : ∀ {c body m}, S (whileLoop c body m) → B body
  forLoop : ∀ {c body m}, S (forLoop c body m) → Q c body m ∧ B body
  cons : ∀ {s ss}, B (s :: ss) → S s ∧ B ss

variable {Q : Counter → Block → Merge → Prop} {S : Stmt → Prop} {B : Block → Prop} {body : Block} {m : Merge}

mutual

theorem Inherited.of_part (h : Inherited Q S B)
    {c : Counter} : ∀ {s : Stmt}, S s → Stmt.forLoop c body m ∈ s.parts → Q c body m
  | assign _ _, _, hp | ret _, _, hp => by cases List.mem_singleton.mp hp
  | .ite _ _ _ _, hs, hp => by
    rcases List.mem_append.mp ((List.mem_cons.mp hp).resolve_left nofun) with hp | hp
    · exact h.of_blockPart (h.ite hs).1 hp
    · exact h.of_blockPart (h.ite hs).2 hp
  | .whileLoop _ _ _, hs, hp => h.of_blockPart (h.whileLoop hs) ((List.mem_cons.mp hp).resolve_left nofun)
  | .forLoop _ _ _, hs, hp => by
    rcases List.mem_cons.mp hp with hp | hp
    · cases hp
      exact (h.forLoop hs).1
    · exact h.of_blockPart (h.forLoop hs).2 hp

theorem Inherited.of_blockPart (h : Inherited Q S B)
    {c : Counter} : ∀ {ss : List Stmt}, B ss → Stmt.forLoop c body m ∈ blockParts ss → Q c body m
  | [], _, hp => absurd hp List.not_mem_nil
  | _ :: _, hs, hp => by
    rcases List.mem_append.mp hp with hp | hp
    · exact h.of_part (h.cons hs).1 hp
    · exact h.of_blockPart (h.cons hs).2 hp

end

theorem plainBounds_inherited :
    Inherited (fun c _ _ => c.plain = true) (fun s => s.plainBounds = true) (fun ss => blockPlainBounds ss = true) :=
  ⟨Bool.and_eq_true_iff.mp, id, Bool.and_eq_true_iff.mp, Bool.and_eq_true_iff.mp⟩

theorem reorderable_inherited (call : Caller) :
    Inherited (fun _ body m => simpleAll body = true → m.Commutes call ∧ blockCommutes call body) (Reorderable call)
      (blockReorderable call) :=
  ⟨id, id, id, id⟩

mutual

theorem InRange.along : ∀ {s : Stmt} {L : Locals} {st : Store}, s.InRange n call fuel L st →
    s.Along (RangeFits n call) call fuel L st
  | assign _ _, _, _, _ | ret _, _, _, _ => trivial
  | ite _ _ _ _, _, _, h => fun b st1 hb => by
    have hb := h b st1 hb
    cases b with
    | true => exact blockInRange.along hb
    | false => exact blockInRange.along hb
  | whileLoop _ _ _, _, _, h => fun L1 st1 hm => (h L1 st1 hm).mono fun _ _ => blockInRange.along
  | forLoop _ _ _, _, _, h =>
    ⟨fun hd st1 hx => (h hd st1 hx).1, fun hd st1 hx L1 st2 hm => ((h hd st1 hx).2 L1 st2 hm).mono
      fun _ _ => blockInRange.along⟩

theorem blockInRange.along : ∀ {ss : List Stmt} {L : Locals} {st : Store}, blockInRange n call fuel ss L st →
    blockAlong (RangeFits n call) call fuel ss L st
  | [], _, _, _ => trivial
  | _ :: _, _, _, h => ⟨h.1.along, fun L1 st1 hs => (h.2 L1 st1 hs).along⟩

end

end

end Stmt

namespace Unrolling

variable {n : Nat} {env : TypeEnv}

theorem plain_all {c : Counter} (h : c.plain = true) :
    (c.start.ty = .i64 ∧ c.stop.ty = .i64 ∧ c.step.ty = .i64) ∧
      c.start.plain = true ∧ c.stop.plain = true ∧ c.step.plain = true := by
  simp only [Counter.plain, List.all_cons, List.all_nil, Bool.and_true, Bool.and_eq_true, decide_eq_true_eq] at h
  exact ⟨⟨h.1.1, h.2.1.1, h.2.2.1⟩, h.1.2, h.2.1.2, h.2.2.2⟩

/-- A loop with plain bounds that has been split. -/
theorem plain_halves_simulate {call : Caller} {fuel : Nat} {E : TypeEnv} (hn : 0 < n)
    (hcall : CallersAlike .strict call call) (hsize : ∀ fn args, Spares 0 (fun _ => True) (call fn args)) :
    HalvesSimulate n E env call fuel (fun c body m => c.plain = true ∧
      (n ≠ 1 → Stmt.simpleAll body = true → m.Commutes call ∧ Stmt.blockCommutes call body))
      (Stmt.RangeFits n call) := by
  rintro c body m out V ⟨hp, hr⟩ ⟨h1, hshort, t, p, ht, hparts, rfl⟩ hk hs
  have hsimple := simple_of_short hshort
  obtain ⟨⟨hty1, hty2, hty3⟩, hp1, hp2, hp3⟩ := plain_all hp
  obtain ⟨hc, hbc⟩ := hr h1 hsimple
  obtain ⟨hl, hclear⟩ := halves_scoped (l := ⟨c, body, m, t⟩) hk hs hc hbc
  exact halves_sim hparts (Nat.lt_of_le_of_ne hn fun e => h1 e.symm) hcall hsize hl
    (halves_counts hparts hk ht hty1 hty2 hty3) ⟨hp1, hp2, hp3⟩ (Stmt.simpleAll_not_returns hsimple) hclear

/-- Unrolling loops does not change what a function computes, nor what it leaves in the buffers: if the
function is well scoped and the bounds of its loops are plain, if the loops that are run are in range, and
if the merges that are copied can be evaluated in any order. -/
theorem unrolled_answers_iff {factor : UnrollFactor} {s s' : Session} {f g : Func} (hf : s.find? f.name = some f)
    (h : (pass factor).apply () f s = .ok (g, ()) s') (hscoped : Stmt.blockWellScoped f.body f.inputs = true)
    (hplain : Stmt.blockPlainBounds f.body = true) {args : List Value} {st : Store}
    (hlive : ∀ v ∈ args, ∀ b ∈ v.buffers, b < st.size)
    (hrange : ∀ fuel, Stmt.blockInRange factor.val (s'.call fuel) fuel f.body (.ofList (f.params.zip args)) st)
    (hreorder : factor.val ≠ 1 → ∀ fuel, Stmt.blockReorderable (s'.call fuel) f.body) (d : Dump)
    (cells : BufferId → Array Scalar) :
    s'.Answers f.name args st d cells ↔ s'.Answers g.name args st d cells := by
  refine Outcome.answers_iff fun fuel => ?_
  cases fuel with
  | zero => trivial
  | succ fuel =>
    refine apply_outcome hf h hscoped hlive (fun c body m hp => ?_)
      (plain_halves_simulate factor.pos (Session.call_inStep s'.strict_admits fuel)
        (s'.call_spares (n := 0) (fun _ _ => rfl) fuel))
      (hrange fuel).along
    exact ⟨Stmt.plainBounds_inherited.of_blockPart hplain hp, fun h1 =>
      (Stmt.reorderable_inherited _).of_blockPart (hreorder h1 fuel) hp⟩

/-- Fibonacci numbers, by a loop that carries two values and moves one to the other. -/
def fib : Func where
  name := "fib"
  params := ["n"]
  paramTys := [.i64]
  result := .i64
  env := .ofList [("n", .i64), ("i", .i64), ("a", .i64), ("b", .i64), ("c", .i64)]
  body := [.forLoop ⟨"i", .int64 0, .var "n" .i64, .int64 1⟩
      [.assign (.var "c" .i64) (.prim .add [.var "a" .i64, .var "b" .i64] .i64)]
      (.ofList [("a", .int64 0, .var "b" .i64), ("b", .int64 1, .var "c" .i64)]),
    .ret (.var "a" .i64)]

theorem fib_inRange (call : Caller) (fuel : Nat) (st : Store) :
    Stmt.blockInRange 2 call fuel fib.body (.ofList [("n", .int 7)]) st := by
  refine ⟨fun h st1 hx => ?_, fun _ _ _ => ⟨trivial, fun _ _ _ => trivial⟩⟩
  have hheader : header call (.ofList [("n", .int 7)]) ⟨"i", .int64 0, .var "n" .i64, .int64 1⟩ st =
      .ok ⟨0, 7, 1⟩ st := by
    rfl
  rw [hheader] at hx
  cases hx
  exact ⟨by decide, fun _ _ _ => .of_forall (fun _ _ => ⟨trivial, fun _ _ _ => trivial⟩) _ _ _ _ _ _ _ _⟩

theorem fib_reorderable (call : Caller) : Stmt.blockReorderable call fib.body := by
  refine ⟨⟨fun _ => ⟨.inr fun e he => quiet_of_not_calls ?_, trivial, trivial⟩, trivial, trivial⟩, trivial, trivial⟩
  revert e
  decide

/-- The seventh Fibonacci number, by two steps at a time and one more. -/
theorem unrolled_fib_seven : ∃ g s', (pass ⟨2, by decide⟩).apply () fib { functions := [fib] } = .ok (g, ()) s' ∧
    s'.Answers g.name [.int 7] .empty (Dump.value .empty (.int 13)) Store.empty.cells := by
  have hok : succeeds ((pass ⟨2, by decide⟩).apply () fib { functions := [fib] }) = true := by decide +kernel
  obtain ⟨⟨g, _⟩, s', h⟩ := exists_of_succeeds hok
  have hreg : Session.find? { functions := [fib] } fib.name = some fib := List.find?_cons_of_pos (by decide)
  have hrun : s'.call 1 fib.name [.int 7] .empty = .ok (.int 13) .empty := by
    rw [Session.call_succ ((apply_unrolled h).2.2.1 hreg)]
    rfl
  have hiff : ∀ d cells, s'.Answers fib.name [.int 7] .empty d cells ↔ s'.Answers g.name [.int 7] .empty d cells :=
    unrolled_answers_iff hreg h (by decide) (by decide) (by simp [Value.buffers]) (fun fuel => fib_inRange _ fuel _)
      fun _ fuel => fib_reorderable _
  exact ⟨g, s', h, (hiff _ _).mp ⟨1, _, _, hrun, rfl, fun _ _ => rfl⟩⟩

end Unrolling

end ArrayIR
