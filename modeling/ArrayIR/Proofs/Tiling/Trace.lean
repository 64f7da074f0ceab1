/-
  ArrayIR.Proofs.Tiling.Trace — lowering tiled adverbs, with a log of what is done with tile sizes.

  The logging pass notes by which code each dynamic tiled adverb takes its size out of
  the tuple of sizes, and for each lowered function that is called or inlined, whether the tuple is
  passed. The log runs through all functions lowered on the way. Forgetting the log
  leaves the pass itself (`Traced.lowerAt_forgets`).
-/

import ArrayIR.Proofs.Forgetting
import ArrayIR.Tiling.Lower

namespace ArrayIR

namespace Tiling

/-- What lowering does with the sizes of tiles. -/
inductive Event where
  /-- A tiled adverb takes its size by some code. -/
  | size (code : Block)
  /-- The lowered version of a function is called or inlined, with the tuple or without. -/
  | applied (source lowered : Func) (sizes : Option Expr)

/-- The state of the pass, and what it has done so far. -/
structure Traced where
  state : State
  log : List Event

namespace Traced

abbrev Lower := PassM Traced

abbrev LowerFn := Traced → Func → Compile (Func × Traced)

/-! ## The logging pass -/

/-- Do what the pass does. -/
def quietly {α : Type} (x : Tiling.Lower α) : Lower α := fun t => do
  let (a, st) ← x t.state
  return (a, { t with state := st })

/-- Do what the pass does, and look at the code that it emits. -/
def observed {α : Type} (x : Tiling.Lower α) : Lower (α × Block) := fun t b =>
  match x t.state b with
  | .ok (a, st) b' => .ok ((a, b'.block.drop b.block.length), { t with state := st }) b'
  | .error e b' => .error e b'

def note (e : Event) : Lower Unit := modify fun t => { t with log := t.log ++ [e] }

def tileSize : TilePolicy → Lower Expr
  | .fixed => quietly (Tiling.tileSize .fixed)
  | .dynamic => do
    let (size, code) ← observed (Tiling.tileSize .dynamic)
    note (.size code)
    return size

def function (lower : LowerFn) (f : Func) : Lower (Func × Nat) := do
  if ← reachesTiled f then
    let tiles ← numTiles f
    let param ← quietly (Tiling.sizesFor tiles)
    let t ← get
    let s := t.state
    let (g, inner) ← Build.compile
      (lower ⟨{ sizes := s.sizes, fixedIdx := s.fixedIdx, nestingIdx := s.nestingIdx, param := param }, t.log⟩ f)
    set (⟨{ s with
      fixedIdx := inner.state.fixedIdx, tiling := s.tiling || inner.state.tiling, nestingIdx := s.nestingIdx + tiles },
      inner.log⟩ : Traced)
    return (g, tiles)
  else return (f, 0)

/-- A callable lowered for use by this function, and the function it referred to. -/
def callee (lower : LowerFn) (e : Expr) (r : Replacement Lower) : Lower (Func × Callee) := do
  let f ← Build.callee e
  let captured ← r.captures e
  let (g, tiles) ← function lower f
  return (f, ⟨g, captured, tiles⟩)

def callableValue (lower : LowerFn) (e : Expr) (r : Replacement Lower) : Lower Expr := do
  let f ← Build.callee e
  if 0 < (← numTiles f) then fail (.dynamicTilesInCallable f.name)
  else
    let (_, c) ← callee lower e r
    match e with
    | .fnRef _ _ => return .fnRefTo c.fn.name
    | _ => return .closureOver c.fn.name c.captured

/-- The tuple of sizes, for a function that is applied. -/
def sizesFor (source lowered : Func) (tiles : Nat) : Lower (Option Expr) := do
  let sizes ← quietly (Tiling.sizesFor tiles)
  note (.applied source lowered sizes)
  return sizes

def step (lower : LowerFn) (e : Expr) (below : List (Replacement Lower)) : Lower Expr :=
  match e, below with
  | .tiledMap f _ axes tile _, rf :: rs => do
    let args ← rs.mapM (·.self)
    let extent ← iterationExtent "tiled map" args axes
    let size ← tileSize tile
    let (source, c) ← callee lower f rf
    let sizes ← sizesFor source c.fn c.tiles
    mapLoop c args axes extent size sizes
  | .tiledReduce f combine _ _ axes tile _, rf :: rc :: rinit :: rs => do
    let args ← rs.mapM (·.self)
    let extent ← iterationExtent "tiled reduce" args axes
    let size ← tileSize tile
    let (source, c) ← callee lower f rf
    let (combineSource, k) ← callee lower combine rc
    let init ← rinit.self
    let sizes ← sizesFor source c.fn c.tiles
    let combineSizes ← sizesFor combineSource k.fn k.tiles
    reduceLoop c k init args axes extent size sizes combineSizes
  | .call f _ t, rs => do
    let f ← Build.lookupFn f
    let args ← rs.mapM (·.self)
    let (g, tiles) ← function lower f
    return .call g.name (args ++ (← sizesFor f g tiles).toList) t
  | .fnRef _ _, _ | .closure _ _ _, _ => callableValue lower e ⟨e.rebuild below, below.mapM (·.self)⟩
  | .var x t, _ => do return .var x (((← get).state.retyped.get? x).getD t)
  | _, _ => e.rebuild below

def expr (lower : LowerFn) (e : Expr) : Lower Expr := (e.replace (step lower)).self

def assign (lower : LowerFn) (target value : Expr) : Lower Stmt := do
  let value ← expr lower value
  match target with
  | .var x t =>
    if value.ty ≠ t ∧ value.ty.isCallable then
      modify fun s => { s with state := { s.state with retyped := s.state.retyped.insert x value.ty } }
      return .assign (← Build.declare x value.ty) value
    else return .assign (← expr lower target) value
  | _ => return .assign (← expr lower target) value

def pass (lower : LowerFn) (sizes : List Int64) : Pass Traced where
  key := (Tiling.pass (fun _ _ => throw .exhausted) sizes).key
  enter f := quietly (enter f)
  leave t := leave t.state
  expr := expr lower
  assign := assign lower

def lowerAt : Nat → LowerFn
  | 0, _, _ => throw .exhausted
  | depth + 1, t, f => (pass (lowerAt depth) t.state.sizes).apply t f

/-! ## Forgetting the log -/

variable {α β : Type} {L : LowerFn} {lower : Tiling.LowerFn}

theorem quietly_forgets (x : Tiling.Lower α) : Forgets state (quietly x) x := by
  intro t b
  show forget state (EStateM.bind (x t.state) (fun p => pure (p.1, { t with state := p.2 })) b) = x t.state b
  unfold EStateM.bind
  cases x t.state b with
  | error e b' => rfl
  | ok p b' => rfl

/-- Notes make no difference. -/
theorem note_forgets (e : Event) {X : Lower α} {x : Tiling.Lower α} (h : Forgets state X x) :
    Forgets state (note e >>= fun _ => X) x := fun t b => h { t with log := t.log ++ [e] } b

theorem tileSize_forgets (tile : TilePolicy) : Forgets state (tileSize tile) (Tiling.tileSize tile) := by
  cases tile with
  | fixed => exact quietly_forgets _
  | dynamic =>
    intro t b
    show forget state (EStateM.bind (observed (Tiling.tileSize .dynamic) t)
      (fun r => pure (r.1.1, { r.2 with log := r.2.log ++ [.size r.1.2] })) b) = _
    unfold EStateM.bind observed
    cases Tiling.tileSize .dynamic t.state b with
    | error e b' => rfl
    | ok r b' => rfl

theorem sizesFor_forgets (source lowered : Func) (tiles : Nat) :
    Forgets state (sizesFor source lowered tiles) (Tiling.sizesFor tiles) := by
  have hread : Forgets state (sizesFor source lowered tiles) (Tiling.sizesFor tiles >>= pure) :=
    (quietly_forgets _).bind fun _ => note_forgets _ (.pure _)
  rwa [bind_pure] at hread

/-- How the functions applied are lowered, with a log and without. -/
def Follows (L : LowerFn) (lower : Tiling.LowerFn) : Prop := ∀ t f s, forget state (L t f s) = lower t.state f s

/-- What is done with a function lowered. -/
theorem compile_forgets {t : Traced} {st : State} {f : Func} (h : ∀ s, forget state (L t f s) = lower st f s)
    {F : Func × Traced → Lower β} {g : Func × State → Tiling.Lower β}
    (hF : ∀ k inner, Forgets state (F (k, inner)) (g (k, inner.state))) :
    Forgets state (liftM (Build.compile (L t f)) >>= F) (liftM (Build.compile (lower st f)) >>= g) := by
  intro u b
  have hb := h b.session
  show forget state (EStateM.bind (EStateM.bind (Build.compile (L t f)) fun p => pure (p, u)) (fun p => F p.1 p.2) b) =
    EStateM.bind (EStateM.bind (Build.compile (lower st f)) fun p => pure (p, u.state)) (fun p => g p.1 p.2) b
  unfold EStateM.bind Build.compile
  rw [← hb]
  cases L t f b.session with
  | error e s => rfl
  | ok p s => exact hF p.1 p.2 u _

theorem function_forgets (h : Follows L lower) (f : Func) : Forgets state (function L f) (Tiling.function lower f) := by
  refine .bind (.lift _) fun b => ?_
  cases b with
  | false => exact .pure _
  | true =>
    refine .bind (.lift _) fun tiles => .bind (quietly_forgets _) fun param => .look fun t => ?_
    exact compile_forgets (h _ f) fun k inner => .bind (.put rfl) fun _ => .pure _

theorem callee_forgets (h : Follows L lower) (e : Expr) {R : Replacement Lower} {r : Replacement Tiling.Lower}
    (hr : Forgets.Replacing state R r) {F : Func × Callee → Lower β} {g : Callee → Tiling.Lower β}
    (hF : ∀ source c, Forgets state (F (source, c)) (g c)) :
    Forgets state (callee L e R >>= F) (Tiling.callee lower e r >>= g) := by
  simp only [callee, Tiling.callee, bind_assoc, pure_bind]
  refine .bind (.lift _) fun f => (Forgets.captures hr e).bind fun captured => (function_forgets h f).bind fun p => ?_
  exact hF f _

theorem callableValue_forgets (h : Follows L lower) (e : Expr) {R : Replacement Lower} {r : Replacement Tiling.Lower}
    (hr : Forgets.Replacing state R r) : Forgets state (callableValue L e R) (Tiling.callableValue lower e r) := by
  refine .bind (.lift _) fun f => .bind (.lift _) fun tiles => ?_
  show Forgets state (if 0 < tiles then _ else _) (if 0 < tiles then _ else _)
  split
  · exact .fail _
  · refine callee_forgets h e hr fun source c => ?_
    cases e with
    | _ => exact .pure _

theorem step_forgets (h : Follows L lower) (e : Expr) (below : List (Replacement Lower))
    (below' : List (Replacement Tiling.Lower)) (hb : List.Forall₂ (Forgets.Replacing state) below below') :
    Forgets state (step L e below) (Tiling.step lower e below') := by
  have hrebuild : ∀ e : Expr, Forgets state (e.rebuild below) (e.rebuild below') := fun e =>
    (Forgets.selves hb).bind fun _ => .pure _
  cases e with
  | tiledMap f args axes tile t =>
    obtain _ | ⟨hf, hs⟩ := hb
    · exact hrebuild _
    · refine (Forgets.selves hs).bind fun args => .bind (.lift _) fun extent =>
        (tileSize_forgets tile).bind fun size => ?_
      exact callee_forgets h f hf fun source c => (sizesFor_forgets _ _ _).bind fun _ => .lift _
  | tiledReduce f c init args axes tile t =>
    obtain _ | ⟨hf, _ | ⟨hc, _ | ⟨hi, hs⟩⟩⟩ := hb
    · exact hrebuild _
    · exact hrebuild _
    · exact hrebuild _
    · refine (Forgets.selves hs).bind fun args => .bind (.lift _) fun extent =>
        (tileSize_forgets tile).bind fun size => ?_
      refine callee_forgets h f hf fun source d => callee_forgets h c hc fun combineSource k => hi.self.bind fun _ => ?_
      exact (sizesFor_forgets _ _ _).bind fun _ => (sizesFor_forgets _ _ _).bind fun _ => .lift _
  | call fn args t =>
    refine .bind (.lift _) fun f => (Forgets.selves hb).bind fun args => (function_forgets h f).bind fun p => ?_
    exact (sizesFor_forgets _ _ _).bind fun _ => .pure _
  | fnRef fn t => exact callableValue_forgets h _ ⟨hrebuild _, Forgets.selves hb⟩
  | closure fn vs t => exact callableValue_forgets h _ ⟨hrebuild _, Forgets.selves hb⟩
  | var x t => exact .look fun _ => .pure _
  | _ => exact hrebuild _

theorem expr_forgets (h : Follows L lower) (e : Expr) : Forgets state (expr L e) (Tiling.expr lower e) :=
  (Forgets.replace (step_forgets h) e).self

theorem assign_forgets (h : Follows L lower) (target value : Expr) :
    Forgets state (assign L target value) (Tiling.assign lower target value) := by
  refine (expr_forgets h value).bind fun v => ?_
  have htarget : Forgets state (expr L target >>= fun t => pure (Stmt.assign t v))
      (Tiling.expr lower target >>= fun t => pure (Stmt.assign t v)) :=
    (expr_forgets h target).bind fun _ => .pure _
  cases target with
  | var x t =>
    show Forgets state (if v.ty ≠ t ∧ v.ty.isCallable then _ else _) (if v.ty ≠ t ∧ v.ty.isCallable then _ else _)
    split
    · exact .bind (.update fun _ => rfl) fun _ => .bind (.lift _) fun _ => .pure _
    · exact htarget
  | _ => exact htarget

theorem pass_forgets (h : Follows L lower) (sizes : List Int64) :
    (pass L sizes).Forgets state (Tiling.pass lower sizes) where
  enter _ := quietly_forgets _
  leave _ _ := rfl
  expr := expr_forgets h
  binding _ := .pure _
  assign := assign_forgets h
  loop _ _ _ := .pure _

/-- Forgetting the log leaves what the pass does. -/
theorem lowerAt_forgets (depth : Nat) : Follows (lowerAt depth) (Tiling.lowerAt depth) := by
  induction depth with
  | zero => exact fun _ _ _ => rfl
  | succ depth ih => exact fun t f s => (pass_forgets ih t.state.sizes).apply t f s

end Traced

end Tiling

end ArrayIR
