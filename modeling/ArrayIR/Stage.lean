/-
  ArrayIR.Stage — passes with their parameters, and sequences of them.

  The standard lowering takes a function to explicit loops: tiled adverbs first, then
  the other adverbs, then unrolling, as the session's options say.
-/

import ArrayIR.Pass.Adverbs
import ArrayIR.Pass.Unrolling
import ArrayIR.Tiling.Lower

namespace ArrayIR

/-- A pass with its parameters. -/
inductive Stage where
  | identity
  | rename (start : Renaming)
  | adverbs
  | tiling (sizes : List Int64)
  | unroll (factor : UnrollFactor)

namespace Stage

/-- Unrolling by a factor, which must not be zero. -/
def unrolling (factor : Nat) : Except Error Stage := do return .unroll (← UnrollFactor.ofNat factor)

/-- Rebuild a function. -/
def apply (f : Func) : Stage → Compile Func
  | identity => do return (← identityPass.apply () f).1
  | rename r => do return (← Renaming.pass.apply r f).1
  | adverbs => do return (← (Adverbs.passIn (← get)).apply () f).1
  | tiling sizes => do return (← (Tiling.passIn (← get) sizes).apply { sizes := sizes } f).1
  | unroll factor => do return (← (Unrolling.pass factor).apply () f).1

/-- Rebuild a function unless the session knows the result. -/
def applyCached (f : Func) : Stage → Compile Func
  | identity => identityPass.applyCached () f
  | rename r => Renaming.pass.applyCached r f
  | adverbs => do (Adverbs.passIn (← get)).applyCached () f
  | tiling sizes => do (Tiling.passIn (← get) sizes).applyCached { sizes := sizes } f
  | unroll factor => (Unrolling.pass factor).applyCached () f

/-- Rebuild one statement in the scope being built. -/
def stmt (s : Stmt) : Stage → Build Stmt
  | identity => (identityPass.stmt s).run' ()
  | rename r => (Renaming.pass.stmt s).run' r
  | adverbs => do ((Adverbs.passIn (← get).session).stmt s).run' ()
  | tiling sizes => do ((Tiling.passIn (← get).session sizes).stmt s).run' { sizes := sizes }
  | unroll factor => ((Unrolling.pass factor).stmt s).run' ()

/-- Apply stages one after the other, each to what the one before it made. -/
def pipeline (stages : List Stage) (f : Func) : Compile Func := stages.foldlM applyCached f

end Stage

/-- The stages of the standard lowering. -/
def Options.stages (o : Options) : Except Error (List Stage) := do
  return [.tiling o.tileSizes, .adverbs, ← Stage.unrolling o.unrollFactor]

/-- Lower a function to explicit loops. -/
def lower (f : Func) : Compile Func := do
  let stages ← (← get).options.stages
  Stage.pipeline stages f

end ArrayIR
