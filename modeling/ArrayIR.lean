import ArrayIR.Adverb
import ArrayIR.Builder
import ArrayIR.Builder.Adverb
import ArrayIR.Decimal.Layout
import ArrayIR.Decimal.Shortest
import ArrayIR.Dump
import ArrayIR.Error
import ArrayIR.Error.Message
import ArrayIR.Eval
import ArrayIR.Expr
import ArrayIR.Expr.Text
import ArrayIR.Func.Text
import ArrayIR.Func.WellFormed
import ArrayIR.NameMap
import ArrayIR.Pass
import ArrayIR.Pass.Adverbs
import ArrayIR.Pass.Inlining
import ArrayIR.Pass.Renaming
import ArrayIR.Pass.Unrolling
import ArrayIR.Prim
import ArrayIR.Proofs.Answer
import ArrayIR.Proofs.Copy
import ArrayIR.Proofs.Emission
import ArrayIR.Proofs.Frame
import ArrayIR.Proofs.Fuel
import ArrayIR.Proofs.Integers
import ArrayIR.Proofs.Lockstep
import ArrayIR.Proofs.Pairing
import ArrayIR.Proofs.Publish
import ArrayIR.Proofs.Quiet
import ArrayIR.Proofs.Renamed
import ArrayIR.Proofs.Scope
import ArrayIR.Proofs.Scoped
import ArrayIR.Proofs.Simulation
import ArrayIR.Proofs.Spares
import ArrayIR.Proofs.Success
import ArrayIR.Proofs.Trips
import ArrayIR.Proofs.Unrolling.Ahead
import ArrayIR.Proofs.Unrolling.Body
import ArrayIR.Proofs.Unrolling.Emitted
import ArrayIR.Proofs.Unrolling.Halves
import ArrayIR.Proofs.Unrolling.Meaning
import ArrayIR.Proofs.Unrolling.Split
import ArrayIR.Scalar
import ArrayIR.Scalar.Arith
import ArrayIR.Session
import ArrayIR.Shape
import ArrayIR.Shape.Infer
import ArrayIR.Stage
import ArrayIR.Stmt
import ArrayIR.Text.Quoted
import ArrayIR.Text.Unprintable
import ArrayIR.Tiling.Lower
import ArrayIR.Tiling.Reach
import ArrayIR.Ty
import ArrayIR.Value
import ArrayIR.View
import ArrayIR.Proofs.Inlining.Splice
import ArrayIR.Proofs.Inlining.Copies
import ArrayIR.Proofs.Appending
import ArrayIR.Proofs.Lowering.Frozen
import ArrayIR.Proofs.Elimination.Pipeline
import ArrayIR.Proofs.Tiling.Threading
import ArrayIR.Proofs.Definitions
import ArrayIR.Proofs.Building.Assembled
import ArrayIR.Proofs.Growth.Failure
import ArrayIR.Proofs.Folding
import ArrayIR.Proofs.Unrolling.Failure
import ArrayIR.Proofs.Unrolling.Visits
import ArrayIR.Proofs.Unrolling.Steady
import ArrayIR.Proofs.Places
import ArrayIR.Proofs.Storing
import ArrayIR.Proofs.Shapes.Slice
import ArrayIR.Proofs.Adverbs.Slices
import ArrayIR.Proofs.Apart
import ArrayIR.Proofs.Adverbs.Beside
import ArrayIR.Proofs.Adverbs.Stacking
import ArrayIR.Proofs.Adverbs.Map
import ArrayIR.Proofs.Adverbs.Pairs
import ArrayIR.Proofs.Adverbs.Folds
import ArrayIR.Proofs.Again
import ArrayIR.Proofs.Bounds
import ArrayIR.Proofs.Elimination.Clearing
import ArrayIR.Proofs.Fresh
import ArrayIR.Proofs.Shapes.Allocation
import ArrayIR.Proofs.Tiling.Lifting
import ArrayIR.Proofs.Tiling.Partition
import ArrayIR.Proofs.Names
import ArrayIR.Proofs.Tiling.Paths
import ArrayIR.Proofs.Idle
import ArrayIR.Proofs.RowMajor
import ArrayIR.Proofs.Shapes.Indexing
