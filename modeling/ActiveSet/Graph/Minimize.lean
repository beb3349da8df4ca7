import ActiveSet.Kernels

/-!
# Minimising a graph

The point of least error among those that satisfy a graph of constraints. Without constraints it
is a least-squares solution; with constraints it is the first part of a solution of the saddle
system `[[AᵀA, Cᵀ], [C, 0]]`. Of several minimisers the one of least norm is taken.
-/

namespace ActiveSet

namespace LinearSystem

variable {K : Type} [Scalar K]

/-- The single equation `0 = 0`, which stands for a system without equations. -/
def vacuous (n : Nat) : LinearSystem K := ⟨.zero 1 n, [0]⟩

/-- The normal equations of `A v = b` under the constraints `C v = d`, with multipliers. -/
def saddle (cost constraints : LinearSystem K) : LinearSystem K where
  matrix :=
    (cost.matrix.gram.beside constraints.matrix.transpose).above
      (constraints.matrix.beside (.zero constraints.matrix.height constraints.matrix.height))
  rhs := cost.matrix.columns.map (Vec.dotStored · cost.rhs) ++ constraints.rhs

/-- The system whose least-squares solution begins with the constrained minimiser. -/
def toSolve (n : Nat) (cost constraints : LinearSystem K) : LinearSystem K :=
  if constraints.matrix.height = 0 then
    if cost.matrix.height = 0 then vacuous n else cost
  else saddle cost constraints

end LinearSystem

namespace Graph

variable {K : Type} [Scalar K]

/--
The minimiser of `cost` subject to `constraints` over an ordering, without one that of first
appearance. `known` gives the dimensions of keys that no factor mentions. With `unique` set, a
system without full rank is refused.
-/
def minimize (kernels : Kernels K) (cost constraints : Graph K) (ordering : Option (List Key))
    (known : Option (Keyed Nat)) (unique : Bool) : Except (Fault K) (Point K) := do
  let costDims ← cost.dims
  let constraintDims ← constraints.dims
  let dims ← Keyed.mergeDims (known.getD .empty) (costDims.entries ++ constraintDims.entries)
  let ordering := ordering.getD (firstAppearances (cost.keys ++ constraints.keys))
  let n := Point.totalDim (← Point.sized ordering dims)
  if n = 0 then return .empty
  let A ← LinearSystem.ofGraph cost ordering dims
  let C ← LinearSystem.ofGraph constraints ordering dims
  let system := LinearSystem.toSolve n A C
  if !system.isFinite then throw .badValue
  let answer := kernels.leastSquares system
  let size := n + C.matrix.height
  if unique && answer.rank < size then throw (.singular ordering.length answer.rank size)
  Point.split (answer.solution.take n) ordering dims

end Graph

end ActiveSet
