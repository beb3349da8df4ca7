import ActiveSet.Graph

/-!
# Numerical kernels

The three computations that the algorithm delegates: a least-squares solution, an optimum of a
linear program and the eigenvectors of a symmetric matrix. They are a parameter of everything
built on them.
-/

namespace ActiveSet

/--
The values that a variable of a linear program may take; a bound that is absent does not bind.
-/
structure Range (K : Type) where
  lower : Option K := none
  upper : Option K := none

/-- Minimise `costᵀ v` over `A v ≤ b`, `C v = d` and the range of every variable. -/
structure LinearProgram (K : Type) where
  cost : List K
  atMost : LinearSystem K
  equal : LinearSystem K
  ranges : List (Range K)

/-- What a solver of linear programs answers. -/
inductive LinearProgram.Outcome (K : Type)
  | optimal (v : List K)
  | infeasible
  | failed

/-- The minimum-norm least-squares solution of a system, and the rank of its matrix. -/
structure LeastSquares (K : Type) where
  solution : List K
  rank : Nat

structure Kernels (K : Type) where
  leastSquares : LinearSystem K → LeastSquares K
  linearProgram : LinearProgram K → LinearProgram.Outcome K
  /-- The eigenvalues of a symmetric matrix in ascending order, each with a unit eigenvector. -/
  eigenpairs : Matrix K → List (K × List K)

end ActiveSet
