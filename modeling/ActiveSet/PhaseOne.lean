import ActiveSet.Graph.Minimize
import ActiveSet.Problem

/-!
# Phase one

A feasible point is found by maximising the smallest slack `t` of the inequalities, under the
equalities and `t ≤ 1`. Where the inequalities leave room, the point lies inside all of them.
-/

namespace ActiveSet.PhaseOne

variable {K : Type} [Scalar K]

/-- A point over an ordering with the smallest slack that it leaves, if a program was solved. -/
structure Found (K : Type) where
  point : Point K
  slack : Option K

/-- The smallest slack `b - aᵀx` of the inequalities, at most one. -/
def slackAt (inequalities : List (Inequality K)) (x : Point K) : Except (Fault K) K := do
  let excesses ← inequalities.mapM fun f => f.excess x
  return (Vec.neg excesses).foldl Scalar.smaller 1

/-- The system with one more column that holds `c` everywhere. -/
def widen (c : K) (s : LinearSystem K) : LinearSystem K where
  matrix :=
    { cols := s.matrix.cols + 1
      rows := s.matrix.rows.map (· ++ [c])
      rect := by
        intro row h
        obtain ⟨r, hr, rfl⟩ := List.mem_map.1 h
        simp [s.matrix.rect r hr] }
  rhs := s.rhs

/-- Maximise `t` over `A x + t ≤ b`, `C x = d` and `t ≤ 1`, with `t` as the last variable. -/
def program (n : Nat) (inequalities equalities : LinearSystem K) : LinearProgram K where
  cost := Vec.zeros n ++ [-1]
  atMost := widen 1 inequalities
  equal := widen 0 equalities
  ranges := List.replicate n {} ++ [{ upper := some 1 }]

/-- The zero point if nothing is asked, else a point of largest smallest slack. -/
def findFeasible (kernels : Kernels K) (equalities : List (Equality K))
    (inequalities : List (Inequality K)) (ordering : List Key) (dims : Keyed Nat) (tol : K) :
    Except (Fault K) (Found K) := do
  let sized ← Point.sized ordering dims
  let n := Point.totalDim sized
  if n = 0 ∨ equalities = [] ∧ inequalities = [] then
    return { point := Point.zero (Keyed.ofList sized), slack := none }
  let C ← LinearSystem.ofGraph (Equality.graph equalities) ordering dims
  let A ← LinearSystem.ofGraph (Equality.graph (inequalities.map (·.toEquality))) ordering dims
  if !(C.isFinite && A.isFinite) then throw .badValue
  match kernels.linearProgram (program n A C) with
  | .infeasible => throw .inconsistentEqualities
  | .failed => throw .badValue
  | .optimal v =>
    let slack := v.getD n 0
    if slack < -tol then throw (.unsatisfiable slack)
    return { point := ← Point.split (v.take n) ordering dims, slack := some slack }

end ActiveSet.PhaseOne
