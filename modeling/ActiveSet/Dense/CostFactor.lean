import ActiveSet.Kernels

/-!
# A quadratic form as a sum of squares

The form `½xᵀPx + qᵀx` is `½‖Lx − r‖²` up to a constant, with a row `√s vᵀ` of `L` for every
eigenpair `(s, v)` of the symmetric part of `P` whose eigenvalue is not negligible. That needs `P`
without negative eigenvalues and `q` in the span of the eigenvectors that are kept.
-/

namespace ActiveSet.CostFactor

variable {K : Type} [Scalar K]

/-- The symmetric part of a square matrix; a single row or column is repeated to a square. -/
def symmetricPart (P : Matrix K) : Except (Fault K) (Matrix K) :=
  let half (n : Nat) (entry : Nat → Nat → K) : Matrix K :=
    { cols := n
      rows := (List.range n).map fun i => (List.range n).map fun j => 0.5 * (entry i j + entry j i)
      rect := by
        intro row h
        obtain ⟨i, _, rfl⟩ := List.mem_map.1 h
        simp }
  if P.height = P.cols then .ok (half P.cols fun i j => (P.rows.getD i []).getD j 0)
  else if P.height = 1 then .ok (half P.cols fun _ j => (P.rows.getD 0 []).getD j 0)
  else if P.cols = 1 then .ok (half P.height fun i _ => (P.rows.getD i []).getD 0 0)
  else .error .badValue

/-- What the tolerance is relative to: the largest magnitude of an eigenvalue, at least one. -/
def eigenScale (pairs : List (K × List K)) : K :=
  match pairs.map fun e => Scalar.abs e.1 with
  | [] => 1
  | s :: rest => Scalar.larger 1 (Scalar.greatestFrom s rest)

/-- The least of some eigenvalues. -/
def leastEigenvalue? (pairs : List (K × List K)) : Option K :=
  match pairs.map (·.1) with
  | [] => none
  | s :: rest => some (rest.foldl Scalar.smaller s)

/-- The rows `√s vᵀ`. -/
def rows (n : Nat) (kept : List (K × List K)) : Matrix K where
  cols := n
  rows := kept.map fun e => Vec.fit n (Vec.scale (Scalar.sqrt e.1) e.2)
  rect := by
    intro row h
    obtain ⟨e, _, rfl⟩ := List.mem_map.1 h
    simp

/-- The right-hand side `−vᵀq / √s` of each row. -/
def rhs (q : List K) (kept : List (K × List K)) : List K :=
  kept.map fun e => -(Vec.dot e.2 q) / Scalar.sqrt e.1

/-- The squares of a form, from the eigenpairs of its symmetric part. -/
def ofEigenpairs (n : Nat) (pairs : List (K × List K)) (q : List K) (tol : K) :
    Except (Fault K) (LinearSystem K) := do
  let cutoff := tol * eigenScale pairs
  match leastEigenvalue? pairs with
  | some s => if s < -cutoff then throw (.refused (.indefiniteHessian s))
  | none => pure ()
  let kept := pairs.filter fun e => cutoff < e.1
  if q.length ≠ n then throw .badValue
  let L := rows n kept
  let r := rhs q kept
  let outside := Vec.norm (Vec.add (L.transpose.mulVec r) q)
  if 1e-8 * Scalar.larger 1 (Vec.norm q) < outside then throw (.refused .costOutsideRange)
  return ⟨L, r⟩

def ofForm (kernels : Kernels K) (P : Matrix K) (q : List K) (tol : K) :
    Except (Fault K) (LinearSystem K) := do
  let S ← symmetricPart P
  if !S.isFinite then throw .badValue
  ofEigenpairs S.cols (kernels.eigenpairs S) q tol

end ActiveSet.CostFactor
