import ActiveSet.Kernels
import ActiveSet.Numeric.Rotation

/-!
# Least squares in binary64

Rotations of the columns of `A` give `A V = U` with orthogonal columns on both sides. The lengths
of the columns of `U` are the singular values; the minimum-norm solution leaves out those that are
zero.
-/

namespace ActiveSet.Numeric

/-- A singular value counts as zero up to this part of the largest one. -/
def rankTolerance : Float := 1e-11

/-- The columns of `U = A V` and of the orthogonal `V`. -/
structure Turned where
  turned : Columns
  basis : Columns

/--
Makes one pair of columns orthogonal, unless it is or one of the two has no length to speak of.
-/
def Turned.step (floor : Float) (acc : Turned × Bool) (pair : Nat × Nat) : Turned × Bool :=
  let a := acc.1.turned.getD pair.1 #[]
  let b := acc.1.turned.getD pair.2 #[]
  let aa := dot a a
  let bb := dot b b
  let ab := dot a b
  if aa ≤ floor || bb ≤ floor || ab.abs ≤ 1e-16 * (aa * bb).sqrt then acc
  else
    let r := Rotation.annihilating aa bb ab
    (⟨r.apply acc.1.turned pair.1 pair.2, r.apply acc.1.basis pair.1 pair.2⟩, true)

/-- Rotates until all columns are orthogonal. -/
def orthogonalize (columns : Columns) : Turned :=
  let total := columns.foldl (fun s c => s + dot c c) 0
  let order := pairs columns.size
  settle (fun t => order.foldl (Turned.step (1e-30 * total)) (t, false)) 60
    ⟨columns, identity columns.size⟩

/-- The solution from the turned columns: the part of `b` along each of them, turned back. -/
def Turned.solve (t : Turned) (b : Array Float) : LeastSquares Float :=
  let lengths := t.turned.map fun c => (dot c c).sqrt
  let largest := lengths.foldl max 0
  let kept := (Array.range lengths.size).filter fun j =>
    rankTolerance * largest < lengths.getD j 0
  let x := kept.foldl (fun x j =>
    let u := t.turned.getD j #[]
    let s := lengths.getD j 1
    let w := dot (u.map (· / s)) b / s
    (x.zip (t.basis.getD j #[])).map fun e => e.1 + w * e.2) (Array.replicate lengths.size 0)
  { solution := x.toList, rank := kept.size }

/-- The minimum-norm least-squares solution, computed with entries scaled to at most one. -/
def leastSquares (system : LinearSystem Float) : LeastSquares Float :=
  let columns := ofLists system.matrix.columns
  let scale := columns.foldl (fun s c => c.foldl (fun s x => max s x.abs) s) 0
  if scale ≤ 0 then { solution := List.replicate system.matrix.cols 0, rank := 0 }
  else
    (orthogonalize (columns.map fun c => c.map (· / scale))).solve
      (system.rhs.map (· / scale)).toArray

end ActiveSet.Numeric
