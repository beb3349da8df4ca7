import ActiveSet.Matrix
import ActiveSet.Numeric.Rotation

/-!
# Eigenvectors of a symmetric matrix in binary64

Rotations of rows and columns alike make the matrix diagonal; the same rotations of the unit vectors
give its eigenvectors.
-/

namespace ActiveSet.Numeric

/-- `Jᵀ A J` for the product `J` of the rotations so far, whose columns are `basis`. -/
structure Diagonalizing where
  matrix : Columns
  basis : Columns

def entryAt (m : Columns) (i j : Nat) : Float := (m.getD i #[]).getD j 0

def transposeSquare (m : Columns) : Columns :=
  Array.ofFn fun i : Fin m.size => m.map fun c => c.getD i.val 0

/-- Makes the entry at one pair of places vanish, unless it is negligible. -/
def Diagonalizing.step (floor : Float) (acc : Diagonalizing × Bool) (pair : Nat × Nat) :
    Diagonalizing × Bool :=
  let (p, q) := pair
  let m := acc.1.matrix
  let g := entryAt m p q
  if g.abs ≤ floor then acc
  else
    let r := Rotation.annihilating (entryAt m p p) (entryAt m q q) g
    let half := r.apply m p q
    (⟨r.apply (transposeSquare half) p q, r.apply acc.1.basis p q⟩, true)

def diagonalize (m : Columns) : Diagonalizing :=
  let total := m.foldl (fun s c => s + dot c c) 0
  let order := pairs m.size
  settle (fun d => order.foldl (Diagonalizing.step (1e-17 * total.sqrt)) (d, false)) 60
    ⟨m, identity m.size⟩

/-- Eigenvalues in ascending order, each with a unit eigenvector. -/
def eigenpairs (A : Matrix Float) : List (Float × List Float) :=
  let m := ofLists A.rows
  let scale := m.foldl (fun s c => c.foldl (fun s x => max s x.abs) s) 0
  if scale ≤ 0 then
    (List.range m.size).map fun j => (0, ((identity m.size).getD j #[]).toList)
  else
    let d := diagonalize (m.map fun c => c.map (· / scale))
    let found := (List.range m.size).map fun j =>
      (scale * entryAt d.matrix j j, (d.basis.getD j #[]).toList)
    found.mergeSort fun a b => a.1 ≤ b.1

end ActiveSet.Numeric
