import ActiveSet.Tensor
import ActiveSet.Vec

/-!
# Matrices

Rows of one length. The number of columns is kept beside the rows, so that a matrix without rows
still has its width.
-/

namespace ActiveSet

structure Matrix (K : Type) where
  cols : Nat
  rows : List (List K)
  rect : ∀ row ∈ rows, row.length = cols

namespace Vec

variable {K : Type} [Scalar K]

/-- A vector cut or filled up with zeros to length `n`. -/
def fit (n : Nat) (v : List K) : List K := (v ++ zeros n).take n

@[simp] theorem length_fit (n : Nat) (v : List K) : (fit n v).length = n := by simp [fit]

theorem fit_eq_self {n : Nat} {v : List K} (h : v.length = n) : fit n v = v := by
  subst h
  simp [fit]

end Vec

namespace Matrix

variable {K : Type}

def height (A : Matrix K) : Nat := A.rows.length

/-- The matrix with the given rows, if they have the given length. -/
def ofRows? (cols : Nat) (rows : List (List K)) : Option (Matrix K) :=
  if h : ∀ row ∈ rows, row.length = cols then some ⟨cols, rows, h⟩ else none

/-- The matrix of a single row. -/
def ofRow (row : List K) : Matrix K := ⟨row.length, [row], by simp⟩

variable [Scalar K]

def zero (height cols : Nat) : Matrix K where
  cols := cols
  rows := List.replicate height (Vec.zeros cols)
  rect := by
    intro row h
    simp [List.eq_of_mem_replicate h]

def identity (n : Nat) : Matrix K where
  cols := n
  rows := (List.range n).map (Vec.unit n)
  rect := by
    intro row h
    obtain ⟨j, _, rfl⟩ := List.mem_map.1 h
    simp

/-- Column `j`, from the first row to the last. -/
def column (A : Matrix K) (j : Nat) : List K := A.rows.map fun row => row.getD j 0

def columns (A : Matrix K) : List (List K) := (List.range A.cols).map A.column

def transpose (A : Matrix K) : Matrix K where
  cols := A.height
  rows := A.columns
  rect := by
    intro row h
    obtain ⟨j, _, rfl⟩ := List.mem_map.1 h
    simp [column, height]

def mulVec (A : Matrix K) (x : List K) : List K := A.rows.map fun row => Vec.dot row x

/-- The Gram matrix `AᵀA`. -/
def gram (A : Matrix K) : Matrix K where
  cols := A.cols
  rows := A.columns.map fun c => A.columns.map (Vec.dotStored c)
  rect := by
    intro row h
    obtain ⟨c, _, rfl⟩ := List.mem_map.1 h
    simp [columns]

/-- Two matrices side by side. -/
def beside (A B : Matrix K) : Matrix K where
  cols := A.cols + B.cols
  rows := List.zipWith (· ++ ·) A.rows B.rows
  rect := by
    intro row h
    obtain ⟨i, hi, rfl⟩ := List.mem_iff_getElem.1 h
    simp only [List.length_zipWith] at hi
    simp [List.getElem_zipWith, A.rect _ (List.getElem_mem _), B.rect _ (List.getElem_mem _)]

/-- The rows of two matrices of one width, those of the first above those of the second. -/
def above (A B : Matrix K) : Matrix K where
  cols := A.cols
  rows := A.rows ++ B.rows.map (Vec.fit A.cols)
  rect := by
    intro row h
    rcases List.mem_append.1 h with h | h
    · exact A.rect row h
    · obtain ⟨_, _, rfl⟩ := List.mem_map.1 h
      simp

def hasNaN (A : Matrix K) : Bool := A.rows.any Vec.hasNaN

def isFinite (A : Matrix K) : Bool := A.rows.all fun row => row.all Scalar.isFinite

@[simp] theorem length_mulVec (A : Matrix K) (x : List K) : (A.mulVec x).length = A.height := by
  simp [mulVec, height]

@[simp] theorem height_transpose (A : Matrix K) : A.transpose.height = A.cols := by
  simp [transpose, columns, height]

@[simp] theorem cols_transpose (A : Matrix K) : A.transpose.cols = A.height := rfl

@[simp] theorem height_identity (n : Nat) : (identity n : Matrix K).height = n := by
  simp [identity, height]

end Matrix

namespace Tensor

variable {K : Type} [Scalar K]

/-- A number is a one by one block and a vector is a row; more than two axes are refused. -/
def toBlock (t : Tensor K) : Except (Fault K) (Matrix K) :=
  match t.shape with
  | [] => .ok (Matrix.ofRow t.data)
  | [_] => .ok (Matrix.ofRow t.data)
  | [height, width] =>
    match Matrix.ofRows? width (chunks width height t.data) with
    | some A => .ok A
    | none => .error .badValue
  | _ => .error (.dimension (.blockAxes t.axes))

end Tensor

end ActiveSet
