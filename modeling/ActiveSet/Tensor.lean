import ActiveSet.Scalar
import ActiveSet.Fault

/-!
# Arrays of any depth

An array as it is written down, nested to any depth, and the same array as a shape with its
entries in row order. Only arrays whose parts have one shape are rectangular.
-/

namespace ActiveSet

/-- A number, or a list of arrays. -/
inductive Nested (K : Type)
  | scalar (value : K)
  | list (parts : List (Nested K))

/-- The extent of each axis and the entries, the last axis running fastest. -/
structure Tensor (K : Type) where
  shape : List Nat
  data : List K

namespace Nested

variable {K : Type}

mutual

/-- The shape, if all parts of every list agree in theirs. -/
def shape? : Nested K → Option (List Nat)
  | .scalar _ => some []
  | .list parts => (commonShape? parts).map fun s => parts.length :: s.getD []

/-- The shape that all arrays of a list share; the empty list shares no particular one. -/
def commonShape? : List (Nested K) → Option (Option (List Nat))
  | [] => some none
  | part :: parts =>
    match shape? part, commonShape? parts with
    | some s, some none => some (some s)
    | some s, some (some t) => if s = t then some (some s) else none
    | _, _ => none

end

mutual

def flatten : Nested K → List K
  | .scalar value => [value]
  | .list parts => flattenAll parts

def flattenAll : List (Nested K) → List K
  | [] => []
  | part :: parts => flatten part ++ flattenAll parts

end

end Nested

namespace Tensor

variable {K : Type}

/-- Refuses arrays that are not rectangular. -/
def ofNested (a : Nested K) : Except (Fault K) (Tensor K) :=
  match a.shape? with
  | some shape => .ok ⟨shape, a.flatten⟩
  | none => .error .badValue

def axes (t : Tensor K) : Nat := t.shape.length

/-- Cuts a list into `count` pieces of length `width`. -/
def chunks (width : Nat) : Nat → List K → List (List K)
  | 0, _ => []
  | count + 1, l => l.take width :: chunks width count (l.drop width)

/-- The number of entries of an array of a shape. -/
def entryCount : List Nat → Nat
  | [] => 1
  | n :: shape => n * entryCount shape

/-- The arrays along the first axis; a number has none. -/
def parts (t : Tensor K) : List (Tensor K) :=
  match t.shape with
  | [] => []
  | count :: shape => (chunks (entryCount shape) count t.data).map fun data => ⟨shape, data⟩

/-- A vector as a matrix of one row; other arrays stay as they are. -/
def atLeastMatrix (t : Tensor K) : Tensor K :=
  match t.shape with
  | [n] => ⟨[1, n], t.data⟩
  | _ => t

end Tensor

end ActiveSet
