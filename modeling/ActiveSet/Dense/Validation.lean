import ActiveSet.Matrix

/-!
# Checks of vectors and matrices given as arrays
-/

namespace ActiveSet.Tensor

variable {K : Type} [Scalar K]

/-- The entries of an array without NaN, as many as expected if a number is expected. -/
def checkedVector (t : Tensor K) (name : String) (expected : Option Int) :
    Except (Fault K) (List K) := do
  if Vec.hasNaN t.data then throw (.refused (.nanInArgument name))
  match expected with
  | some n =>
    if (t.data.length : Int) ≠ n then
      throw (.dimension (.argumentEntries name t.data.length n))
  | none => pure ()
  return t.data

/-- An array whose second axis has extent `n` and that holds no NaN; a vector counts as one row. -/
def checkedMatrix (t : Tensor K) (n : Int) (name : String) : Except (Fault K) (Tensor K) := do
  let t := t.atLeastMatrix
  match t.shape with
  | _ :: columns :: _ =>
    if (columns : Int) ≠ n then throw (.dimension (.argumentColumns name columns n))
    if Vec.hasNaN t.data then throw (.refused (.nanInArgument name))
    return t
  | _ => throw .outOfRange

end ActiveSet.Tensor
