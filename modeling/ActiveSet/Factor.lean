import ActiveSet.Matrix
import ActiveSet.Point

/-!
# Linear factors

A factor holds one coefficient block for each of its keys and a right-hand side. Read as a cost it
is `½‖Σ Aₖ xₖ − b‖²`, read as a constraint it is `Σ Aₖ xₖ = b`. Keys that a point lacks count as
zero and keys that the factor lacks are ignored.
-/

namespace ActiveSet

/-- Blocks by key with as many rows as the right-hand side has entries. -/
structure Factor (K : Type) where
  terms : Keyed (Matrix K)
  b : List K
  rows_eq : ∀ e ∈ terms.entries, e.2.height = b.length

namespace Factor

variable {K : Type}

def rows (f : Factor K) : Nat := f.b.length

def keys (f : Factor K) : List Key := f.terms.keys

/-- The columns of the block at every key. -/
def dims (f : Factor K) : Keyed Nat := f.terms.map Matrix.cols

def isEmpty (f : Factor K) : Bool := f.terms.entries.isEmpty

def mentions (f : Factor K) (k : Key) : Bool := f.terms.contains k

/-- The block at a key. -/
def block (f : Factor K) (k : Key) : Except (Fault K) (Matrix K) := f.terms.get k

variable [Scalar K]

/-- Blocks and a right-hand side that fit together and hold no NaN. -/
def make (terms : Keyed (Matrix K)) (b : List K) : Except (Fault K) (Factor K) :=
  match h : terms.entries.find? fun e => e.2.height ≠ b.length with
  | some e => .error (.dimension (.blockRows e.1 e.2.height b.length))
  | none =>
    if Vec.hasNaN b || terms.values.any Matrix.hasNaN then .error (.refused .nanInFactor)
    else .ok ⟨terms, b, fun e he => by simpa using List.find?_eq_none.1 h e he⟩

/--
The block that an array stands for, with the number of rows that the right-hand side asks for.
-/
def readBlock (rows : Nat) (k : Key) (a : Tensor K) : Except (Fault K) (Matrix K) := do
  let block ← a.toBlock
  if block.height = rows then return block
  else throw (.dimension (.blockRows k block.height rows))

/-- Reads the right-hand side, then the blocks key by key. -/
def ofArrays (terms : Keyed (Nested K)) (b : Nested K) : Except (Fault K) (Factor K) := do
  let rhs := (← Tensor.ofNested b).data
  let blocks ← terms.entries.mapM fun e => do
    return (e.1, ← readBlock rhs.length e.1 (← Tensor.ofNested e.2))
  make (Keyed.ofList blocks) rhs

/-- Adds the product of one block and the vector that the point has at its key. -/
def addProduct (x : Point K) (acc : List K) (e : Key × Matrix K) : Except (Fault K) (List K) :=
  match x.lookup e.1 with
  | none => .ok acc
  | some v =>
    if v.length = e.2.cols then .ok (Vec.add acc (e.2.mulVec v))
    else .error (.dimension (.factorOperand e.1 v.length e.2.cols))

/-- The sum `Σ Aₖ xₖ` over the keys that the point holds. -/
def product (f : Factor K) (x : Point K) : Except (Fault K) (List K) :=
  f.terms.entries.foldlM (addProduct x) (Vec.zeros f.rows)

def residual (f : Factor K) (x : Point K) : Except (Fault K) (List K) := do
  return Vec.sub (← f.product x) f.b

/-- Half the squared length of the residual. -/
def error (f : Factor K) (x : Point K) : Except (Fault K) K := do
  let r ← f.residual x
  return 0.5 * Vec.dot r r

/-- The gradient of `error` in the coordinates of one key. -/
def gradient (f : Factor K) (k : Key) (x : Point K) : Except (Fault K) (List K) := do
  let block ← f.block k
  return block.transpose.mulVec (← f.residual x)

/-- The factor in coordinates around `x`: the same blocks with right-hand side `b - A x`. -/
def shifted (f : Factor K) (x : Point K) : Except (Fault K) (Factor K) := do
  make f.terms (Vec.neg (← f.residual x))

end Factor

/-- A constraint `Σ Aₖ xₖ = b` with the key of its multiplier. -/
structure Equality (K : Type) extends Factor K where
  dual : Key

namespace Equality

variable {K : Type} [Scalar K]

def ofArrays (terms : Keyed (Nested K)) (b : Nested K) (dual : Key) :
    Except (Fault K) (Equality K) := do
  return { ← Factor.ofArrays terms b with dual }

def shifted (f : Equality K) (x : Point K) : Except (Fault K) (Equality K) := do
  return { ← f.toFactor.shifted x with dual := f.dual }

end Equality

/-- A constraint `Σ aₖᵀ xₖ ≤ b` of a single row with the key of its multiplier. -/
structure Inequality (K : Type) where
  terms : Keyed (List K)
  bound : K
  dual : Key

namespace Inequality

variable {K : Type}

def keys (f : Inequality K) : List Key := f.terms.keys

def dims (f : Inequality K) : Keyed Nat := f.terms.map List.length

def isEmpty (f : Inequality K) : Bool := f.terms.entries.isEmpty

def mentions (f : Inequality K) (k : Key) : Bool := f.terms.contains k

/-- The coefficients at a key as a block of one row. -/
def block (f : Inequality K) (k : Key) : Except (Fault K) (Matrix K) := do
  return Matrix.ofRow (← f.terms.get k)

variable [Scalar K]

/-- A row and a bound that hold no NaN. -/
def make (terms : Keyed (List K)) (bound : K) (dual : Key) : Except (Fault K) (Inequality K) :=
  if Scalar.isNaN bound || terms.values.any Vec.hasNaN then .error (.refused .nanInInequality)
  else .ok { terms, bound, dual }

/-- A number, a vector or a matrix of one row. -/
def readRow (k : Key) (a : Tensor K) : Except (Fault K) (List K) :=
  match a.shape with
  | [] | [_] | [1, _] => .ok a.data
  | _ => .error (.dimension (.notOneRow k))

/-- Reads the rows key by key, then the bound. -/
def ofArrays (terms : Keyed (Nested K)) (b : Nested K) (dual : Key) :
    Except (Fault K) (Inequality K) := do
  let rows ← terms.entries.mapM fun e => do return (e.1, ← readRow e.1 (← Tensor.ofNested e.2))
  match (← Tensor.ofNested b).data with
  | [bound] => make (Keyed.ofList rows) bound dual
  | entries => throw (.dimension (.boundEntries entries.length))

/-- Adds the product of the row at one key and the vector that the point has there. -/
def addProduct (x : Point K) (acc : K) (e : Key × List K) : Except (Fault K) K :=
  match x.lookup e.1 with
  | none => .ok acc
  | some v =>
    if v.length = e.2.length then .ok (acc + Vec.dot e.2 v)
    else .error (.dimension (.rowOperand e.1 v.length e.2.length))

/-- The product `aᵀx`. -/
def product (f : Inequality K) (x : Point K) : Except (Fault K) K :=
  f.terms.entries.foldlM (addProduct x) 0

/-- The signed excess `aᵀx − b`, not positive where the inequality holds. -/
def excess (f : Inequality K) (x : Point K) : Except (Fault K) K := do
  return (← f.product x) - f.bound

def isSatisfied (f : Inequality K) (x : Point K) (tol : K) : Except (Fault K) Bool := do
  return (← f.excess x) ≤ tol

def isTight (f : Inequality K) (x : Point K) (tol : K) : Except (Fault K) Bool := do
  return Scalar.abs (← f.excess x) ≤ tol

/-- The constraint `aᵀx = b` that holds while the inequality is active. -/
def toEquality (f : Inequality K) : Equality K where
  terms := f.terms.map Matrix.ofRow
  b := [f.bound]
  rows_eq := by
    intro e he
    obtain ⟨_, _, rfl⟩ := List.mem_map.1 he
    rfl
  dual := f.dual

end Inequality

end ActiveSet
