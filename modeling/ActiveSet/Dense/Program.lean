import ActiveSet.Dense.CostFactor
import ActiveSet.Dense.Validation
import ActiveSet.Problem

/-!
# Programs by matrices

Minimise `½xᵀPx + cᵀx` over `A_eq x = b_eq`, `A_ub x ≤ b_ub` and `lower ≤ x ≤ upper`. As a program
over factors it has the single key `x`. Rows of `A_ub` come first among the inequalities, then the
upper and then the lower bounds; every multiplier is named for the row or variable that it belongs
to.
-/

namespace ActiveSet.Dense

/-- The key of the only variable. -/
def variableKey : Key := .text "x"

/-- The arrays of a program as they are given. -/
structure Arguments (K : Type) where
  c : Option (Tensor K) := none
  P : Option (Tensor K) := none
  aEq : Option (Tensor K) := none
  bEq : Option (Tensor K) := none
  aUb : Option (Tensor K) := none
  bUb : Option (Tensor K) := none
  lower : Option (Tensor K) := none
  upper : Option (Tensor K) := none
  x0 : Option (Tensor K) := none

/-- Arrays of constraints with their right-hand sides. -/
structure Rows (K : Type) where
  matrix : Option (Tensor K)
  rhs : Option (List K)

/-- A program whose parts have been checked one by one; a bound that is absent does not bind. -/
structure Program (K : Type) where
  n : Nat
  c : List K
  hessian : Option (Matrix K)
  equal : Rows K
  atMost : Rows K
  lower : List (Option K)
  upper : List (Option K)

namespace Arguments

variable {K : Type} [Scalar K]

/-- The number of variables: the first extent of `P`, else the entries of `c`. -/
def dimension (a : Arguments K) : Except (Fault K) Nat :=
  match a.P, a.c with
  | some P, _ =>
    match P.shape with
    | n :: _ => .ok n
    | [] => .error .outOfRange
  | none, some c => .ok c.data.length
  | none, none => .error (.refused .noCost)

/-- The finite entries of a vector of bounds. -/
def readBounds (t : Option (Tensor K)) (name : String) (n : Nat) :
    Except (Fault K) (List (Option K)) := do
  match t with
  | none => return List.replicate n none
  | some t =>
    return (← t.checkedVector name (some n)).map fun b => if Scalar.isFinite b then some b else none

def readVector (t : Option (Tensor K)) (name : String) : Except (Fault K) (Option (List K)) :=
  t.mapM (·.checkedVector name none)

def readMatrix (t : Option (Tensor K)) (name : String) (n : Nat) :
    Except (Fault K) (Option (Tensor K)) := t.mapM (·.checkedMatrix n name)

/-- A Hessian has to be square. -/
def readHessian (P : Tensor K) (n : Nat) : Except (Fault K) (Matrix K) := do
  let P ← P.checkedMatrix n "P"
  if P.shape = [n, n] then P.toBlock else throw (.dimension (.hessianShape n P.shape))

def read (a : Arguments K) : Except (Fault K) (Program K) := do
  let n ← a.dimension
  let c ← match a.c with
    | some c => c.checkedVector "c" (some n)
    | none => pure (Vec.zeros n)
  let bEq ← readVector a.bEq "b_eq"
  let bUb ← readVector a.bUb "b_ub"
  let lower ← readBounds a.lower "lb" n
  let upper ← readBounds a.upper "ub" n
  let aEq ← readMatrix a.aEq "A_eq" n
  let aUb ← readMatrix a.aUb "A_ub" n
  let hessian ← a.P.mapM (readHessian · n)
  return { n, c, hessian, equal := ⟨aEq, bEq⟩, atMost := ⟨aUb, bUb⟩, lower, upper }

end Arguments

namespace Program

variable {K : Type} [Scalar K]

/-- A matrix of constraints and its right-hand side, which needs an entry for every row. -/
def Rows.paired (r : Rows K) (vector matrix : String) :
    Except (Fault K) (Option (Tensor K × List K)) :=
  match r.matrix with
  | none => .ok none
  | some A =>
    match r.rhs with
    | none => .error (.dimension (.rightHandSide vector matrix))
    | some b =>
      if A.shape.head? = some b.length then .ok (some (A, b))
      else .error (.dimension (.rightHandSide vector matrix))

/-- All equations as one factor. -/
def equalities (p : Program K) : Except (Fault K) (List (Equality K)) := do
  match ← Rows.paired p.equal "b_eq" "A_eq" with
  | none => return []
  | some (A, b) =>
    let block ← Factor.readBlock b.length variableKey A
    return [{ ← Factor.make (Keyed.ofList [(variableKey, block)]) b with dual := .dual "eq" 0 }]

/-- An inequality in the only variable. -/
def single (row : List K) (bound : K) (dual : Key) : Except (Fault K) (Inequality K) :=
  Inequality.make (Keyed.ofList [(variableKey, row)]) bound dual

/-- An inequality for every row of `A_ub`. -/
def rowInequalities (p : Program K) : Except (Fault K) (List (Inequality K)) := do
  match ← Rows.paired p.atMost "b_ub" "A_ub" with
  | none => return []
  | some (A, b) =>
    (A.parts.zip b).zipIdx.mapM fun e => do
      single (← Inequality.readRow variableKey e.1.1) e.1.2 (.dual "ub" e.2)

/-- The bounds that are present, with the variables that they bound. -/
def present (bounds : List (Option K)) : List (K × Nat) :=
  bounds.zipIdx.filterMap fun e => e.1.map fun b => (b, e.2)

def upperInequalities (p : Program K) : Except (Fault K) (List (Inequality K)) :=
  (present p.upper).mapM fun e => single (Vec.unit p.n e.2) e.1 (.dual "upper" e.2)

def lowerInequalities (p : Program K) : Except (Fault K) (List (Inequality K)) :=
  (present p.lower).mapM fun e =>
    single (Vec.neg (Vec.unit p.n e.2)) (-e.1) (.dual "lower" e.2)

/-- The squares of the quadratic cost; a form without any becomes one equation `0 = 0`. -/
def squares (kernels : Kernels K) (p : Program K) (P : Matrix K) :
    Except (Fault K) (Factor K) := do
  let s ← CostFactor.ofForm kernels P p.c 1e-10
  let s := if s.matrix.height = 0 then ⟨.zero 1 p.n, [0]⟩ else s
  Factor.make (Keyed.ofList [(variableKey, s.matrix)]) s.rhs

def cost (kernels : Kernels K) (p : Program K) : Except (Fault K) (Cost K) := do
  match p.hessian with
  | some P => return .quadratic [← p.squares kernels P]
  | none => return .linear (Keyed.ofList [(variableKey, p.c)])

def inequalities (p : Program K) : Except (Fault K) (List (Inequality K)) := do
  let rows ← p.rowInequalities
  let upper ← p.upperInequalities
  let lower ← p.lowerInequalities
  return rows ++ upper ++ lower

/-- The program over factors: its cost first, then its equalities and its inequalities. -/
def problem (kernels : Kernels K) (p : Program K) : Except (Fault K) (Problem K) := do
  let cost ← p.cost kernels
  let equalities ← p.equalities
  let inequalities ← p.inequalities
  return .make cost equalities inequalities

/-- The value of the given form, not of its squares. -/
def objective (p : Program K) (x : List K) : K :=
  match p.hessian with
  | some P => Vec.dot (P.transpose.mulVec (Vec.scale 0.5 x)) x + Vec.dot p.c x
  | none => Vec.dot p.c x

end Program

end ActiveSet.Dense
