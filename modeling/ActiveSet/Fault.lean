import ActiveSet.Keyed

/-!
# Causes of failure

Everything that can go wrong in a computation, as data: which sizes disagree, what was refused,
which key is missing. The wording is kept apart, in `Report.Fault`.
-/

namespace ActiveSet

/-- The three kinds of factor. -/
inductive FactorKind
  | leastSquares
  | equality
  | inequality
  deriving DecidableEq

/-- Two sizes that should agree and do not. -/
inductive Mismatch
  /-- Two vectors of one key in a sum. -/
  | summands (key : Key) (left right : Nat)
  /-- A stacked vector against the dimensions of its ordering. -/
  | stacked (entries expected : Nat)
  /-- A coefficient block that is no matrix. -/
  | blockAxes (count : Nat)
  /-- The rows of a block against the right-hand side. -/
  | blockRows (key : Key) (rows expected : Nat)
  /-- The vector of a key against the block that it is multiplied with. -/
  | factorOperand (key : Key) (dim expected : Nat)
  /-- The vector of a key against the row of an inequality. -/
  | rowOperand (key : Key) (dim expected : Nat)
  /-- The coefficients of an inequality that are not one row. -/
  | notOneRow (key : Key)
  /-- The bound of an inequality that is not one number. -/
  | boundEntries (count : Nat)
  /-- Two factors that use one key with different dimensions. -/
  | usedTwice (key : Key) (first second : Nat)
  /-- The dimension of a key in a stacked system against the columns of a block. -/
  | stackedBlock (key : Key) (dim columns : Nat)
  | workingSet (factors expected : Nat)
  | mask (entries factors : Nat)
  /-- A contribution to the linear cost of a key against the cost it has. -/
  | costEntries (key : Key) (present added : Nat)
  /-- A matrix of constraints whose right-hand side is missing or of another length. -/
  | rightHandSide (vector matrix : String)
  | hessianShape (n : Nat) (shape : List Nat)
  | argumentEntries (name : String) (entries : Nat) (expected : Int)
  | argumentColumns (name : String) (columns : Nat) (expected : Int)
  deriving DecidableEq

/-- Input that is refused for what it is. -/
inductive Refusal (K : Type)
  | nanInFactor
  | nanInInequality
  | nanInArgument (name : String)
  | alreadyActive (index : Int)
  | alreadyInactive (index : Int)
  /-- An iteration cap that is not positive, as it was given. -/
  | iterationCap (given : String)
  | tolerance
  | unknownSetting (name : String)
  | indefiniteHessian (eigenvalue : K)
  | costOutsideRange
  | noCost

/-- Why a computation has no result. -/
inductive Fault (K : Type)
  | dimension (cause : Mismatch)
  | refused (cause : Refusal K)
  | infeasibleStart (violation : K)
  | inconsistentEqualities
  | unsatisfiable (slack : K)
  | unbounded (norm : K)
  | singular (keys rank size : Nat)
  | missingKey (key : Key)
  | wrongFactor (expected got : FactorKind)
  /-- An operation that factors of this kind do not have. -/
  | unsupported (kind : FactorKind)
  /-- A position outside a sequence. -/
  | outOfRange
  /-- An array that has no sensible form or value for the operation. -/
  | badValue
  /-- A setting of a kind that the operation does not take. -/
  | badType
  /-- A number beyond all integers. -/
  | overflow

namespace Keyed

variable {K α : Type}

/-- The value at a key that has to be there. -/
def get (m : Keyed α) (k : Key) : Except (Fault K) α :=
  match m.lookup k with
  | some v => .ok v
  | none => .error (.missingKey k)

/--
Adds dimensions to those that are known; a key that comes again has to come with the dimension
that it has.
-/
def mergeDims (known : Keyed Nat) (added : List (Key × Nat)) : Except (Fault K) (Keyed Nat) :=
  added.foldlM (fun dims e => match dims.lookup e.1 with
    | none => .ok (dims.insert e.1 e.2)
    | some d => if d = e.2 then .ok dims else .error (.dimension (.usedTwice e.1 d e.2))) known

end Keyed

end ActiveSet
