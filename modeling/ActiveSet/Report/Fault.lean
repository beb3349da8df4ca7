import ActiveSet.Optimize
import ActiveSet.Report.Key
import ActiveSet.Text.Decimal

/-!
# The wording of faults

Every cause of failure belongs to a class, and most have a text that names the sizes, keys and
values involved.
-/

namespace ActiveSet

/-- The classes of failure that have a text of their own. -/
inductive FailureClass
  | general
  | infeasibleStart
  | infeasible
  | unbounded
  | singular
  | nonConvergence
  | cycling
  | dimension
  | invalidInput
  deriving DecidableEq

namespace FailureClass

/-- What stands before the text of every failure of a class. -/
def lead : FailureClass → String
  | .dimension => "Dimension mismatch: "
  | .invalidInput => "Invalid input: "
  | _ => ""

/-- The text of a failure of which nothing more is known, for the classes that have one. -/
def defaultText? : FailureClass → Option String
  | .infeasibleStart => some "Initial point is infeasible"
  | .infeasible => some "Problem is infeasible"
  | .unbounded => some "Problem is unbounded"
  | .singular => some "Linear system is singular"
  | .nonConvergence => some "Maximum iterations reached"
  | .cycling => some "Active-set iteration is cycling"
  | .general | .dimension | .invalidInput => none

/-- What a failure of a class tells besides its text. -/
def details : FailureClass → List String
  | .infeasibleStart => ["violation"]
  | .singular => ["rank", "size"]
  | .nonConvergence | .cycling => ["iterations", "state"]
  | .general | .infeasible | .unbounded | .dimension | .invalidInput => []

end FailureClass

/-- The names that factors go by in messages. -/
def FactorKind.name : FactorKind → String
  | .leastSquares => "JacobianFactor"
  | .equality => "LinearEquality"
  | .inequality => "LinearInequality"

namespace Mismatch

def text : Mismatch → String
  | .summands k l r => s!"key {k.render} has dim {l} and {r}"
  | .stacked n m => s!"vector has {n} entries, expected {m}"
  | .blockAxes n => s!"coefficient block must be 2-D, got {n}-D"
  | .blockRows k n m => s!"block for {k.render} has {n} rows, b has {m}"
  | .factorOperand k n m => s!"{k.render} has dim {n}, factor expects {m}"
  | .rowOperand k n m => s!"{k.render} has dim {n}, inequality expects {m}"
  | .notOneRow k => s!"inequality row for {k.render} must be a single row"
  | .boundEntries n => s!"inequality bound must be scalar, got {n} entries"
  | .usedTwice k n m => s!"{k.render} used with dims {n} and {m}"
  | .stackedBlock k n m => s!"{k.render} has dim {n}, block has {m}"
  | .workingSet n m => s!"working set has {n} factors, problem has {m}"
  | .mask n m => s!"active mask has {n} entries for {m} factors"
  | .costEntries k n m => s!"cost for {k.render} has dims {n} and {m}"
  | .rightHandSide v a => s!"{v} must have one entry per row of {a}"
  | .hessianShape n l => s!"P must be ({n},{n}), got {Report.shape l}"
  | .argumentEntries a n m => s!"{a} has {n} entries, expected {m}"
  | .argumentColumns a n m => s!"{a} columns {n} != n={m}"

end Mismatch

namespace Refusal

def text : Refusal Float → String
  | .nanInFactor => "factor contains NaN values"
  | .nanInInequality => "inequality contains NaN values"
  | .nanInArgument a => s!"{a} contains NaN values"
  | .alreadyActive ix => s!"inequality {ix} is already active"
  | .alreadyInactive ix => s!"inequality {ix} is already inactive"
  | .iterationCap t => s!"max_iterations must be positive, got {t}"
  | .tolerance => "tolerances must be positive"
  | .unknownSetting a => "unknown solver parameter '" ++ a ++ "'"
  | .indefiniteHessian x =>
    "P is not positive semidefinite (min eigenvalue " ++ Text.scientific 3 x ++ ")"
  | .costOutsideRange => "q has a component outside range(P); the QP is not bounded below"
  | .noCost => "at least one of c and P is required"

end Refusal

namespace Fault

/-- The class of a fault with a text; a missing key and what arrays do not allow have none. -/
def failureClass? : Fault Float → Option FailureClass
  | .dimension _ => some .dimension
  | .refused _ => some .invalidInput
  | .infeasibleStart _ => some .infeasibleStart
  | .inconsistentEqualities | .unsatisfiable _ => some .infeasible
  | .unbounded _ => some .unbounded
  | .singular .. => some .singular
  | .missingKey _ | .wrongFactor .. | .unsupported _ | .outOfRange | .badValue | .badType
  | .overflow => none

def text? : Fault Float → Option String
  | .dimension cause => some (FailureClass.dimension.lead ++ cause.text)
  | .refused cause => some (FailureClass.invalidInput.lead ++ cause.text)
  | .infeasibleStart v => some ("start point violates constraints by " ++ Text.scientific 3 v)
  | .inconsistentEqualities => some "equality constraints are inconsistent"
  | .unsatisfiable slack =>
    some ("inequalities cannot be satisfied (max slack " ++ Text.scientific 3 slack ++ ")")
  | .unbounded norm => some ("no constraint blocks direction of norm " ++ Text.scientific 3 norm)
  | .singular n rank size => some s!"system over {n} variables has rank {rank} < {size}"
  | .missingKey k => some k.render
  | .wrongFactor expected got =>
    let graph := match expected with
      | .leastSquares => "GaussianFactorGraph"
      | .equality => "EqualityFactorGraph"
      | .inequality => "InequalityFactorGraph"
    some (graph ++ " holds " ++ expected.name ++ ", got " ++ got.name)
  | .unsupported _ | .outOfRange | .badValue | .badType | .overflow => none

end Fault

namespace Failure

def failureClass? : Failure Float → Option FailureClass
  | .exhausted _ => some .nonConvergence
  | .cycled _ => some .cycling
  | .fault cause => cause.failureClass?

def text? : Failure Float → Option String
  | .exhausted last => some s!"no convergence after {last.iterations} iterations"
  | .cycled last =>
    some ("working set " ++ Report.indices last.workingSet.activeIndices ++
      s!" revisited at iteration {last.iterations}")
  | .fault cause => cause.text?

end Failure

end ActiveSet
