import ActiveSet.Fault
import ActiveSet.Settings
import ActiveSet.Text.Integer
import ActiveSet.Text.Shortest

/-!
# Settings as they are given

Settings come by name, with values of any kind. The cap on iterations is read as an integer,
tolerances are numbers and flags hold by the truth of their values.
-/

namespace ActiveSet

/-- A value as a caller writes it. -/
inductive Given
  | nothing
  | flag (value : Bool)
  | integer (value : Int)
  | real (value : Float)
  | text (value : String)

namespace Given

def render : Given → String
  | .nothing => "None"
  | .flag value => if value then "True" else "False"
  | .integer value => toString value
  | .real value => Text.shortest value
  | .text value => value

/-- Nothing, zero and the empty text are false. -/
def holds : Given → Bool
  | .nothing => false
  | .flag value => value
  | .integer value => value != 0
  | .real value => !(value == 0)
  | .text value => value != ""

/-- The integer part of a number, or the integer that a text spells. -/
def toInteger : Given → Except (Fault Float) Int
  | .nothing => .error .badType
  | .flag value => .ok (if value then 1 else 0)
  | .integer value => .ok value
  | .text value =>
    match Text.readInteger value with
    | some n => .ok n
    | none => .error .badValue
  | .real value =>
    match Text.Binary64.ofFloat value with
    | .nan => .error .badValue
    | .infinite _ => .error .overflow
    | .finite negative m q =>
      let n : Int := ((Text.dyadic m q).1 / (Text.dyadic m q).2 : Nat)
      .ok (if negative then -n else n)

def toReal : Given → Except (Fault Float) Float
  | .flag value => .ok (if value then 1 else 0)
  | .integer value => .ok (Float.ofInt value)
  | .real value => .ok value
  | .nothing | .text _ => .error .badType

end Given

/-- The names of the settings. -/
inductive Setting
  | maxIterations
  | tolerance
  | activeTolerance
  | feasibilityTolerance
  | detectCycling
  | checkFeasibility
  | verbose
  deriving DecidableEq

namespace Setting

def ofName? : String → Option Setting
  | "max_iterations" => some .maxIterations
  | "tolerance" => some .tolerance
  | "active_tolerance" => some .activeTolerance
  | "feasibility_tolerance" => some .feasibilityTolerance
  | "detect_cycling" => some .detectCycling
  | "check_feasibility" => some .checkFeasibility
  | "verbose" => some .verbose
  | _ => none

/-- Two settings have a short name besides their own. -/
def ofShortName? : String → Option Setting
  | "max_iters" => some .maxIterations
  | "tol" => some .tolerance
  | name => ofName? name

end Setting

/-- A value for every setting. -/
abbrev GivenSettings := Setting → Given

namespace GivenSettings

def default : GivenSettings
  | .maxIterations => .integer 1000
  | .tolerance => .real 1e-7
  | .activeTolerance => .real 1e-7
  | .feasibilityTolerance => .real 1e-6
  | .detectCycling => .flag true
  | .checkFeasibility => .flag true
  | .verbose => .flag false

def set (g : GivenSettings) (s : Setting) (value : Given) : GivenSettings :=
  fun t => if t = s then value else g t

/-- Gives values by name; of several values with one name the last counts, in the first place. -/
def ofNamed (names : String → Option Setting) (unknown : String → Fault Float)
    (values : List (String × Given)) : Except (Fault Float) GivenSettings :=
  let places := (values.map (·.1)).eraseDups
  places.foldlM (fun g name =>
    match names name with
    | none => .error (unknown name)
    | some s => .ok (g.set s ((values.reverse.lookup name).getD .nothing))) default

/-- Settings by their names or short names. -/
def ofPairs : List (String × Given) → Except (Fault Float) GivenSettings :=
  ofNamed Setting.ofShortName? fun name => .refused (.unknownSetting name)

/-- Settings by their own names only. -/
def ofFields : List (String × Given) → Except (Fault Float) GivenSettings :=
  ofNamed Setting.ofName? fun _ => .badType

/-- Reads the cap on iterations, which has to be positive, and then the tolerances. -/
def read (g : GivenSettings) : Except (Fault Float) (Settings Float) := do
  let cap ← (g .maxIterations).toInteger
  if cap ≤ 0 then throw (.refused (.iterationCap (g .maxIterations).render))
  let tolerance ← (g .tolerance).toReal
  let activeTolerance ← (g .activeTolerance).toReal
  let feasibilityTolerance ← (g .feasibilityTolerance).toReal
  let least := Scalar.smaller (Scalar.smaller tolerance activeTolerance) feasibilityTolerance
  if least ≤ 0 then throw (.refused .tolerance)
  return {
    maxIterations := cap.toNat
    tolerance, activeTolerance, feasibilityTolerance
    detectCycling := (g .detectCycling).holds
    checkFeasibility := (g .checkFeasibility).holds
    verbose := (g .verbose).holds }

end GivenSettings

end ActiveSet
