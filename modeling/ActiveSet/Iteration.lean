import ActiveSet.Settings
import ActiveSet.WorkingSet.Blocking
import ActiveSet.WorkingSet.Leaving

/-!
# The active-set iteration

An iteration takes a step, which may make one inequality active, or drops an active inequality, or
has converged. It knows its problem only through a `Method`: a direction, multipliers, a rule for
leaving and a cap on the step. `run` repeats it until it ends in one of four ways.
-/

namespace ActiveSet

/-- What the last iteration did. -/
inductive Phase (K : Type)
  | start
  /-- A step that no inequality cut short. -/
  | moved
  | activated (index : Nat)
  | deactivated (index : Nat) (multiplier : K)
  | converged

structure State (K : Type) where
  values : Point K
  workingSet : WorkingSet K
  /-- Multipliers, from the last iteration that computed any. -/
  duals : Point K
  iterations : Nat
  phase : Phase K
  /-- Length of the last step, if the last iteration took one. -/
  alpha : Option K

/-- What an iteration needs to know of the problem. -/
structure Method (K : Type) where
  settings : Settings K
  cap : Cap K
  direction : WorkingSet K → Point K → Except (Fault K) (Point K)
  multipliers : WorkingSet K → Point K → Except (Fault K) (Point K)
  leaving : LeavingRule K

namespace State

variable {K : Type}

/-- A state before the first iteration. -/
def initial (values : Point K) (workingSet : WorkingSet K) : State K where
  values := values
  workingSet := workingSet
  duals := .empty
  iterations := 0
  phase := .start
  alpha := none

def hasConverged (s : State K) : Bool := s.phase matches .converged

/-- Whether the last iteration took a step of positive length. -/
def hasMoved [Scalar K] (s : State K) : Bool :=
  match s.alpha with
  | some a => 0 < a
  | none => false

end State

/-! ## One iteration -/

namespace Method

variable {K : Type} [Scalar K]

/-- At a point where the direction is zero: drops an inequality, or has converged. -/
def release (m : Method K) (s : State K) : Except (Fault K) (State K) := do
  let duals ← m.multipliers s.workingSet s.values
  match ← m.leaving s.workingSet duals with
  | none =>
    return { s with duals, iterations := s.iterations + 1, phase := .converged, alpha := none }
  | some ix =>
    let workingSet ← s.workingSet.deactivate ix
    let a ← Point.multiplier duals (← workingSet.factor ix).dual
    return { s with
      workingSet, duals, iterations := s.iterations + 1, phase := .deactivated ix a, alpha := none }

/-- The state after a step of length `a` along `p`. -/
def move (s : State K) (p : Point K) (a : K) (phase : Phase K) : Except (Fault K) (State K) := do
  return { s with
    values := ← Point.add s.values (Point.scale a p)
    phase, iterations := s.iterations + 1, alpha := some a }

/--
Along a direction that is not zero: goes as far as the cap and the inactive inequalities let it. A
start that is feasible only within a tolerance may ask for a step backwards, which is not taken.
-/
def advance (m : Method K) (s : State K) (p : Point K) : Except (Fault K) (State K) := do
  match ← s.workingSet.blocking s.values p m.cap with
  | some (ratio, ix) =>
    let a := Scalar.larger ratio 0
    let t ← move s p a (.activated ix)
    return { t with workingSet := ← s.workingSet.activate ix }
  | none =>
    match m.cap with
    | .unlimited => throw (.unbounded (Point.norm p))
    | .at c => move s p (Scalar.larger c 0) .moved

def iterate (m : Method K) (s : State K) : Except (Fault K) (State K) := do
  let p ← m.direction s.workingSet s.values
  if Point.norm p ≤ m.settings.tolerance then m.release s else m.advance s p

end Method

/-! ## Runs -/

/-- How a run ends. -/
inductive Ending (K : Type)
  | converged (last : State K)
  /-- The cap on iterations was reached. -/
  | exhausted (last : State K)
  /-- A working set came again before the point had moved. -/
  | cycled (last : State K)
  | failed (fault : Fault K)

/-- The states after the iterations of a run, and its end. -/
structure Run (K : Type) where
  states : List (State K)
  ending : Ending K

namespace Method

variable {K : Type} [Scalar K]

/--
Iterates at most `budget` times. `seen` holds the working sets that were visited since the point
moved.
-/
def runFrom (m : Method K) : Nat → List (List Nat) → State K → Run K
  | budget, seen, s =>
    if s.hasConverged then ⟨[], .converged s⟩
    else match budget with
      | 0 => ⟨[], .exhausted s⟩
      | budget + 1 =>
        let signature := s.workingSet.activeIndices
        if m.settings.detectCycling && seen.contains signature then ⟨[], .cycled s⟩
        else match m.iterate s with
          | .error fault => ⟨[], .failed fault⟩
          | .ok t =>
            let rest := m.runFrom budget (if t.hasMoved then [] else signature :: seen) t
            ⟨t :: rest.states, rest.ending⟩

def run (m : Method K) (s : State K) : Run K := m.runFrom m.settings.maxIterations [] s

end Method

end ActiveSet
