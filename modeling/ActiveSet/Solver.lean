import ActiveSet.Graph.Minimize
import ActiveSet.Iteration
import ActiveSet.KeyIndex
import ActiveSet.Problem

/-!
# Solvers

A solver holds its own copy of the factors of a program, indexed by key, and supplies the
iteration with directions and multipliers. With `L = f − λᵀc` and constraints `aᵀx ≤ b`, an active
inequality is justified by a multiplier that is not positive.
-/

namespace ActiveSet

/-- What the objective of a solver is read from. -/
inductive Objective (K : Type)
  /-- The least-squares factors of the solver. -/
  | quadratic
  /-- A cost vector for each key, zero where there is none. -/
  | linear (vectors : Keyed (List K))

structure Solver (K : Type) where
  settings : Settings K
  objective : Objective K
  /-- Factors whose sum the direction minimises. -/
  cost : Graph K
  equalities : List (Equality K)
  inequalities : List (Inequality K)
  costIndex : KeyIndex
  equalityIndex : KeyIndex
  inequalityIndex : KeyIndex
  /-- The keys that some constraint mentions. -/
  constrainedKeys : List Key
  dims : Keyed Nat
  ordering : List Key

namespace Solver

variable {K : Type}

/-- Indexes the factors; all of them have to agree on the dimension of every key. -/
def assemble (settings : Settings K) (objective : Objective K) (cost : Graph K)
    (equalities : List (Equality K)) (inequalities : List (Inequality K)) :
    Except (Fault K) (Solver K) := do
  let dims ← Keyed.mergeDims .empty (← cost.dims).entries
  let dims ← Keyed.mergeDims dims (← Problem.equalityDims equalities).entries
  let dims ← Keyed.mergeDims dims (← Problem.inequalityDims inequalities).entries
  return {
    settings, objective, cost, equalities, inequalities, dims
    ordering := dims.keys
    costIndex := .ofKeys (cost.map (·.keys))
    equalityIndex := .ofKeys (equalities.map (·.keys))
    inequalityIndex := .ofKeys (inequalities.map (·.keys))
    constrainedKeys :=
      firstAppearances (equalities.flatMap (·.keys) ++ inequalities.flatMap (·.keys)) }

variable [Scalar K]

/-- The factor `½‖p + c‖²` of one key, whose minimiser is the direction of steepest descent. -/
def proximalFactor (vectors : Keyed (List K)) (e : Key × Nat) : Except (Fault K) (Factor K) :=
  Factor.make (Keyed.ofList [(e.1, .identity e.2)])
    (Vec.neg ((vectors.lookup e.1).getD (Vec.zeros e.2)))

def ofProblem (settings : Settings K) (p : Problem K) : Except (Fault K) (Solver K) := do
  match p.cost with
  | .quadratic factors => assemble settings .quadratic factors p.equalities p.inequalities
  | .linear vectors =>
    let dims ← p.dims
    let proximal ← dims.entries.mapM (proximalFactor vectors)
    assemble settings (.linear vectors) proximal p.equalities p.inequalities

/--
The solver after a change of its program: factors and dimensions are those it was made with, but a
linear objective is that of the program as it is now.
-/
def follow (s : Solver K) (p : Problem K) : Solver K :=
  match s.objective, p.cost with
  | .linear _, .linear vectors => { s with objective := .linear vectors }
  | _, _ => s

/-- Quadratic steps end at the minimiser; steps along a linear descent direction have no end. -/
def cap (s : Solver K) : Cap K :=
  match s.objective with
  | .quadratic => .at 1
  | .linear _ => .unlimited

def value (s : Solver K) (x : Point K) : Except (Fault K) K :=
  match s.objective with
  | .quadratic => s.cost.error x
  | .linear vectors => Cost.linearValue vectors x

/-! ## Directions -/

/-- Equalities and active inequalities in coordinates around `x`. -/
def workingConstraints (s : Solver K) (w : WorkingSet K) (x : Point K) :
    Except (Fault K) (List (Equality K)) := do
  let equalities ← s.equalities.mapM (·.shifted x)
  let active ← w.asEqualities.mapM (·.shifted x)
  return equalities ++ active

/-- The step to the minimiser of the cost under the working constraints. -/
def direction (kernels : Kernels K) (s : Solver K) (w : WorkingSet K) (x : Point K) :
    Except (Fault K) (Point K) := do
  let cost ← match s.objective with
    | .quadratic => s.cost.shifted x
    | .linear _ => pure s.cost
  let constraints ← s.workingConstraints w x
  cost.minimize kernels (Equality.graph constraints) (some s.ordering) (some s.dims) false

/-! ## Multipliers -/

/-- The multiplier key and the transposed block at `k` of the equalities that mention `k`. -/
def equalityTerms (s : Solver K) (k : Key) : Except (Fault K) (List (Key × Matrix K)) :=
  (s.equalityIndex.get k).mapM fun (ix : Nat) => do
    let f ← Position.entry s.equalities ix
    return (f.dual, (← f.block k).transpose)

/-- The same for the active inequalities of a working set. -/
def inequalityTerms (s : Solver K) (w : WorkingSet K) (k : Key) :
    Except (Fault K) (List (Key × Matrix K)) := do
  let terms ← (s.inequalityIndex.get k).mapM fun (ix : Nat) => do
    if ← w.isActive ix then
      let f ← w.factor ix
      return [(f.dual, (← f.block k).transpose)]
    else return []
  return terms.flatten

def dualTerms (s : Solver K) (w : WorkingSet K) (k : Key) :
    Except (Fault K) (List (Key × Matrix K)) := do
  return (← s.equalityTerms k) ++ (← s.inequalityTerms w k)

/-- The gradient of the objective in the coordinates of `k`. -/
def costGradient (s : Solver K) (k : Key) (x : Point K) : Except (Fault K) (List K) := do
  let d ← s.dims.get k
  match s.objective with
  | .quadratic =>
    (s.costIndex.get k).foldlM (fun sum (ix : Nat) => do
      return Vec.add sum (← (← Position.entry s.cost ix).gradient k x)) (Vec.zeros d)
  | .linear vectors => return (vectors.lookup k).getD (Vec.zeros d)

/--
The equation `Σ Aⱼᵀ λⱼ = ∇f` at one key, over the constraints that are enforced; without any it is
an empty factor. Of several constraints with one multiplier the last one counts.
-/
def dualFactor (s : Solver K) (w : WorkingSet K) (x : Point K) (k : Key) :
    Except (Fault K) (Factor K) := do
  let terms ← s.dualTerms w k
  if terms.isEmpty then Factor.make .empty (Vec.zeros (← s.dims.get k))
  else Factor.make (Keyed.ofList terms) (← s.costGradient k x)

/-- The equations of all constrained keys that have one. -/
def dualGraph (s : Solver K) (w : WorkingSet K) (x : Point K) : Except (Fault K) (Graph K) := do
  return (← s.constrainedKeys.mapM (s.dualFactor w x)).filter fun f => !f.isEmpty

/-- The multipliers, which have to be unique. -/
def multipliers (kernels : Kernels K) (s : Solver K) (w : WorkingSet K) (x : Point K) :
    Except (Fault K) (Point K) := do
  (← s.dualGraph w x).minimize kernels [] none none true

/-- The iteration of this solver, with a rule for the inequality that leaves. -/
def method (kernels : Kernels K) (s : Solver K) (leaving : LeavingRule K) : Method K where
  settings := s.settings
  cap := s.cap
  direction := s.direction kernels
  multipliers := s.multipliers kernels
  leaving := leaving

end Solver

end ActiveSet
