import ActiveSet.Graph
import ActiveSet.Position

/-!
# Working sets

Inequalities with flags that say which of them are enforced. The inequalities are fixed and only the
flags change, one at a time.
-/

namespace ActiveSet

structure WorkingSet (K : Type) where
  factors : List (Inequality K)
  active : List Bool
  size_eq : active.length = factors.length

namespace WorkingSet

variable {K : Type}

/-- All inequalities, none of them active. -/
def inactive (factors : List (Inequality K)) : WorkingSet K :=
  ⟨factors, List.replicate factors.length false, List.length_replicate⟩

/-- Activity as given by a mask with a flag for each inequality. -/
def ofMask (factors : List (Inequality K)) (mask : List Bool) : Except (Fault K) (WorkingSet K) :=
  if h : mask.length = factors.length then .ok ⟨factors, mask, h⟩
  else .error (.dimension (.mask mask.length factors.length))

def size (w : WorkingSet K) : Nat := w.factors.length

def factor (w : WorkingSet K) (ix : Int) : Except (Fault K) (Inequality K) :=
  Position.entry w.factors ix

def isActive (w : WorkingSet K) (ix : Int) : Except (Fault K) Bool := Position.entry w.active ix

/-- Sets one flag to a value that it does not have; `already` is the complaint if it has. -/
def change (w : WorkingSet K) (ix : Int) (flag : Bool) (already : Refusal K) :
    Except (Fault K) (WorkingSet K) :=
  match Position.place? w.size ix with
  | none => .error .outOfRange
  | some i =>
    if w.active[i]? = some flag then .error (.refused already)
    else .ok ⟨w.factors, w.active.set i flag, by simp [w.size_eq]⟩

def activate (w : WorkingSet K) (ix : Int) : Except (Fault K) (WorkingSet K) :=
  w.change ix true (.alreadyActive ix)

def deactivate (w : WorkingSet K) (ix : Int) : Except (Fault K) (WorkingSet K) :=
  w.change ix false (.alreadyInactive ix)

/-- The inequalities with their flags and positions. -/
def numbered (w : WorkingSet K) : List ((Inequality K × Bool) × Nat) :=
  (w.factors.zip w.active).zipIdx

/-- The inequalities whose flag is `flag`, with their positions. -/
def flagged (w : WorkingSet K) (flag : Bool) : List (Inequality K × Nat) :=
  (w.numbered.filter (·.1.2 = flag)).map fun e => (e.1.1, e.2)

def activeIndices (w : WorkingSet K) : List Nat := (w.flagged true).map (·.2)

def inactiveIndices (w : WorkingSet K) : List Nat := (w.flagged false).map (·.2)

def activeCount (w : WorkingSet K) : Nat := w.active.count true

variable [Scalar K]

/-- The active inequalities as equalities. -/
def asEqualities (w : WorkingSet K) : List (Equality K) := (w.flagged true).map (·.1.toEquality)

/--
Seeds activity from a start: with multipliers at hand the inequalities that have one, without any
the inequalities that are tight.
-/
def seed (factors : List (Inequality K)) (x : Point K) (duals : Option (Point K)) (tol : K) :
    Except (Fault K) (WorkingSet K) := do
  match duals with
  | some d =>
    if d.entries.isEmpty then ofMask factors (← factors.mapM (·.isTight x tol))
    else ofMask factors (factors.map fun f => d.contains f.dual)
  | none => ofMask factors (← factors.mapM (·.isTight x tol))

end WorkingSet

end ActiveSet
