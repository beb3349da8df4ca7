import ActiveSet.WorkingSet

/-!
# The inequality that leaves

At a point that no step along the active inequalities improves, an active inequality with a positive
multiplier holds the point back and may be dropped. A rule says which one.
-/

namespace ActiveSet

namespace Point

variable {K : Type}

/-- The multiplier of a constraint of one row. -/
def multiplier (duals : Point K) (dual : Key) : Except (Fault K) K := do
  match ← duals.get dual with
  | [] => throw .outOfRange
  | a :: _ => return a

end Point

/-- Picks the active inequality to drop, if there is one, from the multipliers. -/
abbrev LeavingRule (K : Type) := WorkingSet K → Point K → Except (Fault K) (Option Nat)

namespace LeavingRule

variable {K : Type} [Scalar K]

/-- The larger of a positive multiplier known so far and that of one more inequality. -/
def worse (duals : Point K) (worst : Option (K × Nat)) (e : Inequality K × Nat) :
    Except (Fault K) (Option (K × Nat)) := do
  let a ← Point.multiplier duals e.1.dual
  let known := match worst with
    | some (b, _) => b
    | none => 0
  return if known < a then some (a, e.2) else worst

/-- The active inequality with the largest positive multiplier, the first of several. -/
def largestMultiplier : LeavingRule K := fun w duals => do
  return (← (w.flagged true).foldlM (worse duals) none).map (·.2)

/-- The first active inequality, whatever its multiplier. -/
def firstActive : LeavingRule K := fun w _ => .ok w.activeIndices.head?

end LeavingRule

end ActiveSet
