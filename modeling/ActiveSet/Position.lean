import ActiveSet.Fault

/-!
# Positions

A position in a sequence is counted from the front, or from the end if it is negative: `-1` is the
last entry.
-/

namespace ActiveSet.Position

/-- The place, from the front, that a position means in a sequence of `n` entries. -/
def place? (n : Nat) (ix : Int) : Option Nat :=
  if 0 ≤ ix ∧ ix < n then some ix.toNat
  else if -(n : Int) ≤ ix ∧ ix < 0 then some (ix + n).toNat
  else none

theorem place?_lt {n : Nat} {ix : Int} {i : Nat} (h : place? n ix = some i) : i < n := by
  unfold place? at h
  split at h
  · obtain rfl := Option.some.inj h
    omega
  · split at h
    · obtain rfl := Option.some.inj h
      omega
    · cases h

/-- The entry at a position. -/
def entry {K α : Type} (l : List α) (ix : Int) : Except (Fault K) α :=
  match (place? l.length ix).bind (l[·]?) with
  | some a => .ok a
  | none => .error .outOfRange

end ActiveSet.Position
