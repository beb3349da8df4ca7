import ActiveSet.WorkingSet

/-!
# The inequality that blocks a step

How far a step from a point along a direction can go before an inactive inequality becomes tight. An
inequality with `aᵀp ≤ 0` never does; one with `aᵀp > 0` does at the length `(b − aᵀx) / aᵀp`.
-/

namespace ActiveSet

/-- The longest step that may be taken along a direction. -/
inductive Cap (K : Type)
  | at (length : K)
  | unlimited

namespace Cap

variable {K : Type} [Scalar K]

/-- Whether a step of length `a` ends before the cap; a step to infinity does not. -/
def exceeds (a : K) : Cap K → Bool
  | .at c => a < c
  | .unlimited => Scalar.isFinite a || a < 0

/-- The longest step known so far: that of the blocking inequality, or the cap. -/
def stricter (cap : Cap K) (blocking : Option (K × Nat)) : Cap K :=
  match blocking with
  | some (a, _) => .at a
  | none => cap

end Cap

namespace WorkingSet

variable {K : Type} [Scalar K]

/-- Takes one inactive inequality into account. -/
def block (cap : Cap K) (x p : Point K) (blocking : Option (K × Nat)) (e : Inequality K × Nat) :
    Except (Fault K) (Option (K × Nat)) := do
  let slope ← e.1.product p
  if slope ≤ 0 then return blocking
  let ratio := (e.1.bound - (← e.1.product x)) / slope
  return if (cap.stricter blocking).exceeds ratio then some (ratio, e.2) else blocking

/--
The inactive inequality that a step from `x` along `p` meets first, with the length at which it
does, if that is before the cap; of several the first.
-/
def blocking (w : WorkingSet K) (x p : Point K) (cap : Cap K) :
    Except (Fault K) (Option (K × Nat)) :=
  (w.flagged false).foldlM (block cap x p) none

end WorkingSet

end ActiveSet
