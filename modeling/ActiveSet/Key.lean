/-!
# Keys

Variables and multipliers are addressed by keys. A multiplier that nobody named gets a `dual` key of
its constraint's role, numbered in order of arrival by a `KeySource`.
-/

namespace ActiveSet

/-- The name of a variable or of a multiplier; a text and a number of the same digits differ. -/
inductive Key
  | text (name : String)
  | number (value : Int)
  /-- The name of a multiplier that is numbered within a role, and any pair that equals it. -/
  | dual (role : String) (index : Int)
  /-- The name of a multiplier that has none. -/
  | unnamed
  deriving DecidableEq

/-- The next number to give to a multiplier of one role. -/
structure KeySource where
  role : String
  next : Int := 0
  deriving DecidableEq

namespace KeySource

/-- A fresh key, and the source after it. -/
def fresh (s : KeySource) : Key × KeySource := (.dual s.role s.next, { s with next := s.next + 1 })

/-- Moves past one key if it is of this role. -/
def skipOne (s : KeySource) : Key → KeySource
  | .dual role index => if role = s.role then { s with next := max s.next (index + 1) } else s
  | _ => s

/-- Moves past a key with its position, unless a bare pair stands there. -/
def skipUnless (bare : Nat → Bool) (s : KeySource) (e : Key × Nat) : KeySource :=
  if bare e.2 then s else s.skipOne e.1

/--
Moves past all keys of this role that are in use. A bare pair of a role and a number is the same key
as the `dual` one, but is not recognised as one; `bare` says at which positions such pairs stand.
-/
def skip (s : KeySource) (used : List Key) (bare : Nat → Bool := fun _ => false) : KeySource :=
  used.zipIdx.foldl (skipUnless bare) s

end KeySource

end ActiveSet
