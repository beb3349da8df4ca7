import ActiveSet.Keyed

/-!
# Positions by key

For every key of a list of factors, the positions of the factors that mention it.
-/

namespace ActiveSet

/-- A snapshot: factors that come later are not in it. -/
structure KeyIndex where
  positions : Keyed (List Nat)
  factors : Nat

namespace KeyIndex

/-- Adds one position to those of a key. -/
def note (m : Keyed (List Nat)) (ix : Nat) (k : Key) : Keyed (List Nat) :=
  m.insert k ((m.lookup k).getD [] ++ [ix])

/-- Indexes factors, given by their keys. -/
def ofKeys (keys : List (List Key)) : KeyIndex where
  positions := keys.zipIdx.foldl (fun m e => e.1.foldl (note · e.2) m) .empty
  factors := keys.length

/-- The positions of the factors that mention a key; none if no factor does. -/
def get (index : KeyIndex) (k : Key) : List Nat := (index.positions.lookup k).getD []

end KeyIndex

end ActiveSet
