/-!
# Plane rotations in binary64

Both kernels on matrices turn pairs of columns until they are orthogonal. Here are the arrays of
numbers that they work on and the rotation of one pair.
-/

namespace ActiveSet.Numeric

/-- Columns of one length. -/
abbrev Columns := Array (Array Float)

def dot (a b : Array Float) : Float := (a.zip b).foldl (fun s e => s + e.1 * e.2) 0

def ofLists (rows : List (List Float)) : Columns := (rows.map List.toArray).toArray

def identity (n : Nat) : Columns :=
  Array.ofFn fun i : Fin n => Array.ofFn fun j : Fin n => if i.val = j.val then 1 else 0

/-- Cosine and sine of an angle. -/
structure Rotation where
  c : Float
  s : Float

/--
The rotation that makes the product `g` of two columns vanish, whose squared lengths are `a`, `b`.
-/
def Rotation.annihilating (a b g : Float) : Rotation :=
  let z := (b - a) / (2 * g)
  let t := (if z < 0 then -1 else 1) / (z.abs + (1 + z * z).sqrt)
  let c := 1 / (1 + t * t).sqrt
  ⟨c, c * t⟩

/-- Turns columns `p` and `q` in their plane. -/
def Rotation.apply (r : Rotation) (m : Columns) (p q : Nat) : Columns :=
  let a := m.getD p #[]
  let b := m.getD q #[]
  let a' := (a.zip b).map fun e => r.c * e.1 - r.s * e.2
  let b' := (a.zip b).map fun e => r.s * e.1 + r.c * e.2
  (m.setIfInBounds p a').setIfInBounds q b'

/-- All pairs of places below `n`, the first smaller than the second. -/
def pairs (n : Nat) : List (Nat × Nat) :=
  (List.range n).flatMap fun p => (List.range (n - p - 1)).map fun d => (p, p + 1 + d)

/-- Repeats a step at most `limit` times, until it says that nothing changed. -/
def settle {α : Type} (step : α → α × Bool) : Nat → α → α
  | 0, a => a
  | limit + 1, a =>
    match step a with
    | (a, true) => settle step limit a
    | (a, false) => a

end ActiveSet.Numeric
