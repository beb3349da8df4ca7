import ActiveSet.Factor

/-!
# Factor graphs

Lists of factors: as costs they add up, as constraints they all hold. A graph stacks into one
linear system over an ordering of its keys; `LinearSystem.ofGraph` and the factors describe the
same residual.
-/

namespace ActiveSet

/-- A list of factors whose costs add up. -/
abbrev Graph (K : Type) := List (Factor K)

namespace Graph

variable {K : Type}

def keys (g : Graph K) : List Key := firstAppearances (g.flatMap Factor.keys)

/-- The dimension of every key, which all factors have to agree on. -/
def dims (g : Graph K) : Except (Fault K) (Keyed Nat) :=
  Keyed.mergeDims .empty (g.flatMap fun f => f.dims.entries)

variable [Scalar K]

def error (g : Graph K) (x : Point K) : Except (Fault K) K := do
  return Vec.total (← g.mapM fun f => f.error x)

/-- The sum of vectors of one length; no vectors at all give the empty one. -/
def sumVectors : List (List K) → Except (Fault K) (List K)
  | [] => .ok []
  | v :: vs =>
    if vs.all fun w => w.length = v.length then .ok (vs.foldl Vec.add v) else .error .badValue

/-- The gradient of `error` in the coordinates of one key. -/
def gradient (g : Graph K) (k : Key) (x : Point K) : Except (Fault K) (List K) := do
  sumVectors (← (g.filter fun f => f.mentions k).mapM fun f => f.gradient k x)

/-- All factors in coordinates around `x`. -/
def shifted (g : Graph K) (x : Point K) : Except (Fault K) (Graph K) := g.mapM fun f => f.shifted x

end Graph

namespace Equality

variable {K : Type} [Scalar K]

def graph (es : List (Equality K)) : Graph K := es.map (·.toFactor)

/-- The largest absolute entry of the residual; a constraint without rows has none. -/
def largestResidual (f : Equality K) (x : Point K) : Except (Fault K) K := do
  match (← f.toFactor.residual x).map Scalar.abs with
  | [] => throw .badValue
  | r :: rs => return Scalar.greatestFrom r rs

/-- The largest absolute residual of all equalities, the first of them that nothing exceeds. -/
def violation (es : List (Equality K)) (x : Point K) : Except (Fault K) K := do
  match ← es.mapM fun f => f.largestResidual x with
  | [] => return 0
  | r :: rs => return rs.foldl Scalar.larger r

end Equality

namespace Inequality

variable {K : Type} [Scalar K]

/-- The positive part of the excess of every inequality. -/
def violations (fs : List (Inequality K)) (x : Point K) : Except (Fault K) (List K) :=
  fs.mapM fun f => do return Scalar.larger (← f.excess x) 0

/-- Whether all hold within `tol`; the first that does not ends the search. -/
def allSatisfied (fs : List (Inequality K)) (x : Point K) (tol : K) : Except (Fault K) Bool :=
  fs.allM fun f => f.isSatisfied x tol

end Inequality

/-- The equations `A v = b`. -/
structure LinearSystem (K : Type) where
  matrix : Matrix K
  rhs : List K

namespace LinearSystem

variable {K : Type} [Scalar K]

/--
Row `i` of a factor over an ordering: its coefficients at the keys that it has and zeros at the
others. A key that the ordering repeats has its coefficients at the last place.
-/
def factorRow (f : Factor K) (i : Nat) : List (Key × Nat) → List K
  | [] => []
  | (k, d) :: rest =>
    (match f.terms.lookup k with
      | none => Vec.zeros d
      | some A => if rest.any (·.1 = k) then Vec.zeros d else Vec.fit d (A.rows.getD i []))
    ++ factorRow f i rest

theorem length_factorRow (f : Factor K) (i : Nat) (sized : List (Key × Nat)) :
    (factorRow f i sized).length = Point.totalDim sized := by
  induction sized with
  | nil => rfl
  | cons e rest ih =>
    simp only [factorRow, List.length_append, ih, Point.totalDim]
    congr 1
    split
    · simp
    · split <;> simp

/-- A block needs the width that its key has, and its key a place in the ordering. -/
def checkBlock (ordering : List Key) (dims : Keyed Nat) (e : Key × Matrix K) :
    Except (Fault K) Unit := do
  let d ← dims.get e.1
  if e.2.cols ≠ d then throw (.dimension (.stackedBlock e.1 d e.2.cols))
  if e.1 ∉ ordering then throw (.missingKey e.1)

/-- All rows of all factors over the ordering, in the order of the graph. -/
def ofSized (g : Graph K) (sized : List (Key × Nat)) : LinearSystem K where
  matrix :=
    { cols := Point.totalDim sized
      rows := g.flatMap fun f => (List.range f.rows).map fun i => factorRow f i sized
      rect := by
        intro row h
        simp only [List.mem_flatMap, List.mem_map] at h
        obtain ⟨f, _, i, _, rfl⟩ := h
        exact length_factorRow f i sized }
  rhs := g.flatMap (·.b)

/-- Stacks a graph over an ordering of its keys with their dimensions. -/
def ofGraph (g : Graph K) (ordering : List Key) (dims : Keyed Nat) :
    Except (Fault K) (LinearSystem K) := do
  let sized ← Point.sized ordering dims
  (g.flatMap fun f => f.terms.entries).forM (checkBlock ordering dims)
  return ofSized g sized

def isFinite (s : LinearSystem K) : Bool := s.matrix.isFinite && s.rhs.all Scalar.isFinite

end LinearSystem

end ActiveSet
