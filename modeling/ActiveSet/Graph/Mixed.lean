import ActiveSet.Graph.Minimize

/-!
# Graphs of several kinds of factor

A graph that says which factors it takes: any, or only equalities, or only inequalities. Graphs of
costs take equalities too, read as least-squares factors. An inequality in such a graph is in place
until something is asked of it that only the other kinds answer.
-/

namespace ActiveSet

inductive AnyFactor (K : Type)
  | leastSquares (factor : Factor K)
  | equality (factor : Equality K)
  | inequality (factor : Inequality K)

namespace AnyFactor

variable {K : Type}

def kind : AnyFactor K → FactorKind
  | .leastSquares _ => .leastSquares
  | .equality _ => .equality
  | .inequality _ => .inequality

def keys : AnyFactor K → List Key
  | .leastSquares f => f.keys
  | .equality f => f.keys
  | .inequality f => f.keys

def dims : AnyFactor K → Keyed Nat
  | .leastSquares f => f.dims
  | .equality f => f.dims
  | .inequality f => f.dims

/-- The blocks and the right-hand side of a factor as `Σ Aₖ xₖ = b`; an inequality has them too. -/
def toFactor : AnyFactor K → Factor K
  | .leastSquares f => f
  | .equality f => f.toFactor
  | .inequality f => f.toEquality.toFactor

def toEquality? : AnyFactor K → Option (Equality K)
  | .equality f => some f
  | _ => none

def toInequality? : AnyFactor K → Option (Inequality K)
  | .inequality f => some f
  | _ => none

variable [Scalar K]

/-- What a factor contributes to a sum of costs; for an inequality it is the signed excess. -/
def error (f : AnyFactor K) (x : Point K) : Except (Fault K) K :=
  match f with
  | .leastSquares f => f.error x
  | .equality f => f.toFactor.error x
  | .inequality f => f.excess x

/-- The factor in coordinates around `x`, of the same kind; an inequality cannot be shifted. -/
def shifted (f : AnyFactor K) (x : Point K) : Except (Fault K) (AnyFactor K) :=
  match f with
  | .leastSquares f => return .leastSquares (← f.shifted x)
  | .equality f => return .equality (← f.shifted x)
  | .inequality _ => throw (.unsupported .inequality)

end AnyFactor

/-- What a graph is for. -/
inductive GraphKind
  | general
  | leastSquares
  | equality
  | inequality
  deriving DecidableEq

/-- The only kind of factor that a graph takes, if there is one. -/
def GraphKind.only? : GraphKind → Option FactorKind
  | .equality => some .equality
  | .inequality => some .inequality
  | .general | .leastSquares => none

structure MixedGraph (K : Type) where
  kind : GraphKind
  factors : List (AnyFactor K)

namespace MixedGraph

variable {K : Type}

/-- Whether a graph takes a factor. -/
def checkKind (kind : GraphKind) (f : AnyFactor K) : Except (Fault K) Unit :=
  match kind.only? with
  | some only => if f.kind = only then .ok () else .error (.wrongFactor only f.kind)
  | none => .ok ()

/-- Appends a factor; the answer is its position. -/
def push (g : MixedGraph K) (f : AnyFactor K) : Except (Fault K) (MixedGraph K × Nat) := do
  checkKind g.kind f
  return ({ g with factors := g.factors ++ [f] }, g.factors.length)

/-- Appends factors up to the first that is refused, and says whether one was. -/
def extend (g : MixedGraph K) : List (AnyFactor K) → MixedGraph K × Except (Fault K) Unit
  | [] => (g, .ok ())
  | f :: fs =>
    match g.push f with
    | .ok (g, _) => g.extend fs
    | .error e => (g, .error e)

def ofList (kind : GraphKind) (fs : List (AnyFactor K)) : Except (Fault K) (MixedGraph K) :=
  match extend ⟨kind, []⟩ fs with
  | (g, .ok ()) => .ok g
  | (_, .error e) => .error e

def keys (g : MixedGraph K) : List Key := firstAppearances (g.factors.flatMap AnyFactor.keys)

def dims (g : MixedGraph K) : Except (Fault K) (Keyed Nat) :=
  Keyed.mergeDims .empty (g.factors.flatMap fun f => f.dims.entries)

/-- The blocks and right-hand sides of all factors, as a sum of costs or a list of equations. -/
def toGraph (g : MixedGraph K) : Graph K := g.factors.map AnyFactor.toFactor

def equalities (g : MixedGraph K) : List (Equality K) := g.factors.filterMap AnyFactor.toEquality?

def inequalities (g : MixedGraph K) : List (Inequality K) :=
  g.factors.filterMap AnyFactor.toInequality?

variable [Scalar K]

def error (g : MixedGraph K) (x : Point K) : Except (Fault K) K := do
  return Vec.total (← g.factors.mapM fun f => f.error x)

def shifted (g : MixedGraph K) (x : Point K) : Except (Fault K) (MixedGraph K) := do
  return { g with factors := ← g.factors.mapM (·.shifted x) }

/--
The stacked system over an ordering, without one that of first appearance. The first inequality stops
the stacking, once the factors in front of it have been read.
-/
def stack (g : MixedGraph K) (ordering : Option (List Key)) (dims : Option (Keyed Nat)) :
    Except (Fault K) (LinearSystem K) := do
  let dims ← match dims with
    | some dims => pure dims
    | none => g.dims
  let stacked := g.factors.takeWhile (·.kind ≠ .inequality)
  let system ← LinearSystem.ofGraph (stacked.map AnyFactor.toFactor) (ordering.getD g.keys) dims
  if stacked.length < g.factors.length then throw (.unsupported .inequality)
  return system

end MixedGraph

end ActiveSet
