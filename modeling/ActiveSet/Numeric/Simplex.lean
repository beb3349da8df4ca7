import ActiveSet.Kernels

/-!
# Linear programs in binary64

The dual simplex method on a dense tableau. Every row of the program has a logical variable, its
activity; the first basis holds these, with every other variable at the bound that its cost
prefers, or at zero if it has none. Equations are then solved for free variables that occur in few
rows. From there each pivot moves the worst violated variable to its bound, so that a solution
stays close to zero where nothing asks for more.
-/

namespace ActiveSet.Numeric

/-- A coefficient up to this size counts as zero. -/
def pivotTolerance : Float := 1e-9

/-- Violation up to which a bound counts as satisfied. -/
def boundTolerance : Float := 1e-7

/-- The bounds of a variable, infinite where it has none. -/
structure Interval where
  lower : Float
  upper : Float

/--
Equations `Σⱼ Tᵢⱼ vⱼ = 0`, each solved for the variable that is basic in it, with reduced costs
and the values of the variables that are not basic.
-/
structure Tableau where
  rows : Array (Array Float)
  reduced : Array Float
  basis : Array Nat
  bounds : Array Interval
  resting : Array Float

namespace Tableau

def coefficient (t : Tableau) (i j : Nat) : Float := (t.rows.getD i #[]).getD j 0

def interval (t : Tableau) (j : Nat) : Interval := t.bounds.getD j ⟨0, 0⟩

/-- The value of the variable that is basic in row `i`. -/
def basicValue (t : Tableau) (i : Nat) : Float :=
  let b := t.basis.getD i 0
  let row := t.rows.getD i #[]
  (List.range row.size).foldl (fun v j =>
    if j = b then v else v - row.getD j 0 * t.resting.getD j 0) 0

/-- How far a value lies above (or, negative, below) its bounds. -/
def excess (b : Interval) (v : Float) : Float :=
  if b.upper < v then v - b.upper else if v < b.lower then v - b.lower else 0

/-- The squared length of row `i` of the inverse of the basis, read off the logical variables. -/
def weight (t : Tableau) (structural i : Nat) : Float :=
  let row := t.rows.getD i #[]
  (List.range (row.size - structural)).foldl (fun w k =>
    w + row.getD (structural + k) 0 * row.getD (structural + k) 0) 0

/--
The row whose basic variable violates its bounds, with the excess: the steepest one, or the first.
-/
def leaving? (t : Tableau) (structural : Nat) (first : Bool) : Option (Nat × Float) :=
  let violated := (List.range t.rows.size).filterMap fun i =>
    let e := excess (t.interval (t.basis.getD i 0)) (t.basicValue i)
    if boundTolerance < e.abs then some (i, e) else none
  if first then violated.head?
  else
    (violated.map fun (i, e) => (i, e, e * e / t.weight structural i)).foldl
      (fun (best : Option (Nat × Float × Float)) c => match best with
        | none => some c
        | some b => if b.2.2 < c.2.2 then some c else best) none
    |>.map fun (i, e, _) => (i, e)

/-- Whether variable `j`, which rests at a bound or at zero, may move so as to lower the excess. -/
def mayEnter (t : Tableau) (i : Nat) (excess : Float) (j : Nat) : Bool :=
  let a := t.coefficient i j
  let b := t.interval j
  let v := t.resting.getD j 0
  let upwards := (0 < excess) == (0 < a)
  pivotTolerance < a.abs && !t.basis.contains j && b.lower < b.upper &&
    (if upwards then v < b.upper else b.lower < v)

/--
The variable to enter for row `i`: of least ratio, and of those the one of largest coefficient.
-/
def entering? (t : Tableau) (i : Nat) (excess : Float) : Option Nat :=
  let ratio (j : Nat) : Float := t.reduced.getD j 0 / t.coefficient i j
  ((List.range t.resting.size).filter (t.mayEnter i excess)).foldl (fun best j =>
    match best with
    | none => some j
    | some b =>
      let less := (ratio j).abs + pivotTolerance < (ratio b).abs
      let tied := !((ratio b).abs + pivotTolerance < (ratio j).abs)
      if less || (tied && (t.coefficient i b).abs ≤ (t.coefficient i j).abs) then some j
      else best) none

/-- Subtracts `f` times one row from another. -/
def eliminate (pivotRow : Array Float) (f : Float) (row : Array Float) : Array Float :=
  if f == 0 then row else (row.zip pivotRow).map fun e => e.1 - f * e.2

/-- Makes variable `j` basic in row `i`; the one that was basic there comes to rest at `v`. -/
def pivot (t : Tableau) (i j : Nat) (v : Float) : Tableau :=
  let row := t.rows.getD i #[]
  let row := row.map (· / row.getD j 1)
  { t with
    rows := t.rows.mapIdx fun k other =>
      if k = i then row else eliminate row (other.getD j 0) other
    reduced := eliminate row (t.reduced.getD j 0) t.reduced
    resting := (t.resting.setIfInBounds (t.basis.getD i 0) v).setIfInBounds j 0
    basis := t.basis.setIfInBounds i j }

/-- The rows in which a variable occurs. -/
def occurrences (t : Tableau) (j : Nat) : Nat :=
  ((List.range t.rows.size).filter fun i => pivotTolerance < (t.coefficient i j).abs).length

/-- Whether variable `j` has neither bounds nor a cost. -/
def isFree (t : Tableau) (j : Nat) : Bool :=
  let b := t.interval j
  !b.lower.isFinite && !b.upper.isFinite && (t.reduced.getD j 0).abs ≤ pivotTolerance

/--
The free variable to solve row `i` for: of those with coefficients of a size the one in fewest
rows.
-/
def solvable? (t : Tableau) (i : Nat) : Option Nat :=
  let size (j : Nat) : Float := (t.coefficient i j).abs
  let free := (List.range t.resting.size).filter fun j => t.isFree j && !t.basis.contains j
  let largest := free.foldl (fun m j => max m (size j)) 0
  (free.filter fun j => pivotTolerance < size j && 0.01 * largest ≤ size j).foldl (fun best j =>
    match best with
    | none => some j
    | some b =>
      let n := t.occurrences j
      let m := t.occurrences b
      if n < m || (n == m && size b ≤ size j) then some j else best) none

/-- Solves the equations, whose logical variables have no freedom, for free variables. -/
def solveEquations (t : Tableau) : Tableau :=
  (List.range t.rows.size).foldl (fun t i =>
    let b := t.interval (t.basis.getD i 0)
    if b.lower < b.upper then t
    else
      match t.solvable? i with
      | some j => t.pivot i j b.lower
      | none => t) t

/-- Pivots until no bound is violated any more; `none` if a violated bound cannot be met. -/
def restore (structural : Nat) : Nat → Tableau → Option Tableau
  | 0, t => some t
  | budget + 1, t =>
    match t.leaving? structural (budget < 5000) with
    | none => some t
    | some (i, e) =>
      match t.entering? i e with
      | none => none
      | some j =>
        let b := t.interval (t.basis.getD i 0)
        restore structural budget (t.pivot i j (if 0 < e then b.upper else b.lower))

/-- Pivots that are allowed; the second half of them take violated rows in their order. -/
def budget : Nat := 10000

/-- The value of a variable. -/
def value (t : Tableau) (j : Nat) : Float :=
  match t.basis.toList.idxOf? j with
  | some i => t.basicValue i
  | none => t.resting.getD j 0

end Tableau

/-- The place where a variable of cost `c` rests at first; `none` if its cost has no end there. -/
def restingPlace (b : Interval) (c : Float) : Option Float :=
  if 0 < c then if b.lower.isFinite then some b.lower else none
  else if c < 0 then if b.upper.isFinite then some b.upper else none
  else if b.lower.isFinite then some b.lower
  else if b.upper.isFinite then some b.upper
  else some 0

def infinity : Float := 1 / 0

def Interval.ofRange (r : Range Float) : Interval :=
  ⟨r.lower.getD (-infinity), r.upper.getD infinity⟩

/-- The first tableau: activities are basic. -/
def firstTableau (p : LinearProgram Float) (resting : List Float) : Tableau :=
  let structural := p.cost.length
  let rows := p.atMost.matrix.rows ++ p.equal.matrix.rows
  let logical (i : Nat) : List Float :=
    (List.range rows.length).map fun k => if k = i then 1 else 0
  { rows := (rows.mapIdx fun i row => (row.map (- ·) ++ logical i).toArray).toArray
    reduced := (p.cost ++ rows.map fun _ => (0 : Float)).toArray
    basis := ((List.range rows.length).map (structural + ·)).toArray
    bounds := (p.ranges.map Interval.ofRange ++ p.atMost.rhs.map (Interval.mk (-infinity)) ++
      p.equal.rhs.map fun d => Interval.mk d d).toArray
    resting := (resting ++ rows.map fun _ => (0 : Float)).toArray }

/-- Solves a program in which every cost is bounded by the range of its own variable. -/
def linearProgram (p : LinearProgram Float) : LinearProgram.Outcome Float :=
  match (p.ranges.zip p.cost).mapM fun e => restingPlace (.ofRange e.1) e.2 with
  | none => .failed
  | some resting =>
    match (firstTableau p resting).solveEquations.restore p.cost.length Tableau.budget with
    | none => .infeasible
    | some t => .optimal ((List.range p.cost.length).map t.value)

end ActiveSet.Numeric
