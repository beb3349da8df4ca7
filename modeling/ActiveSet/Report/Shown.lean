import ActiveSet.Factor
import ActiveSet.KeyIndex
import ActiveSet.Problem
import ActiveSet.Report.Fault
import ActiveSet.Text.Row

/-!
# One-line descriptions
-/

namespace ActiveSet

namespace Report

def point (x : Point Float) : String :=
  "VectorValues(\x7b" ++
    String.intercalate ", " (x.entries.map fun e => e.1.render ++ ": " ++ Text.row e.2) ++ "\x7d)"

/-- A factor by the name of its kind, its keys and its rows. -/
def factor (kind : FactorKind) (f : Factor Float) : String :=
  kind.name ++ "(keys=" ++ keys f.keys ++ s!", rows={f.rows})"

def inequality (f : Inequality Float) : String :=
  let terms := f.terms.entries.map fun e => Text.row e.2 ++ "*" ++ e.1.render
  "LinearInequality(" ++ String.intercalate " + " terms ++ " <= " ++ Text.shortest f.bound ++
    ", dual=" ++ f.dual.render ++ ")"

def workingSet (w : WorkingSet Float) : String :=
  s!"WorkingSet(size={w.size}, active=" ++ indices w.activeIndices ++ ")"

def keyIndex (index : KeyIndex) : String :=
  s!"VariableIndex(keys={index.positions.size}, factors={index.factors})"

def problem (p : Problem Float) : String :=
  let lead := match p.cost with
    | .quadratic _ => "QP(cost="
    | .linear _ => "LP(cost_keys="
  lead ++ s!"{p.cost.size}, equalities={p.equalities.length}, " ++
    s!"inequalities={p.inequalities.length})"

end Report

end ActiveSet
