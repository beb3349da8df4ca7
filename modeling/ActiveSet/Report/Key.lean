import ActiveSet.Key
import ActiveSet.Text.Quoted

/-!
# Keys and lists in text
-/

namespace ActiveSet

/-- Text between quotes, numbers as they are, and dual keys by role and number. -/
def Key.render : Key → String
  | .text name => Text.quoted name
  | .number value => toString value
  | .dual role index => "lambda_" ++ role ++ toString index
  | .unnamed => "None"

namespace Report

/-- Parts between brackets, with commas. -/
def list (parts : List String) : String := "[" ++ String.intercalate ", " parts ++ "]"

def indices (l : List Nat) : String := list (l.map toString)

def keys (l : List Key) : String := list (l.map Key.render)

/-- Extents between parentheses; a single one has a comma behind it. -/
def shape : List Nat → String
  | [n] => "(" ++ toString n ++ ",)"
  | l => "(" ++ String.intercalate ", " (l.map toString) ++ ")"

end Report

end ActiveSet
