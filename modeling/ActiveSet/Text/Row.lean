import ActiveSet.Text.Padding
import ActiveSet.Text.Shortest

/-!
# A row of numbers

The entries of a vector between brackets, padded to one width so that their points align. A row
whose magnitudes lie far apart is written in scientific notation throughout.
-/

namespace ActiveSet.Text

/-- Digits behind the point that a row shows at most. -/
def rowPlaces : Nat := 8

/-- The line length of a row; a longer one goes on in the next line, behind one blank. -/
def rowWidth : Nat := 74

/-- A number cut into the text before its point, the text after it and its exponent. -/
structure Parts where
  left : String
  right : String
  exponent : Int := 0

/-- Digits without the zeros at the end. -/
def trimZeros (digits : String) : String := (digits.dropEndWhile '0').toString

/-- The shortest positional parts, rounded to `rowPlaces` places where they are longer. -/
def Parts.positional (m : Nat) (q : Int) : Parts :=
  let places := tenTo rowPlaces
  let (d, k) := if m = 0 then (0, 0) else shortestDigits m q
  let n :=
    if -(rowPlaces : Int) ≤ k then d * tenTo (k + rowPlaces).toNat
    else scaledRound (dyadic m q).1 (dyadic m q).2 rowPlaces
  let right := (n % places).repr
  { left := (n / places).repr
    right := trimZeros ("".pushn '0' (rowPlaces - right.length) ++ right) }

/-- The shortest scientific parts, rounded to `rowPlaces` places where they are longer. -/
def Parts.scientific (m : Nat) (q : Int) : Parts :=
  let (digits, e) := shortestScientific m q
  let (digits, e) :=
    if digits.length ≤ rowPlaces + 1 then (digits, e)
    else
      let (d, e) := leadingDigits (dyadic m q).1 (dyadic m q).2 rowPlaces
      (d.repr, e)
  { left := (digits.take 1).toString, right := trimZeros (digits.drop 1).toString, exponent := e }

/-- An entry of a row: finite ones are in parts. -/
inductive Cell
  | word (text : String)
  | number (parts : Parts)

/-- Magnitudes from `1e8` on, below `1e-4`, or more than a thousandfold apart. -/
def needsExponents (row : List Float) : Bool :=
  match (row.filter fun x => x.isFinite && x != 0).map Float.abs with
  | [] => false
  | x :: xs =>
    let largest := xs.foldl max x
    let smallest := xs.foldl min x
    1e8 ≤ largest || smallest < 1e-4 || 1000 < largest / smallest

def Cell.ofFloat (scientific : Bool) (x : Float) : Cell :=
  match Binary64.ofFloat x with
  | .nan => .word "nan"
  | .infinite negative => .word (special negative)
  | .finite negative m q =>
    let parts := if scientific then Parts.scientific m q else Parts.positional m q
    .number { parts with left := signText negative ++ parts.left }

/-- The widths that all entries of a row share. -/
structure Columns where
  left : Nat
  right : Nat
  /-- Digits of the exponent in scientific notation. -/
  exponent : Option Nat

def longest (texts : List String) : Nat := (texts.map String.length).foldl max 0

def exponentDigits (e : Int) : Nat := (exponentText e).length - 1

/-- What stands to the right of the point, the exponent with its mark and sign included. -/
def Columns.rightWidth (c : Columns) : Nat :=
  match c.exponent with
  | none => c.right
  | some digits => c.right + digits + 2

/-- The widths of the numbers; the words, which have no point, may need more on the left. -/
def Columns.ofCells (scientific : Bool) (cells : List Cell) : Columns :=
  let numbers := cells.filterMap fun | .number p => some p | .word _ => none
  let words := cells.filterMap fun | .word t => some t | .number _ => none
  let columns : Columns :=
    { left := longest (numbers.map (·.left))
      right := longest (numbers.map (·.right))
      exponent :=
        if scientific then some ((numbers.map fun p => exponentDigits p.exponent).foldl max 0)
        else none }
  { columns with left := max columns.left (longest words - (columns.rightWidth + 1)) }

def Cell.render (c : Columns) : Cell → String
  | .word text => padLeft (c.left + c.rightWidth + 1) text
  | .number p =>
    let left := padLeft c.left p.left
    match c.exponent with
    | none => left ++ "." ++ p.right.pushn ' ' (c.right - p.right.length)
    | some digits =>
      let shown := p.exponent.natAbs.repr
      left ++ "." ++ p.right.pushn '0' (c.right - p.right.length) ++ "e" ++
        (if p.exponent < 0 then "-" else "+") ++ "".pushn '0' (digits - shown.length) ++ shown

/-- Sets words one after the other, with a new line before a word that would pass `rowWidth`. -/
def wrap : List String → (lines line : String) → String
  | [], lines, line => lines ++ line
  | word :: words, lines, line =>
    let full := 1 < line.length && rowWidth < line.length + word.length
    let lines := if full then lines ++ line.trimAsciiEnd.toString ++ "\n" else lines
    let line := (if full then " " else line) ++ word
    wrap words lines (if words.isEmpty then line else line ++ " ")

/-- The text of a vector. -/
def row (entries : List Float) : String :=
  let scientific := needsExponents entries
  let cells := entries.map (Cell.ofFloat scientific)
  let columns := Columns.ofCells scientific cells
  "[" ++ ((wrap (cells.map (·.render columns)) "" " ").drop 1).toString ++ "]"

end ActiveSet.Text
