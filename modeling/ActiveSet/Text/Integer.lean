/-!
# Integers in text

A decimal integer with an optional sign, blanks around it, and single underscores between digits.
The blanks and the decimal digits are those of Unicode 14.
-/

namespace ActiveSet.Text

/-- The code points that count as blank: those of Unicode without the separators from 28 to 31. -/
def blanks : List Nat :=
  [9, 10, 11, 12, 13, 32, 133, 160, 5760, 8192, 8193, 8194, 8195, 8196, 8197, 8198, 8199, 8200,
   8201, 8202, 8232, 8233, 8239, 8287, 12288]

def isBlank (c : Char) : Bool := blanks.contains c.toNat

/-- The code points of the digit zero in all scripts; the digits one to nine follow each of them. -/
def zeroDigits : List Nat :=
  [48, 1632, 1776, 1984, 2406, 2534, 2662, 2790, 2918, 3046, 3174, 3302, 3430, 3558, 3664, 3792,
   3872, 4160, 4240, 6112, 6160, 6470, 6608, 6784, 6800, 6992, 7088, 7232, 7248, 42528, 43216,
   43264, 43472, 43504, 43600, 44016, 65296, 66720, 68912, 69734, 69872, 69942, 70096, 70384,
   70736, 70864, 71248, 71360, 71472, 71904, 72016, 72784, 73040, 73120, 92768, 92864, 93008,
   120782, 120792, 120802, 120812, 120822, 123200, 123632, 125264, 130032]

def digitValue? (c : Char) : Option Nat :=
  (zeroDigits.find? fun z => z ≤ c.toNat && c.toNat < z + 10).map (c.toNat - ·)

/-- Reads digits behind a digit, with the value of those before them. -/
def readDigits : Nat → List Char → Option Nat
  | n, [] => some n
  | n, '_' :: c :: rest => (digitValue? c).bind fun d => readDigits (10 * n + d) rest
  | n, c :: rest => (digitValue? c).bind fun d => readDigits (10 * n + d) rest

def readNatural : List Char → Option Nat
  | [] => none
  | c :: rest => (digitValue? c).bind fun d => readDigits d rest

def readInteger (text : String) : Option Int :=
  let inner := ((text.toList.dropWhile isBlank).reverse.dropWhile isBlank).reverse
  match inner with
  | '-' :: rest => (readNatural rest).map fun n => -(n : Int)
  | '+' :: rest => (readNatural rest).map Int.ofNat
  | _ => (readNatural inner).map Int.ofNat

end ActiveSet.Text
