import ActiveSet.Text.Printable

/-!
# Quoted text

A text between quotes, with a backslash before the quote in use, the backslash itself and the line
breaks, and the code point of every other character that is not printable.
-/

namespace ActiveSet.Text

/-- The lower-case hexadecimal digits of `n`, at least `width` of them. -/
def hexadecimal (width n : Nat) : String :=
  let digits := String.ofList (Nat.toDigits 16 n)
  "".pushn '0' (width - digits.length) ++ digits

/-- A code point as an escape of two, four or eight digits, whichever is the first to hold it. -/
def codePointEscape (n : Nat) : String :=
  if n < 0x100 then "\\x" ++ hexadecimal 2 n
  else if n < 0x10000 then "\\u" ++ hexadecimal 4 n
  else "\\U" ++ hexadecimal 8 n

/-- One character between quotes of the kind `quote`. -/
def escaped (quote c : Char) : String :=
  if c = quote ∨ c = '\\' then "\\" ++ c.toString
  else if c = '\n' then "\\n"
  else if c = '\t' then "\\t"
  else if c = '\r' then "\\r"
  else if isPrintable c then c.toString
  else codePointEscape c.toNat

/-- Single quotes, unless the text holds a single quote and no double one. -/
def quoteFor (text : String) : Char :=
  if text.contains '\'' && !text.contains '"' then '"' else '\''

def quoted (text : String) : String :=
  let quote := quoteFor text
  quote.toString ++ String.join (text.toList.map (escaped quote)) ++ quote.toString

end ActiveSet.Text
