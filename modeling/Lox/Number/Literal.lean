/-!
# Number literals

A literal is a run of ASCII digits, or two runs with a point between them. It denotes the number
nearest to the decimal it writes.
-/

namespace Lox

/-- The natural number a run of digits writes. -/
def digitsValue (digits : List Char) : Nat :=
  digits.foldl (fun n c => 10 * n + (c.toNat - '0'.toNat)) 0

/-- The number a literal denotes. -/
def literalValue (lexeme : List Char) : Float :=
  let whole := lexeme.takeWhile Char.isDigit
  let fraction := (lexeme.dropWhile Char.isDigit).tail
  Float.ofScientific (digitsValue (whole ++ fraction)) true fraction.length

end Lox
