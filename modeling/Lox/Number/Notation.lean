import Lox.Number.Shortest

/-!
# The text of a number

A number is written with the fewest digits that read back, always in positional notation and
without a fraction of zero. The sign of zero is kept.
-/

namespace Lox

/-- The digits of a decimal, with the point in its place and zeros where there is no digit. -/
def Decimal.positional (d : Decimal) : List Char :=
  let digits := Nat.toDigits 10 d.digits
  if 0 ≤ d.exponent then digits ++ List.replicate d.exponent.toNat '0'
  else
    let places := (-d.exponent).toNat
    if digits.length ≤ places then
      '0' :: '.' :: (List.replicate (places - digits.length) '0' ++ digits)
    else
      digits.take (digits.length - places) ++ '.' :: digits.drop (digits.length - places)

/-- The text of a number whose bits have been read. -/
def Magnitude.text : Magnitude → List Char
  | .notANumber => "NaN".toList
  | .infinite negative => (if negative then "-Infinity" else "Infinity").toList
  | .finite negative significand exponent =>
      let digits :=
        if significand == 0 then ['0'] else (Decimal.shortest significand exponent).positional
      if negative then '-' :: digits else digits

/-- The text of a number. -/
def numberText (x : Float) : String :=
  String.ofList (Magnitude.ofBits x.toBits.toNat).text

end Lox
