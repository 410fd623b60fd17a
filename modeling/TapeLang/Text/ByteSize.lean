/-! Amounts of bytes in binary units, with three digits. -/

namespace TapeLang.Text

/-- A quotient rounded to the nearest integer, a half to the even one. -/
def roundDiv (n d : Nat) : Nat :=
  let q := n / d
  let r := n % d
  if 2 * r < d ∨ 2 * r = d ∧ q % 2 = 0 then q else q + 1

/-- A quotient from one up with three digits, or with all its digits before the point if these are
more. The point is always written. -/
def threeDigits (n d : Nat) : String :=
  let hundredths := roundDiv (100 * n) d
  let tenths := roundDiv (10 * n) d
  if hundredths < 1000 then
    toString (hundredths / 100) ++ "." ++ toString (hundredths / 10 % 10) ++
      toString (hundredths % 10)
  else if tenths < 1000 then toString (tenths / 10) ++ "." ++ toString (tenths % 10)
  else toString (roundDiv n d) ++ "."

/-- The binary units, each 1024 times the one before. -/
def binaryUnits : List String := ["bytes", "KiB", "MiB", "GiB", "TiB", "PiB", "EiB"]

/-- An amount of bytes in the largest unit of which it has one, after rounding. -/
def byteSize (n : Nat) : String :=
  let fitting := n.log2 / 10
  let unit := if roundDiv n (Nat.pow 1024 fitting) = 1024 then fitting + 1 else fitting
  let amount := if unit = 0 then toString n else threeDigits n (Nat.pow 1024 unit)
  amount ++ " " ++ binaryUnits.getD unit "EiB"

end TapeLang.Text
