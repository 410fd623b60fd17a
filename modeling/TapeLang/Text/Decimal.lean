import TapeLang.Text.Blank
import TapeLang.Text.Digit

/-! Integers in decimal: blanks, a sign, digits of any script, blanks. -/

namespace TapeLang.Text

/-- How many digits a number may have, leading zeros included. -/
def digitLimit : Nat := 4300

/-- A text without the blanks at its ends. -/
def trimNumber (text : List Char) : List Char :=
  ((text.dropWhile isNumberBlank).reverse.dropWhile isNumberBlank).reverse

/-- The values of digits; none when a character is no digit. -/
def digitValues? (digits : List Char) : Option (List Nat) := digits.mapM digitValue?

/-- The number that digit values spell. -/
def ofDigits (values : List Nat) : Nat := values.foldl (fun n d => 10 * n + d) 0

/-- The number that digits spell: at least one and not too many. -/
def natural? (digits : List Char) : Option Nat :=
  if digits = [] ∨ digitLimit < digits.length then none
  else (digitValues? digits).map ofDigits

/-- The integer that a text spells. -/
def integer? (text : List Char) : Option Int :=
  match trimNumber text with
  | '-' :: digits => (natural? digits).map fun n : Nat => -(n : Int)
  | '+' :: digits => (natural? digits).map fun n : Nat => (n : Int)
  | digits => (natural? digits).map fun n : Nat => (n : Int)

end TapeLang.Text
