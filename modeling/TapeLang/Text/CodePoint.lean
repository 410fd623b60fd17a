/-! Texts as sequences of code points, surrogates included. A byte that does not belong to a
character is carried by a code point from U+DC80 to U+DCFF. -/

namespace TapeLang.Text

/-- A code point, which may be a surrogate. -/
abbrev CodePoint := Fin 0x110000

namespace CodePoint

/-- The code point of a number below 0x110000. -/
def ofNat (n : Nat) : CodePoint := Fin.ofNat 0x110000 n

/-- The code point of a character. -/
def ofChar (c : Char) : CodePoint := ofNat c.toNat

/-- Whether a code point is a surrogate. -/
def isSurrogate (c : CodePoint) : Bool := 0xD800 ≤ c.val && c.val ≤ 0xDFFF

/-- The code point that carries a byte. -/
def ofByte (b : UInt8) : CodePoint := ofNat (0xDC00 + b.toNat)

/-- The byte that a code point carries. -/
def byte? (c : CodePoint) : Option UInt8 :=
  if 0xDC80 ≤ c.val ∧ c.val ≤ 0xDCFF then some (UInt8.ofNat (c.val - 0xDC00)) else none

theorem byte?_ofByte {b : UInt8} (h : 128 ≤ b.toNat) : (ofByte b).byte? = some b := by
  have hb := b.toNat_lt
  have hv : (ofByte b).val = 0xDC00 + b.toNat := by
    simp only [ofByte, ofNat, Fin.ofNat]
    omega
  simp only [byte?, hv]
  rw [if_pos (by omega)]
  simp

end CodePoint

/-- The code points of a text. -/
def codePoints (text : String) : List CodePoint := text.toList.map CodePoint.ofChar

end TapeLang.Text
