/-! Cells hold bytes. Any integer is stored as its remainder modulo 256. -/

namespace TapeLang

/-- The content of a cell. -/
abbrev Cell := UInt8

namespace Cell

/-- What a cell holds after `n` is stored in it: `n` modulo 256. -/
def wrap (n : Int) : Cell := UInt8.ofInt n

/-- The value of a cell as an integer from 0 to 255. -/
def value (c : Cell) : Int := c.toNat

/-- One more than `n`, as a cell. -/
def increment (n : Int) : Cell := wrap (n + 1)

/-- One less than `n`, as a cell. -/
def decrement (n : Int) : Cell := wrap (n - 1)

/-- What a program reads once its input has ended. -/
def endOfInput : Cell := 255

theorem toNat_wrap (n : Int) : (wrap n).toNat = (n % 256).toNat := by
  simp [wrap, UInt8.ofInt]
  omega

theorem value_wrap (n : Int) : (wrap n).value = n % 256 := by
  simp only [value, toNat_wrap]
  omega

@[simp] theorem wrap_value (c : Cell) : wrap c.value = c := by
  apply UInt8.toNat_inj.mp
  rw [toNat_wrap, value]
  have := c.toNat_lt
  omega

theorem increment_value (c : Cell) : increment c.value = c + 1 := by
  apply UInt8.toNat_inj.mp
  rw [increment, toNat_wrap, value, UInt8.toNat_add]
  simp
  omega

theorem decrement_value (c : Cell) : decrement c.value = c - 1 := by
  apply UInt8.toNat_inj.mp
  have := c.toNat_lt
  rw [decrement, toNat_wrap, value, UInt8.toNat_sub]
  simp
  omega

end Cell

end TapeLang
