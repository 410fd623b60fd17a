/-! Sizes: the counts that a word of the machine can hold, the memory that there is, and what is
said about sizes beyond them. -/

namespace TapeLang

/-- The largest index. -/
def largestIndex : Int := 0x7FFFFFFFFFFFFFFF

/-- Whether an integer is an index, which may be negative. -/
def isIndex (n : Int) : Bool := -largestIndex - 1 ≤ n && n ≤ largestIndex

/-- What the memory of the host refuses. A tape is never refused the next cell: memory that is used
up cell by cell is left out of account. -/
structure Memory where
  /-- Whether a tape with some cells is refused a number of further cells. -/
  refusesCells : Nat → Nat → Bool
  /-- Whether a fixed tape of a capacity is refused. -/
  refusesTape : Nat → Bool
  /-- Whether a text of a number of characters is refused. -/
  refusesText : Nat → Bool
  grants_next : ∀ size, refusesCells size 1 = false

/-- A memory that refuses everything from a size on, and nothing below it. -/
def Memory.below (size : Nat) (h : 1 < size := by decide) : Memory where
  refusesCells _ count := size ≤ count
  refusesTape capacity := size ≤ capacity
  refusesText length := size ≤ length
  grants_next _ := decide_eq_false (Nat.not_le.mpr h)

/-- Why something cannot be made as large as it should be. -/
inductive SizeFault where
  /-- The size is no index. -/
  | notIndex
  /-- The number of characters is no index. -/
  | textTooLong
  /-- The number of bytes leaves no room for what goes with them. -/
  | tooManyBytes
  /-- There is not as much memory. -/
  | noMemory
deriving Repr, DecidableEq

/-- What is said about a size. -/
def SizeFault.message : SizeFault → String
  | .notIndex => "cannot fit 'int' into an index-sized integer"
  | .textTooLong => "repeated string is too long"
  | .tooManyBytes => "byte string is too large"
  | .noMemory => ""

/-- Why a tape with some cells cannot get a number of further ones, if it cannot, given which the
memory refuses. A block of bytes comes with 33 bytes of its own. -/
def cellsFault? (refuses : Nat → Nat → Bool) (size count : Nat) : Option SizeFault :=
  if !isIndex count then some .notIndex
  else if largestIndex - 33 < count then some .tooManyBytes
  else if refuses size count then some .noMemory
  else none

/-- Why a text of the given size cannot be repeated so often, if it cannot. A count below one gives
the empty text. -/
def repeatFault? (memory : Memory) (size : Nat) (count : Int) : Option SizeFault :=
  if !isIndex count then some .notIndex
  else if largestIndex < size * count then some .textTooLong
  else if 0 < count && memory.refusesText (size * count).toNat then some .noMemory
  else none

end TapeLang
