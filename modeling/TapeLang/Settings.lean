import TapeLang.Fault
import TapeLang.Text.Decimal

/-! Settings: the capacity of fixed tapes and the encoding of texts, given by the caller or taken
from the environment; and what is up to the host. The values of the environment are taken to be
texts of characters: a value with a lone surrogate in it, which spells no integer and names no
codec, is left out. -/

namespace TapeLang

/-- The variables of the environment that matter here. -/
structure Environment where
  capacity : Option String := none
  encoding : Option String := none
deriving Repr, DecidableEq

/-- What is up to the host: its memory, its codecs, and the room that it has for nested loops, when
a text is walked and when the blocks of a program are gone through. -/
structure Host where
  memory : Memory
  codecs : Encoding.Codecs
  walkRoom : Nat
  blockRoom : Nat

namespace Settings

/-- The capacity of fixed tapes when nothing else is said. -/
def defaultCapacity : Int := 1000000

/-- The encoding of texts when nothing else is said. -/
def defaultEncoding : String := "utf-8"

/-- The encoding of program files: every byte is a character. -/
def programEncoding : String := "latin-1"

/-- The integer of a variable, or a default when it is not set or blank. Underscores are
ignored. -/
def readInteger (raw : Option String) (default : Int) : Except Fault Int :=
  match raw with
  | none => .ok default
  | some text =>
    if text.toList.all Text.isBlank then .ok default
    else
      match Text.integer? (text.toList.filter (· != '_')) with
      | some n => .ok n
      | none => .error (.notInteger text)

/-- A capacity must be positive. -/
def checkCapacity (n : Int) : Except Fault Nat :=
  if n ≤ 0 then .error (.notPositive n) else .ok n.toNat

/-- The capacity that was chosen, or that of the environment. -/
def capacity (env : Environment) (chosen : Option Int) : Except Fault Nat := do
  match chosen with
  | some n => checkCapacity n
  | none => checkCapacity (← readInteger env.capacity defaultCapacity)

/-- The name of the encoding in the environment; an empty one counts as not set. -/
def encodingName (env : Environment) : String :=
  match env.encoding with
  | some name => if name.isEmpty then defaultEncoding else name
  | none => defaultEncoding

/-- The name of the encoding that was chosen, or that of the environment; there must be a codec of
that name. -/
def encoding (codecs : Encoding.Codecs) (env : Environment) (chosen : Option String) :
    Except Fault String :=
  let name := chosen.getD (encodingName env)
  if name.toList.contains (Char.ofNat 0) then .error (.conversion .nullInName)
  else
    match codecs.find? name with
    | some _ => .ok name
    | none => .error (.unknownEncoding name)

end Settings

end TapeLang
