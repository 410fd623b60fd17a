/-! The eight symbols of the language. Every other character of a text is inert. -/

namespace TapeLang

/-- A symbol that acts on the cell under the pointer, the pointer or a channel. -/
inductive Prim where
  | increment
  | decrement
  | right
  | left
  | output
  | input
deriving Repr, DecidableEq

/-- The character of a primitive. -/
def Prim.toChar : Prim → Char
  | .increment => '+'
  | .decrement => '-'
  | .right => '>'
  | .left => '<'
  | .output => '.'
  | .input => ','

/-- A symbol: a primitive or a bracket. -/
inductive Symbol where
  | prim (p : Prim)
  | opening
  | closing
deriving Repr, DecidableEq

namespace Symbol

/-- The character of a symbol. -/
def toChar : Symbol → Char
  | .prim p => p.toChar
  | .opening => '['
  | .closing => ']'

/-- The symbol that a character stands for; none for an inert character. -/
def ofChar? (c : Char) : Option Symbol :=
  if c = '+' then some (.prim .increment)
  else if c = '-' then some (.prim .decrement)
  else if c = '>' then some (.prim .right)
  else if c = '<' then some (.prim .left)
  else if c = '.' then some (.prim .output)
  else if c = ',' then some (.prim .input)
  else if c = '[' then some .opening
  else if c = ']' then some .closing
  else none

@[simp] theorem ofChar?_toChar (s : Symbol) : ofChar? s.toChar = some s := by
  cases s with
  | prim p => cases p <;> rfl
  | opening => rfl
  | closing => rfl

theorem toChar_of_ofChar? {c : Char} {s : Symbol} (h : ofChar? c = some s) : s.toChar = c := by
  unfold ofChar? at h
  repeat' split at h
  all_goals simp_all
  all_goals subst h; rfl

end Symbol

/-- The symbols of a text, in order. -/
def symbols (text : List Char) : List Symbol := text.filterMap Symbol.ofChar?

end TapeLang
