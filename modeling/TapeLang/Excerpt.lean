import TapeLang.Index

/-! Places in a text and excerpts around them: a place is a line and a column, both counted from
one, and an excerpt shows numbered lines with a caret under the column. -/

namespace TapeLang

/-- The line and column of an offset, which may lie past the end. -/
def locate (source : List Char) (offset : Nat) : Nat × Nat :=
  let before := source.take offset
  let lineStart := before.length - (before.reverse.takeWhile (· != '\n')).length
  (before.count '\n' + 1, offset - lineStart + 1)

/-- The line and column of any offset. Lines are counted up to the offset, one below zero being
taken from the end of the text, and the column is the distance of the offset itself from the start
of its line. -/
def locateAny (source : List Char) (offset : Int) : Nat × Int :=
  let stop := if offset < 0 then source.length - offset.natAbs else offset.toNat
  let (line, column) := locate source stop
  (line, offset - stop + column)

namespace Excerpt

/-- A numbered line; the marked one starts with an angle. -/
def numbered (marked : Bool) (number : Nat) (line : List Char) : List Char :=
  (if marked then '>' else ' ') :: ' ' :: (toString number).toList.leftpad 4 ' ' ++
    [' ', '|', ' '] ++ line

/-- The line with the caret. -/
def marker (column : Int) : List Char :=
  List.replicate 7 ' ' ++ ['|', ' '] ++ List.replicate (column - 1).toNat ' ' ++ ['^']

/-- The lines of an excerpt around a line: as many lines on each side as the context says, and
below the line itself the caret. A line before the first counts as the first. -/
def lines (source : List (List Char)) (line column context : Int) : List (List Char) :=
  let centre := max 1 line
  let first := max 1 (centre - context)
  let last := min (source.length : Int) (centre + context)
  (source.zipIdx 1).flatMap fun (text, number) =>
    if first ≤ (number : Int) ∧ (number : Int) ≤ last then
      let marked : Bool := (number : Int) = centre
      numbered marked number text :: (if marked then [marker column] else [])
    else []

/-- An excerpt as one text. -/
def render (source : List (List Char)) (line column context : Int) : List Char :=
  ['\n'].intercalate (lines source line column context)

/-- Whether an excerpt shows its own line, and so the caret. -/
def showsCaret (source : List (List Char)) (line context : Int) : Bool :=
  0 ≤ context && max 1 line ≤ source.length

/-- An excerpt as one text, unless the caret stands too far right or left to be written. -/
def render? (memory : Memory) (source : List (List Char)) (line column context : Int) :
    Except SizeFault (List Char) :=
  match if showsCaret source line context then repeatFault? memory 1 (column - 1) else none with
  | some e => .error e
  | none => .ok (render source line column context)

end Excerpt

end TapeLang
