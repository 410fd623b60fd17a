import TapeLang.Script
import TapeLang.Index

/-! Layout of scripts: one statement a line, each level indented by four blanks, and levels below
zero not at all. Lines are read back by their indentation alone: the body of a header is what stands
deeper below it. -/

namespace TapeLang

/-- The text of a statement. -/
def Statement.text : Statement → List Char
  | .increment => "tape[pos] = (int(tape[pos]) + 1) & 0xFF".toList
  | .decrement => "tape[pos] = (int(tape[pos]) - 1) & 0xFF".toList
  | .right => "pos += 1".toList
  | .left => "pos -= 1".toList
  | .write => "writer.write_byte(tape[pos])".toList
  | .read => "tape[pos] = reader.read_byte()".toList
  | .flush => "writer.flush()".toList
  | .raise => "raise make_overflow_error(position=pos, capacity=TAPE_CAPACITY)".toList
  | .giveBack => "return tape".toList
  | .pass => "pass".toList

/-- All statements. -/
def Statement.all : List Statement :=
  [.increment, .decrement, .right, .left, .write, .read, .flush, .raise, .giveBack, .pass]

/-- The text of a header. -/
def Header.text : Header → List Char
  | .whileNonzero => "while tape[pos]:".toList
  | .ifFull => "if pos >= TAPE_CAPACITY:".toList
  | .ifBelow => "if pos < 0:".toList

/-- The level of the body below a header. The body of a check always stands deeper than the check,
also when that is on a level below zero. -/
def Header.bodyLevel (level : Int) : Header → Int
  | .whileNonzero => level + 1
  | .ifFull | .ifBelow => max level 0 + 1

/-- All headers. -/
def Header.all : List Header := [.whileNonzero, .ifFull, .ifBelow]

namespace Suite

/-- The blanks before a line of a level. -/
def indentation (level : Int) : List Char := List.replicate (4 * level).toNat ' '

/-- The lines of a suite at a level. -/
def lines (level : Int) : Suite → List (List Char)
  | .nil => []
  | .line s rest => (indentation level ++ s.text) :: rest.lines level
  | .nested h body rest =>
    (indentation level ++ h.text) :: (body.lines (h.bodyLevel level) ++ rest.lines level)

/-- The lines of a block at a level, unless the level is too deep to be written. -/
def blockLines (memory : Memory) (level : Int) (b : Block Op) :
    Except SizeFault (List (List Char)) :=
  match repeatFault? memory 4 level with
  | some e => .error e
  | none => .ok ((ofBlock b).lines level)

/-- A suite under construction, with the width of its indentation. -/
structure Part where
  width : Nat
  suite : Suite
deriving Repr, DecidableEq

/-- Puts a statement before the parts that follow it. Those of its own width are its
continuation; deeper ones must have been taken by a header. -/
def place (width : Nat) (add : Suite → Suite) : List Part → Option (List Part)
  | [] => some [⟨width, add .nil⟩]
  | part :: parts =>
    if part.width = width then some (⟨width, add part.suite⟩ :: parts)
    else if part.width < width then some (⟨width, add .nil⟩ :: part :: parts)
    else none

/-- Reads a line before the parts that follow it. A header takes the first part, which must be
deeper, as its body. -/
def readLine (whole : List Char) (parts : List Part) : Option (List Part) :=
  let width := (whole.takeWhile (· == ' ')).length
  let text := whole.dropWhile (· == ' ')
  match Statement.all.find? (·.text == text) with
  | some s => place width (.line s) parts
  | none =>
    match Header.all.find? (·.text == text), parts with
    | some h, body :: parts =>
      if width < body.width then place width (.nested h body.suite) parts else none
    | _, _ => none

/-- Reads lines from the last to the first. -/
def readLines : List (List Char) → Option (List Part)
  | [] => some []
  | first :: rest => (readLines rest).bind (readLine first)

/-- The suite that lines spell; none when their indentation or a statement is not understood. -/
def ofLines? (lines : List (List Char)) : Option Suite :=
  match readLines lines with
  | some [part] => some part.suite
  | _ => none

end Suite

end TapeLang
