import TapeLang.Encoding
import TapeLang.Excerpt
import TapeLang.Folder
import TapeLang.Machine
import TapeLang.Program
import TapeLang.Script.Module
import TapeLang.Walk

/-! Faults: everything that can be wrong with a program, its run or its surroundings, and what is
said about it. -/

namespace TapeLang

/-- Whether a text occurs in another. -/
def occursIn (needle : List Char) : List Char → Bool
  | [] => needle.isEmpty
  | c :: rest => needle.isPrefixOf (c :: rest) || occursIn needle rest

/-- Advice on a message, which is recognised by its words without regard to case. -/
def hint (message : String) : Option String :=
  let text := message.toList.map Char.toLower
  if occursIn "unmatched '['".toList text then
    some "Every \"[\" needs a closing \"]\" later in the program."
  else if occursIn "unmatched ']'".toList text then
    some ("This \"]\" has no opening \"[\" before it. " ++
      "The interpreter would stop here silently.")
  else if occursIn "nested too deeply".toList text then
    some "Use translate() for in-memory execution, which has no static nesting limit."
  else none

/-- The lines of advice below a message. -/
def hintBlock (message : String) : String :=
  match hint message with
  | some advice => "\nHint: " ++ advice
  | none => ""

/-- A message about a place in a text, with an excerpt that shows the place. -/
structure Located where
  message : String
  line : Nat
  column : Int
  excerpt : String
deriving Repr, DecidableEq

namespace Located

/-- How many lines an excerpt shows on each side. -/
def context : Int := 2

/-- The message about a line and a column of a text. -/
def ofPlace (message : String) (source : List Char) (line : Nat) (column : Int) : Located :=
  let excerpt := String.ofList (Excerpt.render (source.splitOn '\n') line column context)
  { message :=
      "ParseError: " ++ message ++ " (line " ++ toString line ++ ", column " ++ toString column ++
        ")\n" ++ excerpt ++ hintBlock message
    line, column, excerpt }

/-- The message about an offset of a text. -/
def ofOffset (message : String) (source : List Char) (offset : Nat) : Located :=
  let (line, column) := locate source offset
  ofPlace message source line column

/-- The message about any offset, unless its caret cannot be written. -/
def ofAnyOffset (memory : Memory) (message : String) (source : List Char) (offset : Int) :
    Except SizeFault Located :=
  let (line, column) := locateAny source offset
  match Excerpt.render? memory (source.splitOn '\n') line column context with
  | .ok _ => .ok (ofPlace message source line column)
  | .error e => .error e

end Located

/-- What is said when a program cannot be written as a module. -/
def moduleMessage (message : String) : String :=
  "TranslateError: " ++ message ++ hintBlock message

/-- What is said when the pointer leaves a fixed tape. -/
def overflowMessage (position capacity : Int) : String :=
  "TapeOverflowError: pointer moved to cell " ++ toString position ++
    ", past the fixed tape capacity of " ++ toString capacity ++ " cells"

/-- The variable from which the tape capacity is taken. -/
def capacityVariable : String := "BFKIT_TAPE_CAPACITY"

/-- The variable from which the text encoding is taken. -/
def encodingVariable : String := "BFKIT_ENCODING"

/-- A fault. -/
inductive Fault where
  /-- A bracket has no partner. -/
  | unmatched (report : Located)
  /-- Loops nest deeper than a module can hold. -/
  | tooNested (depth : Nat)
  /-- The pointer left a fixed tape. -/
  | overflow (position : Int) (capacity : Nat)
  /-- The capacity variable does not hold an integer. -/
  | notInteger (raw : String)
  /-- A capacity is not positive. -/
  | notPositive (capacity : Int)
  /-- No encoding has this name. -/
  | unknownEncoding (name : String)
  /-- Loops nest deeper than can be followed. -/
  | tooDeep
  /-- There is no tape of the capacity. -/
  | noTape (e : CapacityFault)
  /-- A tape cannot grow so far. -/
  | growth (e : SizeFault)
  /-- A cell off the tape was used. -/
  | offTape (position : Int)
  | conversion (e : Encoding.Fault)
  | file (e : Folder.Fault)
deriving Repr, DecidableEq

namespace Fault

/-- What is said about a fault. -/
def message : Fault → String
  | .unmatched report => report.message
  | .tooNested depth =>
    moduleMessage ("loops nested too deeply for Python source (" ++ toString depth ++
      " levels, at most " ++ toString Script.depthLimit ++ ")")
  | .overflow position capacity => overflowMessage position capacity
  | .notInteger raw =>
    "ConfigError: " ++ capacityVariable ++ " must be an integer, got " ++ Text.quoted raw
  | .notPositive capacity =>
    "ConfigError: tape_capacity must be positive, got " ++ toString capacity
  | .unknownEncoding name => "ConfigError: unknown encoding " ++ Text.quoted name
  | .tooDeep => "maximum recursion depth exceeded"
  | .noTape e => e.message
  | .growth e => e.message
  | .offTape position => Tape.BelowStart.message ⟨position⟩
  | .conversion e => e.message
  | .file e => e.message

/-- The fault of an unmatched bracket of a text. -/
def ofUnmatched (source : List Char) (e : Unmatched) : Fault :=
  .unmatched (Located.ofOffset e.message source e.offset)

/-- The fault that ended a walk. -/
def ofWalk : Walk.Fault → Fault
  | .tape (.belowStart e) => .offTape e.position
  | .tape (.growth e) => .growth e
  | .tooDeep => .tooDeep

/-- The fault of a run on a fixed tape, unless it completed or halted. -/
def ofEnding : Machine.Ending → Option Fault
  | .completed | .halted => none
  | .overflow position capacity => some (.overflow position capacity)
  | .strayed position => some (.offTape position)

/-- The fault of a script, unless it returned. -/
def ofScript : Script.Ending → Option Fault
  | .returned | .ranOut => none
  | .overflow position capacity => some (.overflow position capacity)
  | .strayed position => some (.offTape position)

end Fault

end TapeLang
