/-! What the parts of the program note down while they work: each event has one line of text,
which starts with the name of the part. -/

namespace TapeLang

/-- A noted event. -/
inductive Event where
  /-- The pointer of a growable tape went below its first cell. -/
  | belowStart
  /-- A walk ended at this position because its pointer is below the first cell. -/
  | walkHalted (position : Nat)
  /-- A walk ended at the closing bracket at this position, which closes nothing. -/
  | walkStopped (position : Nat)
  /-- A text with this many symbols and this nesting depth was parsed. -/
  | parsed (size depth : Nat)
  /-- A program of this size was prepared for a tape of this capacity. -/
  | prepared (size capacity : Nat)
  /-- A program on a fixed tape ended because its pointer went below the first cell. -/
  | machineHalted
  /-- A module was written to this path. -/
  | wrote (path : String)
deriving Repr, DecidableEq

namespace Event

/-- The text of an event. -/
def line : Event → String
  | .belowStart => "bfkit.tape: tape pointer moved below the start of the tape"
  | .walkHalted position =>
    "bfkit.interpreter: halted at code position " ++ toString position ++
      ": tape pointer below zero"
  | .walkStopped position =>
    "bfkit.interpreter: stopped at unmatched ']' (code position " ++ toString position ++ ")"
  | .parsed size depth =>
    "bfkit.ir: parsed " ++ toString size ++ " symbols, loop nesting depth " ++ toString depth
  | .prepared size capacity =>
    "bfkit.translator: translated " ++ toString size ++ " symbols (tape capacity " ++
      toString capacity ++ ")"
  | .machineHalted => "bfkit.translator: translated program halted: tape pointer below zero"
  | .wrote path => "bfkit.cli: wrote " ++ path

end Event

end TapeLang
