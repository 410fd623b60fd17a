import TapeLang.Settings

/-! Prepared programs: a text is parsed and checked once, and can then be run on fixed tapes or
written as a module. -/

namespace TapeLang

/-- What was noted on the way to a result. -/
structure Noted (α : Type) where
  events : List Event
  result : α
deriving Repr

/-- Parses a text; an unmatched bracket is reported with its place. -/
def Program.ofText (text : List Char) : Except Fault Program :=
  match Program.parse text with
  | .ok program => .ok program
  | .error e => .error (.ofUnmatched text e)

/-- What is noted about a parsed program. -/
def Program.parsed (p : Program) : Event := .parsed p.size p.depth

/-- The text of a block, when there is room for its nested loops. -/
def Block.text (room : Nat) (b : Block Op) : Except Fault String :=
  if room < b.depth then .error .tooDeep else .ok (String.ofList b.source)

/-- A program that is ready to run on tapes of a capacity. -/
structure Prepared where
  program : Program
  capacity : Nat
deriving Repr, DecidableEq

namespace Prepared

/-- Prepares a text for tapes of a capacity, with room for a number of nested loops. -/
def ofText (room capacity : Nat) (text : List Char) : Noted (Except Fault Prepared) :=
  match Program.ofText text with
  | .error e => ⟨[], .error e⟩
  | .ok program =>
    if room < program.depth then ⟨[program.parsed], .error .tooDeep⟩
    else ⟨[program.parsed, .prepared program.size capacity], .ok ⟨program, capacity⟩⟩

/-- What a prepared program does on the machine. -/
def code (p : Prepared) : Block Prim := p.program.block.map Op.prim

/-- Runs a prepared program on a new tape. None when it does not end within `fuel` steps. -/
def run (memory : Memory) (fuel : Nat) (p : Prepared) (reader : Reader) (writer : Writer) :
    Except CapacityFault (Option Machine.Ended) :=
  (Machine.start? memory p.capacity reader writer).map (Machine.run fuel p.code)

end Prepared

/-- Parses a text and checks that it can be written as a module. -/
def Script.ofText (text : List Char) : Noted (Except Fault Program) :=
  match Program.ofText text with
  | .error e => ⟨[], .error e⟩
  | .ok program =>
    if Script.depthLimit < program.depth then
      ⟨[program.parsed], .error (.tooNested program.depth)⟩
    else ⟨[program.parsed], .ok program⟩

/-- Runs the lines of a program on a new tape. None when the run does not end within `fuel`
steps. -/
def Script.runProgram (memory : Memory) (fuel capacity : Nat) (program : Program)
    (reader : Reader) (writer : Writer) : Except CapacityFault (Option Script.Ended) :=
  (Machine.start? memory capacity reader writer).map (runLines fuel (programLines program.block))

end TapeLang
