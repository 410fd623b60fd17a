import TapeLang.Machine

/-! Scripts: a program written as statements of an ordinary language, with a loop for each loop
and a check after each move of the pointer. A script runs on a machine like the block it was made
from, but returns early, raises and flushes by statements of its own. -/

namespace TapeLang

/-- A statement on one line. -/
inductive Statement where
  | increment
  | decrement
  | right
  | left
  | write
  | read
  | flush
  /-- Raises an overflow at the present position. -/
  | raise
  /-- Returns the tape. -/
  | giveBack
  | pass
deriving Repr, DecidableEq

/-- The first line of a compound statement. -/
inductive Header where
  /-- Repeats while the cell under the pointer is not zero. -/
  | whileNonzero
  /-- Holds when the pointer is past the last cell. -/
  | ifFull
  /-- Holds when the pointer is below the first cell. -/
  | ifBelow
deriving Repr, DecidableEq

/-- A sequence of statements. -/
inductive Suite where
  | nil
  | line (s : Statement) (rest : Suite)
  | nested (h : Header) (body rest : Suite)
deriving Repr, DecidableEq

namespace Suite

/-- One suite after another. -/
def append : Suite → Suite → Suite
  | .nil, t => t
  | .line s rest, t => .line s (rest.append t)
  | .nested h body rest, t => .nested h body (rest.append t)

/-- A suite may not be empty: `pass` stands for no statements. -/
def orPass : Suite → Suite
  | .nil => .line .pass .nil
  | s => s

/-- The statements of a primitive, before others. A move is followed by its check. -/
def ofPrim (rest : Suite) : Prim → Suite
  | .increment => .line .increment rest
  | .decrement => .line .decrement rest
  | .right => .line .right (.nested .ifFull (.line .flush (.line .raise .nil)) rest)
  | .left => .line .left (.nested .ifBelow (.line .flush (.line .giveBack .nil)) rest)
  | .output => .line .write rest
  | .input => .line .read rest

/-- The statements of a block, without the `pass` that stands for an empty one. -/
def statements : Block Op → Suite
  | .nil => .nil
  | .cons o rest => ofPrim (statements rest) o.prim
  | .loop body rest => .nested .whileNonzero (statements body).orPass (statements rest)

/-- The suite of a block. -/
def ofBlock (b : Block Op) : Suite := (statements b).orPass

/-- The suite of a whole program: at its end the output is flushed and the tape returned. -/
def ofProgram (b : Block Op) : Suite :=
  (ofBlock b).append (.line .flush (.line .giveBack .nil))

end Suite

namespace Script

/-- How the run of a script ends. -/
inductive Ending where
  /-- The tape was returned. -/
  | returned
  /-- An overflow was raised. -/
  | overflow (position : Int) (capacity : Nat)
  /-- A cell off the tape was used, which no script of a program does. -/
  | strayed (position : Int)
  /-- The statements ran out without a return, which those of a program do not. -/
  | ranOut
deriving Repr, DecidableEq

/-- A machine at the end of a script. -/
structure Ended where
  machine : Machine
  ending : Ending
deriving Repr, DecidableEq

/-- A change of the cell under the pointer, as a step of a script. -/
@[inline] def change (m : Machine) (f : Cell → Cell) : Step Machine Ended :=
  match m.update f with
  | .next m => .next m
  | .done e => .done ⟨e.machine, .strayed e.machine.pointer⟩

/-- Carries out a statement. -/
def execute (m : Machine) : Statement → Step Machine Ended
  | .increment => change m (· + 1)
  | .decrement => change m (· - 1)
  | .right => .next { m with pointer := m.pointer + 1 }
  | .left => .next { m with pointer := m.pointer - 1 }
  | .write =>
    match m.current? with
    | some c => .next { m with writer := m.writer.write c }
    | none => .done ⟨m, .strayed m.pointer⟩
  | .read =>
    let ⟨cells, pointer, reader, writer⟩ := m
    let (b, reader) := reader.read
    change ⟨cells, pointer, reader, writer⟩ fun _ => b
  | .flush => .next { m with writer := m.writer.flush }
  | .raise => .done ⟨m, .overflow m.pointer m.capacity⟩
  | .giveBack => .done ⟨m, .returned⟩
  | .pass => .next m

/-- A machine in a script: the suites still to be carried out, innermost first. -/
structure Config where
  machine : Machine
  todo : List Suite

/-- One step of a script: a statement, the test of a header, or the end of a suite. -/
def Config.step (c : Config) : Step Config Ended :=
  let ⟨m, todo⟩ := c
  match todo with
  | [] => .done ⟨m, .ranOut⟩
  | .nil :: rest => .next ⟨m, rest⟩
  | .line s suite :: rest =>
    match execute m s with
    | .next m => .next ⟨m, suite :: rest⟩
    | .done e => .done e
  | .nested .whileNonzero body suite :: rest =>
    match m.current? with
    | none => .done ⟨m, .strayed m.pointer⟩
    | some c =>
      if c = 0 then .next ⟨m, suite :: rest⟩
      else .next ⟨m, body :: .nested .whileNonzero body suite :: rest⟩
  | .nested .ifFull body suite :: rest =>
    if m.pointer ≥ m.capacity then .next ⟨m, body :: suite :: rest⟩
    else .next ⟨m, suite :: rest⟩
  | .nested .ifBelow body suite :: rest =>
    if m.pointer < 0 then .next ⟨m, body :: suite :: rest⟩
    else .next ⟨m, suite :: rest⟩

/-- Runs a suite to its end; none when it does not end within `fuel` steps. -/
def run (fuel : Nat) (suite : Suite) (m : Machine) : Option Ended :=
  runFor Config.step fuel ⟨m, [suite]⟩

end Script

end TapeLang
