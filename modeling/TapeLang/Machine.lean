import TapeLang.Block
import TapeLang.Channel
import TapeLang.Run
import TapeLang.Tape

/-! Machines: a program that was parsed runs on a tape of fixed capacity. Moving below the first
cell ends the run silently, and moving past the last one is an overflow. -/

namespace TapeLang

/-- A fixed tape with its pointer, and the channels of the program. -/
structure Machine where
  cells : Array Cell
  pointer : Int := 0
  reader : Reader := {}
  writer : Writer := {}
deriving Repr, DecidableEq

namespace Machine

/-- A machine with zero cells. -/
def start (capacity : Nat) (reader : Reader) (writer : Writer) : Machine :=
  { cells := Array.replicate capacity 0, reader, writer }

/-- A machine with zero cells, when there is a tape of the capacity. -/
def start? (memory : Memory) (capacity : Nat) (reader : Reader) (writer : Writer) :
    Except CapacityFault Machine :=
  (fixedCells memory capacity).map fun cells => { cells, reader, writer }

/-- The number of cells. -/
def capacity (m : Machine) : Nat := m.cells.size

/-- The cell under the pointer; none when the pointer is off the tape. -/
def current? (m : Machine) : Option Cell :=
  if m.pointer < 0 then none else m.cells[m.pointer.toNat]?

/-- How a run ends. -/
inductive Ending where
  /-- The program was carried out to its end. -/
  | completed
  /-- The pointer moved below the first cell. -/
  | halted
  /-- The pointer moved to a position past the last cell. -/
  | overflow (position : Int) (capacity : Nat)
  /-- A cell off the tape was used, which no run from a machine with cells does. -/
  | strayed (position : Int)
deriving Repr, DecidableEq

/-- A machine at the end of a run. -/
structure Ended where
  machine : Machine
  ending : Ending
deriving Repr, DecidableEq

/-- Changes the cell under the pointer. -/
@[inline] def update (m : Machine) (f : Cell → Cell) : Step Machine Ended :=
  let ⟨cells, pointer, reader, writer⟩ := m
  if pointer < 0 then .done ⟨⟨cells, pointer, reader, writer⟩, .strayed pointer⟩
  else
    let pos := pointer.toNat
    if h : pos < cells.size then
      let c := f cells[pos]
      .next ⟨cells.set pos c, pointer, reader, writer⟩
    else .done ⟨⟨cells, pointer, reader, writer⟩, .strayed pointer⟩

/-- Performs a primitive. -/
def perform (m : Machine) : Prim → Step Machine Ended
  | .increment => m.update (· + 1)
  | .decrement => m.update (· - 1)
  | .right =>
    let m := { m with pointer := m.pointer + 1 }
    if m.pointer ≥ m.capacity then .done ⟨m, .overflow m.pointer m.capacity⟩ else .next m
  | .left =>
    let m := { m with pointer := m.pointer - 1 }
    if m.pointer < 0 then .done ⟨m, .halted⟩ else .next m
  | .output =>
    match m.current? with
    | some c => .next { m with writer := m.writer.write c }
    | none => .done ⟨m, .strayed m.pointer⟩
  | .input =>
    let ⟨cells, pointer, reader, writer⟩ := m
    let (b, reader) := reader.read
    update ⟨cells, pointer, reader, writer⟩ fun _ => b

/-- A machine in a run: the blocks still to be carried out, innermost first. -/
structure Config where
  machine : Machine
  todo : List (Block Prim)

/-- One step of a run: an instruction, the test of a loop, or the end of a block. -/
def Config.step (c : Config) : Step Config Ended :=
  let ⟨m, todo⟩ := c
  match todo with
  | [] => .done ⟨m, .completed⟩
  | .nil :: rest => .next ⟨m, rest⟩
  | .cons p block :: rest =>
    match m.perform p with
    | .next m => .next ⟨m, block :: rest⟩
    | .done e => .done e
  | .loop body block :: rest =>
    match m.current? with
    | none => .done ⟨m, .strayed m.pointer⟩
    | some c =>
      if c = 0 then .next ⟨m, block :: rest⟩
      else .next ⟨m, body :: .loop body block :: rest⟩

/-- Ends a run with a flush. -/
def finish (e : Ended) : Ended :=
  { e with machine := { e.machine with writer := e.machine.writer.flush } }

/-- Runs a block to its end; none when it does not end within `fuel` steps. -/
def run (fuel : Nat) (block : Block Prim) (m : Machine) : Option Ended :=
  (runFor Config.step fuel ⟨m, [block]⟩).map finish

/-- What a finished run notes. -/
def Ended.events (e : Ended) : List Event :=
  match e.ending with
  | .halted => [.machineHalted]
  | _ => []

end Machine

end TapeLang
