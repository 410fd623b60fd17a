import TapeLang.Channel
import TapeLang.Run
import TapeLang.Symbol
import TapeLang.Tape

/-! Walks: a text is run as it stands, on a growable tape, without being parsed first. A body is
walked until its closing bracket; a loop walks its body again as long as the cell is not zero at
that bracket, and a body that is not taken is walked in skip mode, in which primitives do nothing.
Unmatched brackets are no errors: a closing one ends the outermost body, and the bodies of opening
ones end with the text. Texts consist of characters; lone surrogates, which would be inert like most
of them, are left out. -/

namespace TapeLang

/-- The state of a walk. `position` is where the text is read next, `depth` the number of loops
the walk is in, and `maxDepth` the largest depth so far. -/
structure Walk where
  code : Array Char
  position : Nat := 0
  depth : Nat := 0
  maxDepth : Nat := 0
  tape : Tape := {}
  reader : Reader := {}
  writer : Writer := {}
  log : List Event := []
deriving Repr, DecidableEq

namespace Walk

/-- A walk at the start of a text. -/
def start (text : List Char) (reader : Reader) (writer : Writer) : Walk :=
  { code := text.toArray, reader, writer }

/-- Why a walk cannot go on. -/
inductive Fault where
  /-- An access to the tape failed. -/
  | tape (e : Tape.Fault)
  /-- Loops nest deeper than the walk can follow. -/
  | tooDeep
deriving Repr, DecidableEq

/-- Changes the cell under the pointer, or says why that fails. -/
@[inline] def update (memory : Memory) (w : Walk) (f : Cell → Cell) : Walk × Option Tape.Fault :=
  let ⟨code, position, depth, maxDepth, tape, reader, writer, log⟩ := w
  if tape.pointer < 0 then
    let e := .belowStart ⟨tape.pointer⟩
    (⟨code, position, depth, maxDepth, tape, reader, writer, log⟩, some e)
  else
    match tape.growthFault? memory.refusesCells tape.pointer with
    | some e => (⟨code, position, depth, maxDepth, tape, reader, writer, log⟩, some (.growth e))
    | none =>
      let pos := tape.pointer.toNat
      let c := f (tape.get pos)
      (⟨code, position, depth, maxDepth, tape.put pos c, reader, writer, log⟩, none)

/-- Moves the pointer and notes what the tape notes. The pointer moves also when the tape cannot
grow up to it. -/
def move (memory : Memory) (w : Walk) (delta : Int) : Walk × Option Tape.Fault :=
  let ⟨code, position, depth, maxDepth, tape, reader, writer, log⟩ := w
  let (tape, events, fault) := tape.tryMove memory.refusesCells delta
  (⟨code, position, depth, maxDepth, tape, reader, writer, log ++ events⟩, fault.map .growth)

/-- Performs a primitive: the walk after it, and the access that failed if one did. An input
primitive takes its byte before it finds that it cannot store it. -/
def perform (memory : Memory) (w : Walk) : Prim → Walk × Option Tape.Fault
  | .increment => w.update memory (· + 1)
  | .decrement => w.update memory (· - 1)
  | .right => w.move memory 1
  | .left => w.move memory (-1)
  | .output =>
    match w.tape.current with
    | .ok c => ({ w with writer := w.writer.write c }, none)
    | .error e => (w, some (.belowStart e))
  | .input =>
    let ⟨code, position, depth, maxDepth, tape, reader, writer, log⟩ := w
    let (b, reader) := reader.read
    update memory ⟨code, position, depth, maxDepth, tape, reader, writer, log⟩ fun _ => b

/-- Performs a character; one that is no primitive does nothing. -/
def apply (memory : Memory) (w : Walk) (c : Char) : Walk × Option Tape.Fault :=
  match Symbol.ofChar? c with
  | some (.prim p) => w.perform memory p
  | _ => (w, none)

/-- Goes on at another position. -/
def seek (w : Walk) (position : Nat) : Walk := { w with position }

/-- Stores an integer, modulo 256, at a position of the tape. -/
def write (memory : Memory) (w : Walk) (position value : Int) : Walk × Option Tape.Fault :=
  match w.tape.tryWrite memory.refusesCells position value with
  | .ok tape => ({ w with tape }, none)
  | .error e => (w, some e)

/-- A loop that the walk is in: where its body starts, and whether the body around it is
skipped. -/
structure Frame where
  bodyStart : Nat
  skip : Bool
deriving Repr, DecidableEq

/-- A walk inside a body: whether the body is skipped, the loops around it, innermost first, and
how many more may be entered. -/
structure Config where
  walk : Walk
  skip : Bool
  frames : List Frame
  room : Nat
deriving Repr, DecidableEq

/-- How the walk of a body ends: whether the body is to be walked again, or a fault. -/
structure Outcome where
  walk : Walk
  result : Except Fault Bool

namespace Config

/-- Enters a body: it is skipped when the cell under the pointer is zero. -/
@[inline] def enter (w : Walk) (frames : List Frame) (room : Nat) : Step Config Outcome :=
  match w.tape.current with
  | .ok c => .next ⟨w, c == 0, frames, room⟩
  | .error e => .done ⟨w, .error (.tape (.belowStart e))⟩

/-- Goes on behind the character that was read. -/
@[inline] def advance (w : Walk) (skip : Bool) (frames : List Frame) (room : Nat) : Config :=
  ⟨{ w with position := w.position + 1 }, skip, frames, room⟩

/-- Ends a body. A body to be walked again is entered from its start; otherwise the walk goes on
behind the loop, in the body around it. -/
@[inline] def leave (again : Bool) (w : Walk) (frames : List Frame) (room : Nat) :
    Step Config Outcome :=
  match frames with
  | [] => .done ⟨w, .ok again⟩
  | frame :: rest =>
    if again then enter { w with position := frame.bodyStart } (frame :: rest) room
    else .next (advance { w with depth := w.depth - 1 } frame.skip rest (room + 1))

/-- One step of a walk: it reads one character, or ends a body. -/
def step (memory : Memory) (c : Config) : Step Config Outcome :=
  let ⟨w, skip, frames, room⟩ := c
  if w.tape.pointer < 0 then leave false w frames room
  else
    match w.code[w.position]? with
    | none => leave false w frames room
    | some ch =>
      match Symbol.ofChar? ch with
      | none => .next (advance w skip frames room)
      | some (.prim p) =>
        if skip then .next (advance w skip frames room)
        else
          match w.perform memory p with
          | (w, none) => .next (advance w skip frames room)
          | (w, some e) => .done ⟨w, .error (.tape e)⟩
      | some .opening =>
        let w := { w with
          position := w.position + 1
          depth := w.depth + 1
          maxDepth := max w.maxDepth (w.depth + 1) }
        match room with
        | 0 => .done ⟨w, .error .tooDeep⟩
        | room + 1 => enter w (⟨w.position, skip⟩ :: frames) room
      | some .closing =>
        match w.tape.current with
        | .ok c => leave (c != 0) w frames room
        | .error e => .done ⟨w, .error (.tape (.belowStart e))⟩

end Config

/-- Walks a body from the present position, with room for a number of nested loops. None when it
does not end within `fuel` steps. -/
def body (memory : Memory) (room fuel : Nat) (skip : Bool) (w : Walk) : Option Outcome :=
  runFor (Config.step memory) fuel ⟨w, skip, [], room⟩

/-- What a finished walk notes: a pointer below the first cell, or a stop before the end. -/
def closingEvents (w : Walk) : List Event :=
  if w.tape.halted then [.walkHalted w.position]
  else if w.position < w.code.size then [.walkStopped w.position]
  else []

/-- Ends a run: the output is flushed in any case, and a run without fault is noted. -/
def finish (o : Outcome) : Walk × Option Fault :=
  let w := { o.walk with writer := o.walk.writer.flush }
  match o.result with
  | .ok _ => ({ w with log := w.log ++ w.closingEvents }, none)
  | .error e => (w, some e)

/-- Runs a walk to its end: the walk then, and the fault that ended it if there was one. -/
def run (memory : Memory) (room fuel : Nat) (w : Walk) : Option (Walk × Option Fault) :=
  (w.body memory room fuel false).map finish

end Walk

end TapeLang
