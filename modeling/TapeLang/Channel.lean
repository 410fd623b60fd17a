import TapeLang.Cell

/-! Byte channels of a program: a reader that delivers each byte once and then 255 for ever, and a
writer that keeps what was written and counts its flushes. -/

namespace TapeLang

/-- The input of a program. `exhausted` is set by the first read that finds no byte, and later
bytes are not delivered any more. -/
structure Reader where
  unread : List UInt8 := []
  exhausted : Bool := false
deriving Repr, DecidableEq

namespace Reader

/-- A reader of the given bytes. -/
def ofBytes (bytes : List UInt8) : Reader := { unread := bytes }

/-- The next byte, 255 at the end of the input. -/
def read (r : Reader) : UInt8 × Reader :=
  if r.exhausted then (Cell.endOfInput, r)
  else
    match r.unread with
    | [] => (Cell.endOfInput, { r with exhausted := true })
    | b :: rest => (b, { r with unread := rest })

/-- `n` reads in turn. -/
def readMany : Nat → Reader → List UInt8 × Reader
  | 0, r => ([], r)
  | n + 1, r =>
    let (b, r') := r.read
    let (bs, r'') := readMany n r'
    (b :: bs, r'')

/-- More bytes arrive at the end of the input. -/
def feed (r : Reader) (bytes : List UInt8) : Reader := { r with unread := r.unread ++ bytes }

end Reader

/-- Where the input of a run comes from: nowhere, given bytes, or a reader that goes on being
read. -/
inductive Source where
  | nothing
  | bytes (b : List UInt8)
  | reader (r : Reader)
deriving Repr, DecidableEq

/-- The reader of a source. -/
def Source.open : Source → Reader
  | .nothing => {}
  | .bytes b => .ofBytes b
  | .reader r => r

/-- The output of a program: the bytes written, the number of flushes, and whether each byte is
flushed at once. -/
structure Writer where
  output : Array UInt8 := #[]
  flushes : Nat := 0
  autoflush : Bool := false
deriving Repr, DecidableEq

namespace Writer

/-- One flush. -/
def flush (w : Writer) : Writer := { w with flushes := w.flushes + 1 }

/-- Appends a byte, and flushes it when the writer does so for each byte. -/
def write (w : Writer) (b : UInt8) : Writer :=
  { w with
    output := w.output.push b
    flushes := if w.autoflush then w.flushes + 1 else w.flushes }

@[simp] theorem output_write (w : Writer) (b : UInt8) :
    (w.write b).output = w.output.push b := rfl

@[simp] theorem autoflush_write (w : Writer) (b : UInt8) :
    (w.write b).autoflush = w.autoflush := rfl

theorem flushes_write (w : Writer) (b : UInt8) :
    (w.write b).flushes = if w.autoflush then w.flushes + 1 else w.flushes := rfl

@[simp] theorem output_flush (w : Writer) : w.flush.output = w.output := rfl

@[simp] theorem flushes_flush (w : Writer) : w.flush.flushes = w.flushes + 1 := rfl

end Writer

/-- Where the output of a run goes: to a new writer, or to one that goes on being written. -/
inductive Sink where
  | new
  | writer (w : Writer)
deriving Repr, DecidableEq

/-- The writer of a sink. A writer that exists keeps its own way of flushing, whatever is asked
for. -/
def Sink.open (s : Sink) (autoflush : Bool) : Writer :=
  match s with
  | .new => { autoflush }
  | .writer w => w

end TapeLang
