import TapeLang.Prepared

/-! Runs on texts: the input of a program is a text that is encoded, and its output is decoded to
a text again. -/

namespace TapeLang

open Text

namespace TextRun

/-- A converted value, or the fault of the conversion. -/
def converted {α : Type} (e : Except Encoding.Fault α) : Except Fault α :=
  e.mapError Fault.conversion

/-- The encoding of a run, chosen or that of the environment, and the input bytes. -/
def input (codecs : Encoding.Codecs) (env : Environment) (chosen : Option String)
    (data : List CodePoint) : Except Fault (String × List UInt8) := do
  let name ← match chosen with
    | some name => .ok name
    | none => Settings.encoding codecs env none
  let bytes ← converted (Encoding.encode codecs name data)
  return (name, bytes)

/-- Walks a program on a text. None when it does not end within `fuel` steps. -/
def walk (host : Host) (fuel : Nat) (env : Environment) (chosen : Option String)
    (code : List Char) (data : List CodePoint) :
    Option (Noted (Except Fault (List CodePoint))) :=
  match input host.codecs env chosen data with
  | .error e => some ⟨[], .error e⟩
  | .ok (name, bytes) =>
    let start := Walk.start code (.ofBytes bytes) {}
    (start.run host.memory host.walkRoom fuel).map fun (w, fault) =>
      match fault with
      | some e => ⟨w.log, .error (.ofWalk e)⟩
      | none => ⟨w.log, converted (Encoding.decode host.codecs name w.writer.output.toList)⟩

/-- Runs a prepared program on a text. None when it does not end within `fuel` steps. -/
def prepared (host : Host) (fuel : Nat) (env : Environment) (chosen : Option String)
    (program : Prepared) (data : List CodePoint) :
    Option (Noted (Except Fault (List CodePoint))) :=
  match input host.codecs env chosen data with
  | .error e => some ⟨[], .error e⟩
  | .ok (name, bytes) =>
    match program.run host.memory fuel (.ofBytes bytes) {} with
    | .error e => some ⟨[], .error (.noTape e)⟩
    | .ok ran =>
      ran.map fun e =>
        match Fault.ofEnding e.ending with
        | some fault => ⟨e.events, .error fault⟩
        | none =>
          ⟨e.events, converted (Encoding.decode host.codecs name e.machine.writer.output.toList)⟩

end TextRun

end TapeLang
