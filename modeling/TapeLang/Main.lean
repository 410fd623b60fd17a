import TapeLang.Command

/-! The program itself: it gathers the surroundings of a command line, lets the command line be
carried out, and prints and writes what the report says. -/

namespace TapeLang.Main

open Command

/-- How many steps a program may take, which is more than any machine has time for. -/
def fuel : Nat := 0x1000000000000000

/-- The host as this program sees it: it asks for no more than four gigabytes at once, knows no
codecs but its own, and nests loops up to a thousand deep. -/
def host : Host where
  memory := .below 0x100000000
  codecs := .known
  walkRoom := 1000
  blockRoom := 1000

/-- The file that a command line reads, if it reads one. -/
def fileRead (words : List String) : Option Path :=
  match Decision.ofWords words with
  | .run ⟨_, .interpret (some name) _⟩ => if name.isEmpty then none else some (.ofString name)
  | .run ⟨_, .compile name _⟩ => some (.ofString name)
  | _ => none

/-- Whether a command line reads the standard input. -/
def readsInput (words : List String) : Bool :=
  match Decision.ofWords words with
  | .run ⟨_, .demo _⟩ | .run ⟨_, .interpret ..⟩ => true
  | _ => false

/-- Whether an error of the system has a number, which comes with either sign. -/
def hasNumber (code number : UInt32) : Bool := code == number || code == 0 - number

/-- What the system says about a file, in the words of folders. -/
def refusalOf (path : Path) (e : IO.Error) : IO Folder.Fault :=
  match e with
  | .noFileOrDirectory .. => return .notFound path
  | .inappropriateType _ code _ =>
    return if hasNumber code 21 then .isDirectory path else .notDirectory path
  | .invalidArgument _ code _ =>
    if hasNumber code 36 then return .nameTooLong path else throw e
  | e => throw e

/-- Reads a stream to its end. -/
partial def readAll (stream : IO.FS.Stream) (read : ByteArray) : IO ByteArray := do
  let chunk ← stream.read 65536
  if chunk.isEmpty then return read else readAll stream (read ++ chunk)

/-- Reads a file. -/
def readPath (path : Path) : IO (Except Folder.Fault (List UInt8)) := do
  try
    return .ok (← IO.FS.readBinFile path.render).toList
  catch e =>
    return .error (← refusalOf path e)

/-- Writes a file, and says why when it cannot. -/
def writePath (path : Path) (bytes : List UInt8) : IO (Option Folder.Fault) := do
  try
    IO.FS.writeBinFile path.render ⟨bytes.toArray⟩
    return none
  catch e =>
    return some (← refusalOf path e)

/-- Carries out a command line, and writes the file that it asks for. A write that fails is
reported by the command itself. -/
def carryOut (around : Surroundings) (words : List String) : IO (Option Report) := do
  let report := run fuel around words
  match report.bind Report.written with
  | none => return report
  | some (path, bytes) =>
    match ← writePath path bytes with
    | none => return report
    | some e => return run fuel { around with refusal := fun _ => some e } words

end TapeLang.Main

/-- Carries out the command line. -/
def main (words : List String) : IO UInt32 := do
  let env : TapeLang.Environment :=
    { capacity := ← IO.getEnv TapeLang.capacityVariable
      encoding := ← IO.getEnv TapeLang.encodingVariable }
  let stdin ←
    if TapeLang.Main.readsInput words then
      pure (← TapeLang.Main.readAll (← IO.getStdin) .empty).toList
    else pure []
  let file ← match TapeLang.Main.fileRead words with
    | some path => TapeLang.Main.readPath path
    | none => pure (.ok [])
  match ← TapeLang.Main.carryOut
      { host := TapeLang.Main.host, env, stdin, read := fun _ => file } words with
  | none => return 1
  | some report =>
    let stdout ← IO.getStdout
    stdout.write ⟨report.stdout.toArray⟩
    stdout.flush
    IO.eprint report.stderr
    match report.outcome with
    | .ok status => return UInt32.ofNat status
    | .error fault =>
      IO.eprintln fault.message
      return 1
