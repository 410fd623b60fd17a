import TapeLang.Command.Request
import TapeLang.Loading
import TapeLang.Prepared

/-! Commands: a request is carried out in its surroundings and comes to a report. -/

namespace TapeLang.Command

/-- What a command has around it: the host, the environment, the standard input, the files it can
read, and whether a file can be written. -/
structure Surroundings where
  host : Host
  env : Environment := {}
  stdin : List UInt8 := []
  read : FileReader
  refusal : Path → Option Folder.Fault := fun _ => none

/-- What a command did: its exit status or a fault that it does not report itself, what it
printed, and the file that it wrote. -/
structure Report where
  outcome : Except Fault Nat
  stdout : List UInt8 := []
  stderr : String := ""
  written : Option (Path × List UInt8) := none

/-- What a command prints about a fault; none when the fault is left to others. -/
def account? : Fault → Option String
  | .file (.notFound path) => some ("Couldn't find file: " ++ path.render)
  | .unmatched report => some report.message
  | .tooNested depth => some (Fault.message (.tooNested depth))
  | .overflow position capacity => some (Fault.message (.overflow position capacity))
  | .notInteger raw => some (Fault.message (.notInteger raw))
  | .notPositive capacity => some (Fault.message (.notPositive capacity))
  | .unknownEncoding name => some (Fault.message (.unknownEncoding name))
  | .tooDeep | .noTape _ | .growth _ | .offTape _ | .conversion _ | .file _ => none

/-- The lines of events, when they are shown. -/
def shown (debug : Bool) (events : List Event) : String :=
  if debug then String.join (events.map fun e => "DEBUG " ++ e.line ++ "\n") else ""

/-- The report of a fault, after some output and events. -/
def failed (stdout : List UInt8) (stderr : String) (fault : Fault) : Report :=
  match account? fault with
  | some text => { outcome := .ok 1, stdout, stderr := stderr ++ text ++ "\n" }
  | none => { outcome := .error fault, stdout, stderr }

/-- A line of a shown tape. -/
def cellLine (position : Nat) (value : Cell) : String :=
  String.ofList ((toString position).toList.leftpad 8 ' ') ++ ": " ++
    String.ofList ((toString value.toNat).toList.leftpad 3 ' ') ++ "\n"

/-- The lines of a shown tape. -/
def cellLines (tape : Tape) : String :=
  String.join (tape.nonzero.map fun (position, value) => cellLine position value)

/-- The writer of the standard output, where each byte is flushed. -/
def stdoutWriter : Writer := { autoflush := true }

/-- Runs a program that comes with the tool. -/
def demo (fuel : Nat) (debug : Bool) (around : Surroundings) (name : String) : Option Report :=
  match Settings.capacity around.env none with
  | .error e => some (failed [] "" e)
  | .ok capacity =>
    let text := (Bundle.load? name).getD ""
    let ⟨events, prepared⟩ := Prepared.ofText around.host.blockRoom capacity text.toList
    match prepared with
    | .error e => some (failed [] (shown debug events) e)
    | .ok program =>
      match program.run around.host.memory fuel (.ofBytes around.stdin) stdoutWriter with
      | .error e => some (failed [] (shown debug events) (.noTape e))
      | .ok ran =>
        ran.map fun e =>
          let stdout := e.machine.writer.output.toList
          let stderr := shown debug (events ++ e.events)
          match Fault.ofEnding e.ending with
          | some fault => failed stdout stderr fault
          | none => { outcome := .ok 0, stdout, stderr }

/-- The program to be walked and the input that is left for it: a program from the standard input
leaves none. -/
def source (around : Surroundings) (file : Option String) :
    Except Fault (List Char × List UInt8) :=
  match file with
  | none => .ok (programText around.stdin, [])
  | some name =>
    if name.isEmpty then .ok (programText around.stdin, [])
    else
      let path := Path.ofString name
      match loadProgram around.host.codecs around.read path Settings.programEncoding with
      | .ok text => .ok (text, around.stdin)
      | .error e => .error e

/-- Walks a program. -/
def interpret (fuel : Nat) (debug : Bool) (around : Surroundings) (file : Option String)
    (dump : Bool) : Option Report :=
  match source around file with
  | .error e => some (failed [] "" e)
  | .ok (text, input) =>
    match Settings.encoding around.host.codecs around.env none with
    | .error e => some (failed [] "" e)
    | .ok _ =>
      let start := Walk.start text (.ofBytes input) stdoutWriter
      (start.run around.host.memory around.host.walkRoom fuel).map fun (w, fault) =>
        let stdout := w.writer.output.toList
        let stderr := shown debug w.log
        match fault with
        | some e => failed stdout stderr (.ofWalk e)
        | none =>
          { outcome := .ok 0
            stdout
            stderr := stderr ++ if dump then cellLines w.tape else "" }

/-- The bytes of a printed text. -/
def printed (text : String) : List UInt8 := text.toUTF8.toList

/-- Writes a program as a module. -/
def compile (debug : Bool) (around : Surroundings) (file : String) (output : Option String) :
    Report :=
  match loadProgram around.host.codecs around.read (.ofString file) Settings.programEncoding with
  | .error e => failed [] "" e
  | .ok text =>
    match Settings.capacity around.env none with
    | .error e => failed [] "" e
    | .ok capacity =>
      let ⟨events, checked⟩ := Script.ofText text
      match checked with
      | .error e => failed [] (shown debug events) e
      | .ok program =>
        let bytes := printed (Script.moduleText capacity program.block)
        match output.filter fun name => !name.isEmpty with
        | none => { outcome := .ok 0, stdout := bytes, stderr := shown debug events }
        | some name =>
          let path := Path.ofString name
          match around.refusal path with
          | some e => failed [] (shown debug events) (.file e)
          | none =>
            { outcome := .ok 0
              stderr := shown debug (events ++ [.wrote name])
              written := some (path, bytes) }

/-- Carries out an invocation. None when a program does not end within `fuel` steps. -/
def Invocation.run (fuel : Nat) (around : Surroundings) (i : Invocation) : Option Report :=
  match i.request with
  | .demo name => demo fuel i.debug around name
  | .interpret file dump => interpret fuel i.debug around file dump
  | .compile file output => some (compile i.debug around file output)

/-- Carries out a command line. None when a program does not end within `fuel` steps. -/
def run (fuel : Nat) (around : Surroundings) (words : List String) : Option Report :=
  match Decision.ofWords words with
  | .run i => i.run fuel around
  | .say text => some { outcome := .ok 0, stdout := printed text }
  | .misused command usage m =>
    some { outcome := .ok 2, stderr := usage ++ command ++ ": error: " ++ m.message ++ "\n" }

end TapeLang.Command
