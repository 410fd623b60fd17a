import TapeLang.Bundle
import TapeLang.Command.Manual
import TapeLang.Command.Words

/-! Requests: what a command line asks for. -/

namespace TapeLang.Command

/-- What is to be done. -/
inductive Request where
  /-- Run a program that comes with the tool. -/
  | demo (name : String)
  /-- Walk a program from a file, or from the standard input, and show its tape if asked. -/
  | interpret (file : Option String) (dump : Bool)
  /-- Write a program as a module, to a file or to the standard output. -/
  | compile (file : String) (output : Option String)
deriving Repr, DecidableEq

/-- A request, and whether events are shown. -/
structure Invocation where
  debug : Bool
  request : Request
deriving Repr, DecidableEq

/-- What a command line comes to. -/
inductive Decision where
  | run (i : Invocation)
  /-- Only this is to be printed. -/
  | say (text : String)
  /-- The command line is misused, by the account of a command. -/
  | misused (command usage : String) (m : Misuse)
deriving Repr, DecidableEq

/-- The switches of the tool and its commands. -/
inductive Meaning where
  | help
  | version
  | debug
  | dumpTape
  | output
deriving Repr, DecidableEq

/-- The switch that asks for help. -/
def helpSwitch : Switch Meaning := ⟨["-h", "--help"], false, .help⟩

/-- The commands by name. -/
inductive Name where
  | demo
  | interpret
  | compile
deriving Repr, DecidableEq

namespace Name

/-- All commands. -/
def all : List Name := [.demo, .interpret, .compile]

/-- The word of a command. -/
def word : Name → String
  | .demo => "demo"
  | .interpret => "interpret"
  | .compile => "compile"

/-- The command of a word. -/
def ofWord? (text : String) : Option Name := all.find? fun n => n.word == text

/-- What the words of a command may be. -/
def grammar : Name → Grammar Meaning
  | .demo => ⟨[helpSwitch], .optional⟩
  | .interpret => ⟨[helpSwitch, ⟨["--dump-tape"], false, .dumpTape⟩], .optional⟩
  | .compile => ⟨[helpSwitch, ⟨["-o", "--output"], true, .output⟩], .one⟩

/-- The usage line of a command. -/
def usage : Name → String
  | .demo => Manual.demoUsage
  | .interpret => Manual.interpretUsage
  | .compile => Manual.compileUsage

/-- The help of a command. -/
def help : Name → String
  | .demo => Manual.demoHelp
  | .interpret => Manual.interpretHelp
  | .compile => Manual.compileHelp

end Name

/-- The words of the tool itself: its switches, then a command with all its words. -/
def grammar : Grammar Meaning :=
  ⟨[helpSwitch, ⟨["-v", "--version"], false, .version⟩, ⟨["--debug"], false, .debug⟩], .rest⟩

/-- A misuse by the account of the tool itself. -/
def misused (m : Misuse) : Decision := .misused Manual.tool Manual.usage m

/-- What has been given to a command so far. -/
structure Gathered where
  operand : Option String := none
  dump : Bool := false
  output : Option String := none

namespace Name

/-- A misuse by the account of a command. -/
def misused (n : Name) (m : Misuse) : Decision :=
  .misused (Manual.tool ++ " " ++ n.word) n.usage m

/-- The request of a command, from what was given to it. The operand of the demonstration has a
default, and a file must be named to write a module. -/
def request (n : Name) (g : Gathered) : Except Decision Request :=
  match n, g.operand with
  | .demo, name => .ok (.demo (name.getD "hello"))
  | .interpret, file => .ok (.interpret file g.dump)
  | .compile, some file => .ok (.compile file g.output)
  | .compile, none => .error (n.misused (.required "file"))

/-- Takes in an operand, which for the demonstration must be one of the programs. -/
def operand (n : Name) (g : Gathered) (value : String) : Except Decision Gathered :=
  if n = .demo ∧ value ∉ Bundle.available then
    .error (n.misused (.badChoice "name" value Bundle.available))
  else .ok { g with operand := some value }

/-- Goes through what was given to a command. The words without place come with the request. -/
def gather (n : Name) (ending : Except Misuse (List String)) :
    Gathered → List (Grammar.Given Meaning) → Except Decision (Request × List String)
  | g, [] =>
    match ending with
    | .error m => .error (n.misused m)
    | .ok extras => (n.request g).map (·, extras)
  | g, .operands (value :: _) :: rest =>
    match n.operand g value with
    | .ok g => n.gather ending g rest
    | .error r => .error r
  | g, .operands [] :: rest => n.gather ending g rest
  | g, .switch meaning value :: rest =>
    match meaning with
    | .help => .error (.say n.help)
    | .dumpTape => n.gather ending { g with dump := true } rest
    | .output => n.gather ending { g with output := value } rest
    | .version | .debug => n.gather ending g rest

/-- Reads the words of a command. -/
def read (n : Name) (words : List String) : Except Decision (Request × List String) :=
  let scan := n.grammar.read words
  n.gather scan.ending {} scan.given

end Name

/-- Reads a command with its words. -/
def readCommand : List String → Except Decision (Request × List String)
  | [] => .error (misused (.required "command"))
  | word :: words =>
    match Name.ofWord? word with
    | none => .error (misused (.badChoice "command" word (Name.all.map Name.word)))
    | some name => name.read words

/-- Goes through what was given to the tool. -/
def gather (ending : Except Misuse (List String)) :
    Bool → List (Grammar.Given Meaning) → Decision
  | _, [] =>
    match ending with
    | .error m => misused m
    | .ok _ => misused (.required "command")
  | debug, .operands words :: _ =>
    match readCommand words with
    | .error r => r
    | .ok (request, extras) =>
      match ending with
      | .error m => misused m
      | .ok before =>
        let extras := before ++ extras
        if extras.isEmpty then .run ⟨debug, request⟩ else misused (.unrecognised extras)
  | debug, .switch meaning _ :: rest =>
    match meaning with
    | .help => .say Manual.help
    | .version => .say Manual.version
    | .debug => gather ending true rest
    | .dumpTape | .output => gather ending debug rest

/-- Reads a command line. -/
def Decision.ofWords (words : List String) : Decision :=
  let scan := grammar.read words
  gather scan.ending false scan.given

end TapeLang.Command
