import TapeLang.Excerpt
import TapeLang.Script.Layout

/-! The stand-alone module of a program: its script as the body of a function, between a heading
that names the capacity and a tail that runs the function. -/

namespace TapeLang

namespace Script

/-- How deep loops may nest in a module, since its own language nests blocks no deeper. -/
def depthLimit : Nat := 19

/-- The lines before the statements. -/
def heading (capacity : Nat) : List String :=
  ["\"\"\"Translated from a tape-language program by bfkit.\"\"\"",
   "",
   "import sys",
   "",
   "import numpy as np",
   "",
   "from bfkit.errors import make_overflow_error",
   "from bfkit.streams import as_reader, as_writer",
   "",
   "TAPE_CAPACITY = " ++ toString capacity,
   "",
   "",
   "def run(input=None, output=None):",
   "    reader = as_reader(input)",
   "    writer = as_writer(output)",
   "    tape = np.zeros(TAPE_CAPACITY, dtype=np.uint8)",
   "    pos = 0"]

/-- The lines after the statements. -/
def tail : List String :=
  ["",
   "",
   "if __name__ == \"__main__\":",
   "    run(sys.stdin.buffer, sys.stdout.buffer)"]

/-- The lines of the statements of a program in its function. -/
def programLines (b : Block Op) : List (List Char) := (Suite.ofProgram b).lines 1

/-- The text of the module of a program, each line ended. -/
def moduleText (capacity : Nat) (b : Block Op) : String :=
  let lines := heading capacity ++ (programLines b).map String.ofList ++ tail
  String.join (lines.map (· ++ "\n"))

/-- Runs the statements that lines spell on a machine; none when the lines cannot be read or the
run does not end within `fuel` steps. -/
def runLines (fuel : Nat) (lines : List (List Char)) (m : Machine) : Option Ended :=
  (Suite.ofLines? lines).bind fun suite => run fuel suite m

end Script

end TapeLang
