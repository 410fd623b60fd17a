/-! What the command line says about itself: usage lines, help texts and the version. -/

namespace TapeLang.Command.Manual

/-- The name of the tool. -/
def tool : String := "bfkit"

/-- The line that the version switch prints. -/
def version : String := "bfkit 1.0.0\n"

/-- The usage line of the tool. -/
def usage : String :=
  "usage: bfkit [-h] [-v] [--debug] \x7bdemo,interpret,compile\x7d ...\n"

/-- The help of the tool. -/
def help : String :=
  usage ++
  "\n" ++
  "Interpret or translate programs in the eight-symbol tape language.\n" ++
  "\n" ++
  "positional arguments:\n" ++
  "  \x7bdemo,interpret,compile\x7d\n" ++
  "    demo                Translate and run a bundled program on stdin/stdout\n" ++
  "    interpret           Interpret a program file (or program text from stdin)\n" ++
  "    compile             Translate a program file into a Python module\n" ++
  "\n" ++
  "options:\n" ++
  "  -h, --help            show this help message and exit\n" ++
  "  -v, --version         show program's version number and exit\n" ++
  "  --debug               Log debug messages to stderr\n"

/-- The usage line of the demonstration. -/
def demoUsage : String := "usage: bfkit demo [-h] [\x7bhello,rot13\x7d]\n"

/-- The help of the demonstration. -/
def demoHelp : String :=
  demoUsage ++
  "\n" ++
  "positional arguments:\n" ++
  "  \x7bhello,rot13\x7d\n" ++
  "\n" ++
  "options:\n" ++
  "  -h, --help     show this help message and exit\n"

/-- The usage line of running a program as it stands. -/
def interpretUsage : String := "usage: bfkit interpret [-h] [--dump-tape] [file]\n"

/-- The help of running a program as it stands. -/
def interpretHelp : String :=
  interpretUsage ++
  "\n" ++
  "positional arguments:\n" ++
  "  file         Program file; read from stdin when omitted\n" ++
  "\n" ++
  "options:\n" ++
  "  -h, --help   show this help message and exit\n" ++
  "  --dump-tape  Print the non-zero cells of the final tape to stderr\n"

/-- The usage line of writing a module. -/
def compileUsage : String := "usage: bfkit compile [-h] [-o OUTPUT] file\n"

/-- The help of writing a module. -/
def compileHelp : String :=
  compileUsage ++
  "\n" ++
  "positional arguments:\n" ++
  "  file                  Program file\n" ++
  "\n" ++
  "options:\n" ++
  "  -h, --help            show this help message and exit\n" ++
  "  -o OUTPUT, --output OUTPUT\n" ++
  "                        Write the module here instead of stdout\n"

end TapeLang.Command.Manual
