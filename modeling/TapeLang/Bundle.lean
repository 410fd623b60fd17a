import TapeLang.Text.Quoted

/-! The programs that come with the tool. -/

namespace TapeLang.Bundle

/-- Prints a greeting. -/
def hello : String :=
  "++++++++[>++++[>++>+++>+++>+<<<<-]>+>+>->>+[<]<-]>>.>---.+++++++..+++.>>.<-.<.+++.------." ++
  "--------.>>+.>++.\n"

/-- Rotates the letters of its input by thirteen places and copies everything else. -/
def rot13 : String :=
  "-,+[\n" ++
  "    -[\n" ++
  "        >>++++[>++++++++<-]\n" ++
  "        <+<-[\n" ++
  "            >+>+>-[>>>]\n" ++
  "            <[[>+<-]>>+>]\n" ++
  "            <<<<<-\n" ++
  "        ]\n" ++
  "    ]>>>[-]+\n" ++
  "    >--[-[<->+++[-]]]<[\n" ++
  "        ++++++++++++<[\n" ++
  "            >-[>+>>]\n" ++
  "            >[+[<+>-]>+>>]\n" ++
  "            <<<<<-\n" ++
  "        ]\n" ++
  "        >>[<+>-]\n" ++
  "        >[\n" ++
  "            -[\n" ++
  "                -<<[-]>>\n" ++
  "            ]<<[<<->>-]>>\n" ++
  "        ]<<[<<+>>-]\n" ++
  "    ]\n" ++
  "    <[-]\n" ++
  "    <.[-]\n" ++
  "    <-,+\n" ++
  "]\n"

/-- The programs by name, in the order of their names. -/
def programs : List (String × String) := [("hello", hello), ("rot13", rot13)]

/-- The names of the programs. -/
def available : List String := programs.map Prod.fst

/-- The program of a name. -/
def load? (name : String) : Option String := programs.lookup name

/-- What is said when no program has a name. -/
def missing (name : String) : String := "no bundled program named " ++ Text.quoted name

end TapeLang.Bundle
