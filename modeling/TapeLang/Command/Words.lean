import TapeLang.Text.Digit
import TapeLang.Text.Quoted

/-! Words of a command line. A grammar knows the switches of a command and how many operands it
takes. Each word is first recognised by itself; then the words are gone through in order, and what
they give is listed up to the first misuse. -/

namespace TapeLang.Command

/-- A switch of a command: its names, whether a value follows it, and what it stands for. -/
structure Switch (α : Type) where
  names : List String
  takesValue : Bool
  meaning : α

/-- How many operands a command takes: one, at most one, or at least one with all that
follows. -/
inductive Arity where
  | one
  | optional
  | rest
deriving Repr, DecidableEq

/-- What the words of a command may be. -/
structure Grammar (α : Type) where
  switches : List (Switch α)
  arity : Arity

/-- How a command line is misused. -/
inductive Misuse where
  /-- A shortened switch could be several. -/
  | ambiguous (word : String) (names : List String)
  /-- A value is attached to a switch that takes none. -/
  | ignored (names : List String) (value : String)
  /-- A switch lacks its value. -/
  | noValue (names : List String)
  /-- An operand is none of the admitted ones. -/
  | badChoice (operand value : String) (choices : List String)
  /-- An operand is missing. -/
  | required (operand : String)
  /-- Words that have no place. -/
  | unrecognised (words : List String)
deriving Repr, DecidableEq

/-- What is said about a misuse. -/
def Misuse.message : Misuse → String
  | .ambiguous word names =>
    "ambiguous option: " ++ word ++ " could match " ++ ", ".intercalate names
  | .ignored names value =>
    "argument " ++ "/".intercalate names ++ ": ignored explicit argument " ++ Text.quoted value
  | .noValue names => "argument " ++ "/".intercalate names ++ ": expected one argument"
  | .badChoice operand value choices =>
    "argument " ++ operand ++ ": invalid choice: " ++ Text.quoted value ++ " (choose from " ++
      ", ".intercalate (choices.map Text.quoted) ++ ")"
  | .required operand => "the following arguments are required: " ++ operand
  | .unrecognised words => "unrecognized arguments: " ++ " ".intercalate words

/-- A switch found in a word: the name it goes by, and what is attached to it. -/
structure Found (α : Type) where
  switch : Switch α
  name : String
  attached : Option (List Char)

/-- A recognised word. -/
inductive Word (α : Type) where
  | operand (text : String)
  /-- Two dashes alone: all words behind them are operands. -/
  | dashes
  | switch (text : String) (found : Found α)
  /-- A word that looks like a switch of no known name. -/
  | unknown (text : String)

/-- A word as it was written. -/
def Word.text {α : Type} : Word α → String
  | .operand text => text
  | .dashes => "--"
  | .switch text _ => text
  | .unknown text => text

/-- The parts of a text before and behind its first equals sign. -/
def splitEquals? (text : List Char) : Option (List Char × List Char) :=
  match text.dropWhile (· != '=') with
  | [] => none
  | _ :: value => some (text.takeWhile (· != '='), value)

/-- Whether a text is a negative number, with or without a point; a line feed may end it. -/
def looksNegative : List Char → Bool
  | '-' :: text =>
    let text := if text.getLast? = some '\n' then text.dropLast else text
    let isDigit := fun c => (Text.digitValue? c).isSome
    let behind := text.dropWhile isDigit
    match behind with
    | [] => !text.isEmpty
    | '.' :: fraction => !fraction.isEmpty && fraction.all isDigit
    | _ => false
  | _ => false

namespace Grammar

variable {α : Type}

/-- The switches by name, in order. -/
def named (g : Grammar α) : List (String × Switch α) :=
  g.switches.flatMap fun s => s.names.map fun name => (name, s)

/-- The switch of exactly this name. -/
def find? (g : Grammar α) (name : String) : Option (Switch α) :=
  (g.named.find? fun entry => entry.1 == name).map Prod.snd

/-- The switches that a shortened or combined word could be. Behind two dashes a name may be
shortened; behind one dash the first letter may be a switch with something attached. -/
def candidates (g : Grammar α) (word : List Char) : List (Found α) :=
  match word with
  | '-' :: '-' :: _ =>
    let (start, attached) := match splitEquals? word with
      | some (start, value) => (start, some value)
      | none => (word, none)
    g.named.filterMap fun (name, switch) =>
      if start.isPrefixOf name.toList then some ⟨switch, name, attached⟩ else none
  | dash :: letter :: attached =>
    g.named.filterMap fun (name, switch) =>
      if name.toList = [dash, letter] then some ⟨switch, name, some attached⟩
      else if word.isPrefixOf name.toList then some ⟨switch, name, none⟩
      else none
  | _ => []

/-- Recognises a word other than two dashes alone. -/
def recognise (g : Grammar α) (text : String) : Except Misuse (Word α) :=
  match text.toList with
  | '-' :: rest =>
    match g.find? text with
    | some switch => .ok (.switch text ⟨switch, text, none⟩)
    | none =>
      if rest.isEmpty then .ok (.operand text)
      else
        let whole := (splitEquals? text.toList).bind fun (name, value) =>
          (g.find? (String.ofList name)).map fun switch =>
            (⟨switch, String.ofList name, some value⟩ : Found α)
        match whole with
        | some found => .ok (.switch text found)
        | none =>
          match g.candidates text.toList with
          | [found] => .ok (.switch text found)
          | [] =>
            if looksNegative text.toList || text.toList.contains ' ' then .ok (.operand text)
            else .ok (.unknown text)
          | several => .error (.ambiguous text (several.map Found.name))
  | _ => .ok (.operand text)

/-- Recognises the words in order. -/
def recogniseAll (g : Grammar α) : List String → Except Misuse (List (Word α))
  | [] => .ok []
  | "--" :: rest => .ok (.dashes :: rest.map .operand)
  | text :: rest =>
    match g.recognise text with
    | .error e => .error e
    | .ok word => (g.recogniseAll rest).map (word :: ·)

/-- What words give. -/
inductive Given (α : Type) where
  | switch (meaning : α) (value : Option String)
  | operands (values : List String)

/-- What the words of a command give in order, and how they end: with a misuse, or with the words
that have no place. -/
structure Scan (α : Type) where
  given : List (Given α)
  ending : Except Misuse (List String)

namespace Scan

/-- Something given before the rest. -/
def give (g : Given α) (s : Scan α) : Scan α := { s with given := g :: s.given }

/-- A word without place before the rest. -/
def extra (word : String) (s : Scan α) : Scan α :=
  { s with ending := s.ending.map (word :: ·) }

end Scan

/-- The last switch of a word. -/
inductive Last (α : Type) where
  /-- A switch with nothing attached; a value that it takes is the next word. -/
  | bare (s : Switch α)
  /-- A switch with its value. -/
  | valued (s : Switch α) (value : String)

/-- Takes a switch with something attached apart: the switches without value in front, and the
last one. Behind one dash, what is attached to a switch without value are the letters of further
switches. -/
def takeApart (g : Grammar α) (switch : Switch α) (name : String) :
    List Char → Except Misuse (List (Switch α) × Last α)
  | [] =>
    if switch.takesValue then .ok ([], .valued switch "")
    else .error (.ignored switch.names "")
  | c :: rest =>
    if switch.takesValue then .ok ([], .valued switch (String.ofList (c :: rest)))
    else if name.toList[1]? = some '-' then
      .error (.ignored switch.names (String.ofList (c :: rest)))
    else
      match g.find? (String.ofList ['-', c]) with
      | none => .error (.ignored switch.names (String.ofList (c :: rest)))
      | some next =>
        if rest.isEmpty then .ok ([switch], .bare next)
        else
          match g.takeApart next (String.ofList ['-', c]) rest with
          | .ok (front, last) => .ok (switch :: front, last)
          | .error e => .error e

/-- The switches in a word. -/
def switchesIn (g : Grammar α) (f : Found α) : Except Misuse (List (Switch α) × Last α) :=
  match f.attached with
  | none => .ok ([], .bare f.switch)
  | some attached => g.takeApart f.switch f.name attached

/-- The value that is attached to a switch; two dashes alone count as none. -/
def attachedValue (value : String) : Option String := if value = "--" then none else some value

/-- Words without the two dashes in front. -/
def dropDashes : List (Word α) → List (Word α)
  | .dashes :: rest => rest
  | words => words

theorem length_dropDashes_le (words : List (Word α)) :
    (dropDashes words).length ≤ words.length := by
  unfold dropDashes
  split <;> simp

/-- Goes through words. `wanted` says whether the operands are still to come. -/
def scan (g : Grammar α) (wanted : Bool) : List (Word α) → Scan α
  | [] =>
    match wanted, g.arity with
    | true, .optional => ⟨[.operands []], .ok []⟩
    | _, _ => ⟨[], .ok []⟩
  | .operand text :: rest =>
    match wanted, g.arity with
    | false, _ => (g.scan false rest).extra text
    | true, .rest => ⟨[.operands (text :: rest.map Word.text)], .ok []⟩
    | true, _ => (g.scan false (dropDashes rest)).give (.operands [text])
  | .dashes :: rest =>
    match wanted, g.arity, rest.head? with
    | true, .rest, some _ => ⟨[.operands ("--" :: rest.map Word.text)], .ok []⟩
    | true, .one, some word => (g.scan false rest.tail).give (.operands [word.text])
    | true, .optional, some word => (g.scan false rest.tail).give (.operands [word.text])
    | true, .optional, none => ⟨[.operands []], .ok []⟩
    | _, _, _ => (g.scan wanted rest).extra "--"
  | .unknown text :: rest => (g.scan wanted rest).extra text
  | .switch _ found :: rest =>
    match g.switchesIn found with
    | .error e => ⟨[], .error e⟩
    | .ok (front, last) =>
      let flags := front.map fun s => Given.switch s.meaning none
      let behind := fun (given : Given α) (s : Scan α) =>
        { s with given := flags ++ given :: s.given }
      match last with
      | .valued last value =>
        behind (.switch last.meaning (attachedValue value)) (g.scan wanted rest)
      | .bare last =>
        match last.takesValue, rest.head? with
        | false, _ => behind (.switch last.meaning none) (g.scan wanted rest)
        | true, some (.operand value) =>
          behind (.switch last.meaning (some value)) (g.scan wanted rest.tail)
        | true, _ => ⟨[], .error (.noValue last.names)⟩
termination_by words => words.length
decreasing_by
  all_goals
    have := length_dropDashes_le rest
    simp only [List.length_cons, List.length_tail]
    omega

/-- What the words of a command line give. -/
def read (g : Grammar α) (words : List String) : Scan α :=
  match g.recogniseAll words with
  | .ok words => g.scan true words
  | .error e => ⟨[], .error e⟩

end Grammar

end TapeLang.Command
