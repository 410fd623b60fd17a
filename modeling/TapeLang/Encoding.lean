import TapeLang.Encoding.Name
import TapeLang.Text.Cut
import TapeLang.Text.Quoted

/-! Conversion between texts and bytes. Bytes that a character set refuses are carried in the text
by code points from U+DC80 to U+DCFF and come back as the same bytes; the strict way of reading
refuses them. Which codecs there are besides those of the known encodings is up to the host. -/

namespace TapeLang.Encoding

open Text

/-- The task for which an encoding is used; it is named when the encoding is not for texts. -/
inductive Task where
  | encode
  | decode
  | openFile
deriving Repr, DecidableEq

/-- Why a conversion fails. -/
inductive Fault where
  /-- The name holds a null character. -/
  | nullInName
  /-- No encoding has this name. -/
  | unknown (name : String)
  /-- The encoding of this name is not for texts. -/
  | notText (name : String) (task : Task)
  /-- The code points from one position to another cannot be written; the first is given. -/
  | unwritable (label lack : String) (c : CodePoint) (first last : Nat)
  /-- The bytes from one position to another cannot be read; the first is given. -/
  | unreadable (label : String) (why : Refusal) (b : UInt8) (first last : Nat)
  /-- A file in two-byte units does not start with a mark of their byte order. -/
  | noMark
deriving Repr, DecidableEq

/-- How many bytes of a name are repeated when the encoding is not for texts. -/
def nameRoom : Nat := 400

/-- A position, or the first and the last of several. -/
def positions (first last : Nat) : String :=
  if first = last then toString first else toString first ++ "-" ++ toString last

/-- What is said about a failed conversion. -/
def Fault.message : Fault → String
  | .nullInName => "embedded null character"
  | .unknown name => "unknown encoding: " ++ name
  | .notText name task =>
    let tool := match task with
      | .encode => "codecs.encode()"
      | .decode => "codecs.decode()"
      | .openFile => "codecs.open()"
    "'" ++ String.ofList (cutTo nameRoom name.toList) ++ "' is not a text encoding; use " ++
      tool ++ " to handle arbitrary codecs"
  | .unwritable label lack c first last =>
    let what :=
      if first = last then "character '" ++ String.ofList (escapeNumber c.val) ++ "'"
      else "characters"
    "'" ++ label ++ "' codec can't encode " ++ what ++ " in position " ++ positions first last ++
      ": " ++ lack
  | .unreadable label why b first last =>
    let what :=
      if first = last then "byte 0x" ++ String.ofList (hex 2 b.toNat) else "bytes"
    "'" ++ label ++ "' codec can't decode " ++ what ++ " in position " ++ positions first last ++
      ": " ++ why.message
  | .noMark => "UTF-16 stream does not start with BOM"

namespace Charset

/-- Whether bytes that were carried by code points can be written back in a character set. -/
def carriesBytes : Charset → Bool
  | .utf16 _ => false
  | _ => true

/-- The last position of the run of code points that cannot be written, from a given one on. In
two-byte units each code point is refused by itself. -/
def lastUnwritable (s : Charset) (position : Nat) (rest : List CodePoint) : Nat :=
  if s.carriesBytes then
    position + (rest.takeWhile fun c => (s.encodePoint? c).isNone).length
  else position

/-- The bytes of a text whose first code point has the given position. -/
def encodeFrom (s : Charset) (label : String) (position : Nat) :
    List CodePoint → Except Fault (List UInt8)
  | [] => .ok []
  | c :: rest =>
    match s.encodePoint? c with
    | some bytes => (s.encodeFrom label (position + 1) rest).map (bytes ++ ·)
    | none =>
      match if s.carriesBytes then c.byte? else none with
      | some b => (s.encodeFrom label (position + 1) rest).map (b :: ·)
      | none => .error (.unwritable label s.lack c position (s.lastUnwritable position rest))

/-- The bytes of a text. -/
def encode (s : Charset) (text : List CodePoint) : Except Fault (List UInt8) :=
  s.encodeFrom s.label 0 text

/-- The refused bytes that are carried by code points: those of the refused ones, up to four,
before the first ASCII byte. -/
def carried (a : UInt8) (rest : List UInt8) (more : Nat) : List UInt8 :=
  ((a :: rest).take (min 4 (more + 1))).takeWhile fun b => 128 ≤ b.toNat

/-- The text of bytes of which the first has the given position. Refused bytes are carried by
code points unless the reading is strict. -/
def decodeFrom (s : Charset) (strict : Bool) (position : Nat) :
    List UInt8 → Except Fault (List CodePoint)
  | [] => .ok []
  | a :: rest =>
    match s.front a rest with
    | .point c more =>
      (s.decodeFrom strict (position + more + 1) (rest.drop more)).map (c :: ·)
    | .refused more why =>
      match if strict then [] else carried a rest more with
      | [] => .error (.unreadable s.label why a position (position + more))
      | b :: bs =>
        (s.decodeFrom strict (position + bs.length + 1) (rest.drop bs.length)).map
          ((b :: bs).map CodePoint.ofByte ++ ·)
termination_by bytes => bytes.length
decreasing_by
  all_goals
    simp only [List.length_drop, List.length_cons]
    omega

/-- The text of bytes, with refused bytes carried by code points. -/
def decode (s : Charset) (bytes : List UInt8) : Except Fault (List CodePoint) :=
  s.decodeFrom false 0 bytes

end Charset

/-- The byte order that a mark at the start gives, with the bytes behind it. -/
def splitMark : List UInt8 → Option (ByteOrder × List UInt8)
  | 0xFF :: 0xFE :: rest => some (.little, rest)
  | 0xFE :: 0xFF :: rest => some (.big, rest)
  | _ => none

namespace Scheme

/-- The bytes of a text. -/
def encode (s : Scheme) (text : List CodePoint) : Except Fault (List UInt8) :=
  match s with
  | .plain s => s.encode text
  | .marked =>
    ((Charset.utf16 .little).encodeFrom "utf-16" 0 text).map fun bytes => 0xFF :: 0xFE :: bytes

/-- The text of bytes. Without a mark, units are little-endian. -/
def decode (s : Scheme) (bytes : List UInt8) : Except Fault (List CodePoint) :=
  match s with
  | .plain s => s.decode bytes
  | .marked =>
    match splitMark bytes with
    | some (order, rest) => (Charset.utf16 order).decodeFrom false 2 rest
    | none => (Charset.utf16 .little).decode bytes

/-- The text of a file, where no byte may be refused and the mark of a byte order must be
there. -/
def decodeFile (s : Scheme) (bytes : List UInt8) : Except Fault (List CodePoint) :=
  match s with
  | .plain s => s.decodeFrom true 0 bytes
  | .marked =>
    match splitMark bytes with
    | some (order, rest) => (Charset.utf16 order).decodeFrom true 2 rest
    | none =>
      match (Charset.utf16 .little).decodeFrom true 0 bytes with
      | .error e => .error e
      | .ok text => if bytes.isEmpty then .ok text else .error .noMark

end Scheme

/-! ### Codecs -/

/-- How texts are written as bytes, how they are read from them, and how from the bytes of a file,
where none may be refused. -/
structure Conversion where
  encode : List CodePoint → Except Fault (List UInt8)
  decode : List UInt8 → Except Fault (List CodePoint)
  decodeFile : List UInt8 → Except Fault (List CodePoint)

/-- What a name stands for. -/
inductive Codec where
  | text (c : Conversion)
  /-- A conversion that is not between texts and bytes. -/
  | notText

/-- The conversion of a scheme. -/
def Scheme.conversion (s : Scheme) : Conversion := ⟨s.encode, s.decode, s.decodeFile⟩

/-- The codec of a known encoding. -/
def Known.codec : Known → Codec
  | .text s => .text s.conversion
  | .notText => .notText

/-- The codecs that the host has. The known names are among their names, and mean there what they
mean here; which other names there are, and what they stand for, is up to the host. -/
structure Codecs where
  find? : String → Option Codec
  find?_known : ∀ {name known}, Encoding.find? name = some known → find? name = some known.codec

/-- The codecs of the known names and no others. -/
def Codecs.known : Codecs where
  find? name := (Encoding.find? name).map Known.codec
  find?_known h := by rw [h, Option.map_some]

/-- The conversion of a name for a task. -/
def lookup (codecs : Codecs) (name : String) (task : Task) : Except Fault Conversion :=
  if name.toList.contains (Char.ofNat 0) then .error .nullInName
  else
    match codecs.find? name with
    | none => .error (.unknown name)
    | some .notText => .error (.notText name task)
    | some (.text c) => .ok c

/-- The bytes of a text in the encoding of a name. -/
def encode (codecs : Codecs) (name : String) (text : List CodePoint) :
    Except Fault (List UInt8) := do
  (← lookup codecs name .encode).encode text

/-- The text of bytes in the encoding of a name, which does not matter when there are no
bytes. -/
def decode (codecs : Codecs) (name : String) (bytes : List UInt8) :
    Except Fault (List CodePoint) :=
  if name.toList.contains (Char.ofNat 0) then .error .nullInName
  else if bytes.isEmpty then .ok []
  else do (← lookup codecs name .decode).decode bytes

end TapeLang.Encoding
