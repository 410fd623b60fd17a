import TapeLang.Settings
import TapeLang.Text.Newline

/-! Program files: their bytes are decoded strictly, and their line ends become line feeds. -/

namespace TapeLang

open Text

/-- The characters of a decoded text. A lone surrogate, which some codec of the host may give,
becomes a null character: both are inert in a program. -/
def plainText (text : List CodePoint) : List Char := text.map fun c => Char.ofNat c.val

/-- A way to get at the bytes of files. -/
abbrev FileReader := Path → Except Folder.Fault (List UInt8)

/-- The text of a program file. A file that cannot be opened is found before a name that is no
encoding, unless the name holds a null character. -/
def loadProgram (codecs : Encoding.Codecs) (read : FileReader) (path : Path)
    (encoding : String) : Except Fault (List Char) :=
  if encoding.toList.contains (Char.ofNat 0) then .error (.conversion .nullInName)
  else
    match read path with
    | .error e => .error (.file e)
    | .ok bytes =>
      match Encoding.lookup codecs encoding .openFile with
      | .error e => .error (.conversion e)
      | .ok conversion =>
        match conversion.decodeFile bytes with
        | .error e => .error (.conversion e)
        | .ok text => .ok (unifyNewlines (plainText text))

/-- The text of program bytes that come from no file: each byte is a character, and line ends stay
as they are. -/
def programText (bytes : List UInt8) : List Char := bytes.map fun b => Char.ofNat b.toNat

end TapeLang
