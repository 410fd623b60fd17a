import TapeLang.Encoding.Charset

/-! Names of encodings that every host knows. Letters are compared without case, and whatever is
neither a letter, a digit nor a dot only separates. Some known names are of conversions that are not
between texts and bytes. -/

namespace TapeLang.Encoding

/-- A way to write texts as bytes. -/
inductive Scheme where
  /-- The bytes of a character set. -/
  | plain (s : Charset)
  /-- Two-byte units after a mark that gives their byte order. -/
  | marked
deriving Repr, DecidableEq

/-- A known encoding. -/
inductive Known where
  | text (s : Scheme)
  /-- A conversion that is not between texts and bytes. -/
  | notText
deriving Repr, DecidableEq

/-- Whether a character belongs to a name itself. -/
def isNameChar (c : Char) : Bool := c.isAlphanum || c = '.'

/-- A name with one underscore for each run of separating characters inside it. -/
def normalise (name : String) : String :=
  String.ofList (go false [] name.toList).reverse
where
  /-- Goes through a name with the normal form so far, last character first, and whether
  separating characters have been passed. -/
  go (separated : Bool) (done : List Char) : List Char → List Char
    | [] => done
    | c :: rest =>
      if isNameChar c then
        let done := if separated && !done.isEmpty then '_' :: done else done
        go false (c.toLower :: done) rest
      else go true done rest

/-- A name with underscores for its dots. -/
def undotted (name : String) : String :=
  String.ofList (name.toList.map fun c => if c = '.' then '_' else c)

/-- The names of a known encoding in normal form: its own, and the others it goes by. -/
structure Names where
  known : Known
  own : String
  others : List String

/-- Whether a normal name is one of an encoding. In a name other than its own, dots may stand for
underscores. -/
def Names.has (names : Names) (normal : String) : Bool :=
  names.own == normal || names.others.contains normal || names.others.contains (undotted normal)

/-- The names of the known encodings. -/
def allNames : List Names :=
  [⟨.text (.plain .utf8), "utf_8", ["u8", "utf", "utf8", "utf8_ucs2", "utf8_ucs4", "cp65001"]⟩,
   ⟨.text (.plain .latin1), "latin_1",
    ["8859", "cp819", "csisolatin1", "ibm819", "iso8859", "iso8859_1", "iso_8859_1",
     "iso_8859_1_1987", "iso_ir_100", "l1", "latin", "latin1"]⟩,
   ⟨.text (.plain .ascii), "ascii",
    ["646", "ansi_x3.4_1968", "ansi_x3_4_1968", "ansi_x3.4_1986", "cp367", "csascii", "ibm367",
     "iso646_us", "iso_646.irv_1991", "iso_ir_6", "us", "us_ascii"]⟩,
   ⟨.text .marked, "utf_16", ["u16", "utf16"]⟩,
   ⟨.text (.plain (.utf16 .little)), "utf_16_le", ["utf_16le", "unicodelittleunmarked"]⟩,
   ⟨.text (.plain (.utf16 .big)), "utf_16_be", ["utf_16be", "unicodebigunmarked"]⟩,
   ⟨.notText, "hex_codec", ["hex"]⟩,
   ⟨.notText, "base64_codec", ["base64", "base_64"]⟩,
   ⟨.notText, "rot_13", ["rot13"]⟩]

/-- The encoding of a name, if it is known. -/
def find? (name : String) : Option Known :=
  let normal := normalise name
  (allNames.find? fun names => names.has normal).map Names.known

end TapeLang.Encoding
