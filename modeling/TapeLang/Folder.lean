import TapeLang.Text.Quoted

/-! Folders of files, and paths in them. A path is found component by component. Outside of the
folder there are the directories above it and those that every system has, with nothing in them but
the null device. -/

namespace TapeLang

/-- A path: its root, which is empty for a relative path, and its components. -/
structure Path where
  root : String := ""
  parts : List String := []
deriving Repr, DecidableEq

namespace Path

/-- Reads a path. Empty components and single dots are dropped, and more than two slashes in front
count as one. -/
def ofString (text : String) : Path :=
  let slashes := (text.toList.takeWhile (· == '/')).length
  let root := if slashes = 0 then "" else if slashes = 2 then "//" else "/"
  { root, parts := (text.splitOn "/").filter fun part => part != "" && part != "." }

/-- The text of a path. -/
def render (p : Path) : String :=
  if p.root.isEmpty && p.parts.isEmpty then "." else p.root ++ "/".intercalate p.parts

/-- How many bytes a component may have. -/
def componentRoom : Nat := 255

/-- How many bytes a path may have. -/
def room : Nat := 4095

/-- Whether a path has too many bytes as a whole. -/
def isTooLong (p : Path) : Bool := room < p.render.utf8ByteSize

end Path

/-- A file with its bytes, or a directory. -/
inductive Entry where
  | file (bytes : List UInt8)
  | directory
deriving Repr, DecidableEq

/-- The files and directories below a folder, each with its components. -/
structure Folder where
  entries : List (List String × Entry) := []
deriving Repr, DecidableEq

namespace Folder

/-- Why a file cannot be opened. -/
inductive Fault where
  | notFound (path : Path)
  | isDirectory (path : Path)
  | notDirectory (path : Path)
  /-- The path or one of its components has too many bytes. -/
  | nameTooLong (path : Path)
  /-- The path holds a null character. -/
  | nullInPath
deriving Repr, DecidableEq

/-- What is said about a file that cannot be opened. -/
def Fault.message : Fault → String
  | .notFound path => "[Errno 2] No such file or directory: " ++ Text.quoted path.render
  | .isDirectory path => "[Errno 21] Is a directory: " ++ Text.quoted path.render
  | .notDirectory path => "[Errno 20] Not a directory: " ++ Text.quoted path.render
  | .nameTooLong path => "[Errno 36] File name too long: " ++ Text.quoted path.render
  | .nullInPath => "embedded null byte"

/-- The entry with the given components. A directory exists also when something is in it. -/
def entry? (f : Folder) (parts : List String) : Option Entry :=
  match f.entries.find? fun e => e.1 == parts with
  | some e => some e.2
  | none =>
    if f.entries.any fun e => parts.isPrefixOf e.1 && parts.length < e.1.length then
      some .directory
    else none

/-- Where a path leads. -/
inductive Place where
  /-- To a file. -/
  | file (parts : List String) (bytes : List UInt8)
  /-- To a directory, below the folder or outside of it. -/
  | directory
  /-- To the null device, which has no bytes and forgets what is written. -/
  | null
  /-- To a name in a directory that holds nothing of this name. -/
  | free (parts : List String)
  /-- Nowhere: a directory on the way does not exist. -/
  | missing
  /-- Nowhere: a file is used as a directory. -/
  | blocked
  /-- Nowhere: a component has too many bytes. -/
  | tooLong
deriving Repr, DecidableEq

/-- The directories that every system has. -/
def systemDirectories : List String :=
  ["bin", "boot", "dev", "etc", "home", "lib", "media", "mnt", "opt", "proc", "root", "run",
   "sbin", "srv", "sys", "tmp", "usr", "var"]

/-- Where components lead from the root, or from one of the directories that every system has. -/
def locateSystem : Option String → List String → Place
  | _, [] => .directory
  | place, part :: rest =>
    if part = ".." then locateSystem none rest
    else if Path.componentRoom < part.utf8ByteSize then .tooLong
    else
      match place with
      | none => if part ∈ systemDirectories then locateSystem (some part) rest else .missing
      | some directory =>
        if directory ≠ "dev" ∨ part ≠ "null" then .missing
        else if rest.isEmpty then .null
        else .blocked

/-- Where components lead from a directory above the folder. -/
def locateAbove : List String → Place
  | [] => .directory
  | part :: rest =>
    if part = ".." then locateAbove rest
    else if Path.componentRoom < part.utf8ByteSize then .tooLong
    else .missing

/-- Follows components from a directory below the folder, whose own components are given last
first. -/
def follow (f : Folder) : List String → List String → Place
  | _, [] => .directory
  | place, part :: rest =>
    if part = ".." then
      match place with
      | [] => locateAbove rest
      | _ :: up => f.follow up rest
    else if Path.componentRoom < part.utf8ByteSize then .tooLong
    else
      let parts := (part :: place).reverse
      match f.entry? parts with
      | some .directory => f.follow (part :: place) rest
      | some (.file bytes) => if rest.isEmpty then .file parts bytes else .blocked
      | none => if rest.isEmpty then .free parts else .missing

/-- Where a path leads. -/
def locate (f : Folder) (path : Path) : Place :=
  if path.isTooLong then .tooLong
  else if path.root.isEmpty then f.follow [] path.parts
  else locateSystem none path.parts

/-- Whether a path holds a null character. -/
def hasNull (path : Path) : Bool :=
  path.parts.any fun part => part.toList.contains (Char.ofNat 0)

/-- The bytes of a file. -/
def read (f : Folder) (path : Path) : Except Fault (List UInt8) :=
  if hasNull path then .error .nullInPath
  else
    match f.locate path with
    | .file _ bytes => .ok bytes
    | .null => .ok []
    | .directory => .error (.isDirectory path)
    | .free _ | .missing => .error (.notFound path)
    | .blocked => .error (.notDirectory path)
    | .tooLong => .error (.nameTooLong path)

/-- The folder with these bytes in a file. -/
def put (f : Folder) (parts : List String) (bytes : List UInt8) : Folder :=
  if f.entries.any fun e => e.1 == parts then
    ⟨f.entries.map fun e => if e.1 == parts then (parts, .file bytes) else e⟩
  else ⟨f.entries ++ [(parts, .file bytes)]⟩

/-- Writes a file, in place of an old one. -/
def write (f : Folder) (path : Path) (bytes : List UInt8) : Except Fault Folder :=
  if hasNull path then .error .nullInPath
  else
    match f.locate path with
    | .file parts _ | .free parts => .ok (f.put parts bytes)
    | .null => .ok f
    | .directory => .error (.isDirectory path)
    | .missing => .error (.notFound path)
    | .blocked => .error (.notDirectory path)
    | .tooLong => .error (.nameTooLong path)

/-- Why a path cannot be written, if it cannot. -/
def refusal? (f : Folder) (path : Path) : Option Fault :=
  match f.write path [] with
  | .ok _ => none
  | .error e => some e

/-- The files of a folder that are new or different compared with an older state, by name. -/
def changes (old new : Folder) : List (String × List UInt8) :=
  new.entries.filterMap fun (parts, e) =>
    match e with
    | .directory => none
    | .file bytes =>
      if old.entries.contains (parts, .file bytes) then none
      else some ("/".intercalate parts, bytes)

/-- The files that are new or different after a write, or after none. -/
def changesAfter (f : Folder) (written : Option (Path × List UInt8)) :
    List (String × List UInt8) :=
  match written with
  | none => []
  | some (path, bytes) =>
    match f.write path bytes with
    | .ok new => f.changes new
    | .error _ => []

end Folder

end TapeLang
