import TapeLang.Block

/-! Parsing: a text with balanced brackets becomes a program. A reading goes through the text once
and keeps the block it is in, and the loops still open with what stands before each. Texts consist
of characters; lone surrogates, which would be inert, are left out. -/

namespace TapeLang

/-- A parsed text: its block, how deep its loops nest, and how many symbols it has. -/
structure Program where
  block : Block Op
  depth : Nat
  size : Nat
deriving Repr, DecidableEq

/-- A bracket without its partner, with its offset in the text. -/
inductive Unmatched where
  | opening (offset : Nat)
  | closing (offset : Nat)
deriving Repr, DecidableEq

namespace Unmatched

/-- The offset of the blamed bracket. -/
def offset : Unmatched → Nat
  | .opening offset => offset
  | .closing offset => offset

/-- What is said about the bracket. -/
def message : Unmatched → String
  | .opening _ => "Unmatched '['"
  | .closing _ => "Unmatched ']'"

end Unmatched

/-- A loop still open: the offset of its bracket, and what stands before it in its block, last
first. -/
structure Pending where
  offset : Nat
  before : Block Op
deriving Repr, DecidableEq

/-- A text read so far: the block being read, last first, the loops that are open, innermost
first, and the depth and size up to here. -/
structure Reading where
  here : Block Op := .nil
  opened : List Pending := []
  depth : Nat := 0
  size : Nat := 0
deriving Repr, DecidableEq

namespace Reading

/-- Takes in the symbol at an offset. -/
def symbol (r : Reading) (offset : Nat) : Symbol → Except Unmatched Reading
  | .prim p => .ok { r with here := .cons p.op r.here, size := r.size + 1 }
  | .opening =>
    .ok { here := .nil
          opened := ⟨offset, r.here⟩ :: r.opened
          depth := max r.depth (r.opened.length + 1)
          size := r.size + 1 }
  | .closing =>
    match r.opened with
    | [] => .error (.closing offset)
    | p :: rest =>
      .ok { r with here := .loop r.here.reverse p.before, opened := rest, size := r.size + 1 }

/-- Takes in a text that starts at an offset, and passes over its inert characters. -/
def text : Reading → Nat → List Char → Except Unmatched Reading
  | r, _, [] => .ok r
  | r, offset, c :: rest =>
    match Symbol.ofChar? c with
    | none => r.text (offset + 1) rest
    | some s =>
      match r.symbol offset s with
      | .ok r' => r'.text (offset + 1) rest
      | .error e => .error e

/-- The program that was read, when no loop is open. -/
def program (r : Reading) : Except Unmatched Program :=
  match r.opened with
  | [] => .ok ⟨r.here.reverse, r.depth, r.size⟩
  | p :: _ => .error (.opening p.offset)

end Reading

namespace Program

/-- Parses a text. -/
def parse (text : List Char) : Except Unmatched Program :=
  match ({} : Reading).text 0 text with
  | .ok r => r.program
  | .error e => .error e

end Program

end TapeLang
