import TapeLang.Symbol

/-! Blocks: sequences of instructions and loops. A parsed program is a block of instructions that
carry a delta; only whether a delta is positive has a meaning. -/

namespace TapeLang

/-- A sequence of instructions of type `α` and of loops, which hold blocks themselves. -/
inductive Block (α : Type) where
  | nil
  | cons (a : α) (rest : Block α)
  | loop (body rest : Block α)
deriving Repr, DecidableEq

namespace Block

variable {α β : Type}

/-- The number of instructions and loops, without what is inside the loops. -/
def length : Block α → Nat
  | .nil => 0
  | .cons _ rest => rest.length + 1
  | .loop _ rest => rest.length + 1

/-- How deep loops nest. -/
def depth : Block α → Nat
  | .nil => 0
  | .cons _ rest => rest.depth
  | .loop body rest => max (body.depth + 1) rest.depth

/-- Changes every instruction. -/
def map (f : α → β) : Block α → Block β
  | .nil => .nil
  | .cons a rest => .cons (f a) (rest.map f)
  | .loop body rest => .loop (body.map f) (rest.map f)

/-- The instructions and loops of a block in reverse order, followed by another block. The bodies
of the loops keep their order. -/
def reverseOnto : Block α → Block α → Block α
  | .nil, onto => onto
  | .cons a rest, onto => rest.reverseOnto (.cons a onto)
  | .loop body rest, onto => rest.reverseOnto (.loop body onto)

/-- The instructions and loops of a block in reverse order. -/
def reverse (b : Block α) : Block α := b.reverseOnto .nil

end Block

/-- An instruction of a parsed program. -/
inductive Op where
  | add (delta : Int)
  | move (delta : Int)
  | output
  | input
deriving Repr, DecidableEq

/-- What an instruction does: a positive delta goes up or right, any other down or left. -/
def Op.prim : Op → Prim
  | .add delta => if 0 < delta then .increment else .decrement
  | .move delta => if 0 < delta then .right else .left
  | .output => .output
  | .input => .input

/-- The instruction of a primitive, with delta 1 or -1. -/
def Prim.op : Prim → Op
  | .increment => .add 1
  | .decrement => .add (-1)
  | .right => .move 1
  | .left => .move (-1)
  | .output => .output
  | .input => .input

@[simp] theorem Prim.prim_op (p : Prim) : p.op.prim = p := by
  cases p <;> rfl

namespace Block

/-- The symbols of a block. -/
def symbols : Block Op → List Symbol
  | .nil => []
  | .cons o rest => .prim o.prim :: rest.symbols
  | .loop body rest => .opening :: (body.symbols ++ .closing :: rest.symbols)

/-- The text of a block: its symbols and nothing else. -/
def source (b : Block Op) : List Char := b.symbols.map Symbol.toChar

@[simp] theorem symbols_nil : symbols .nil = [] := rfl

@[simp] theorem symbols_cons (o : Op) (rest : Block Op) :
    symbols (.cons o rest) = .prim o.prim :: rest.symbols := rfl

@[simp] theorem symbols_loop (body rest : Block Op) :
    symbols (.loop body rest) = .opening :: (body.symbols ++ .closing :: rest.symbols) := rfl

/-- The symbols of the text of a block are those of the block. -/
theorem symbols_source (b : Block Op) : TapeLang.symbols b.source = b.symbols := by
  simp only [TapeLang.symbols, source, List.filterMap_map]
  have h : Symbol.ofChar? ∘ Symbol.toChar = some := funext Symbol.ofChar?_toChar
  rw [h, List.filterMap_some]

end Block

end TapeLang
