import TapeLang.Program
import TapeLang.Proofs.Spelling

/-! Parsing and printing are inverse. What a reading holds spells what it has read, so a parsed
block has the symbols of its text; and a reading that meets the text of a block ends with that
block, so the text of every block is parsed to it, each delta reduced to its sign. -/

namespace TapeLang

/-- An instruction with its delta reduced to 1 when it is positive, and to -1 otherwise. -/
def Op.unit : Op → Op
  | .add delta => .add (if 0 < delta then 1 else -1)
  | .move delta => .move (if 0 < delta then 1 else -1)
  | .output => .output
  | .input => .input

theorem Op.op_prim (o : Op) : o.prim.op = o.unit := by
  cases o with
  | add delta => by_cases h : 0 < delta <;> simp [prim, unit, Prim.op, h]
  | move delta => by_cases h : 0 < delta <;> simp [prim, unit, Prim.op, h]
  | output => rfl
  | input => rfl

theorem Op.prim_unit (o : Op) : o.unit.prim = o.prim := by
  rw [← op_prim, Prim.prim_op]

namespace Block

variable {α : Type}

/-! ### Deltas -/

theorem symbols_map_unit (b : Block Op) : (b.map Op.unit).symbols = b.symbols := by
  induction b with
  | nil => rfl
  | cons o rest ih => rw [map, symbols_cons, symbols_cons, Op.prim_unit, ih]
  | loop body rest ihBody ihRest => rw [map, symbols_loop, symbols_loop, ihBody, ihRest]

/-- The size of a delta does not matter to what a block does. -/
theorem map_prim_map_unit (b : Block Op) : (b.map Op.unit).map Op.prim = b.map Op.prim := by
  induction b with
  | nil => rfl
  | cons o rest ih => rw [map, map, map, Op.prim_unit, ih]
  | loop body rest ihBody ihRest => rw [map, map, map, ihBody, ihRest]

/-! ### Sizes -/

/-- The number of symbols of a block: one for an instruction, and two for a loop. -/
def weight : Block α → Nat
  | .nil => 0
  | .cons _ rest => rest.weight + 1
  | .loop body rest => body.weight + rest.weight + 2

theorem length_symbols (b : Block Op) : b.symbols.length = b.weight := by
  induction b with
  | nil => rfl
  | cons o rest ih => rw [symbols_cons, List.length_cons, ih, weight]
  | loop body rest ihBody ihRest =>
    rw [symbols_loop, List.length_cons, List.length_append, List.length_cons, ihBody, ihRest,
      weight]
    omega

theorem length_source (b : Block Op) : b.source.length = b.weight := by
  rw [source, List.length_map, length_symbols]

/-! ### Blocks in reverse order -/

theorem reverse_reverseOnto (a b : Block α) : (a.reverseOnto b).reverse = b.reverseOnto a := by
  induction a generalizing b with
  | nil => rfl
  | cons x rest ih => exact ih (.cons x b)
  | loop body rest _ ih => exact ih (.loop body b)

theorem symbols_reverseOnto (b onto : Block Op) :
    (b.reverseOnto onto).symbols = b.reverse.symbols ++ onto.symbols := by
  induction b generalizing onto with
  | nil => rfl
  | cons o rest ih =>
    rw [reverse, reverseOnto, reverseOnto, ih, ih]
    simp
  | loop body rest _ ih =>
    rw [reverse, reverseOnto, reverseOnto, ih, ih]
    simp

theorem symbols_reverse_cons (o : Op) (b : Block Op) :
    (cons o b).reverse.symbols = b.reverse.symbols ++ [.prim o.prim] := by
  rw [reverse, reverseOnto, symbols_reverseOnto]
  rfl

theorem symbols_reverse_loop (body b : Block Op) :
    (loop body b).reverse.symbols =
      b.reverse.symbols ++ .opening :: (body.symbols ++ [.closing]) := by
  rw [reverse, reverseOnto, symbols_reverseOnto]
  rfl

end Block

namespace Reading

/-! ### What a reading has read -/

/-- The symbols before and at the brackets of open loops, the innermost of which comes first. -/
def spelledBefore : List Pending → List Symbol
  | [] => []
  | p :: rest => spelledBefore rest ++ p.before.reverse.symbols ++ [.opening]

/-- The symbols that a reading holds, in the order of the text. -/
def spelled (r : Reading) : List Symbol := spelledBefore r.opened ++ r.here.reverse.symbols

/-- A symbol taken in is the next one that the reading holds. -/
theorem spelled_symbol {r r' : Reading} {offset : Nat} {s : Symbol}
    (h : r.symbol offset s = .ok r') : r'.spelled = r.spelled ++ [s] := by
  cases s with
  | prim p =>
    simp only [symbol, Except.ok.injEq] at h
    subst h
    rw [spelled, spelled, Block.symbols_reverse_cons, Prim.prim_op, List.append_assoc]
  | opening =>
    simp only [symbol, Except.ok.injEq] at h
    subst h
    simp [spelled, spelledBefore, Block.reverse, Block.reverseOnto]
  | closing =>
    cases ho : r.opened with
    | nil => simp [symbol, ho] at h
    | cons p rest =>
      simp only [symbol, ho, Except.ok.injEq] at h
      subst h
      simp only [spelled, ho, spelledBefore, Block.symbols_reverse_loop]
      simp

/-- A reading holds exactly the symbols of the text it went through. -/
theorem spelled_text {r r' : Reading} {offset : Nat} {t : List Char}
    (h : r.text offset t = .ok r') : r'.spelled = r.spelled ++ symbols t := by
  induction t generalizing r offset with
  | nil =>
    simp only [text, Except.ok.injEq] at h
    subst h
    simp [symbols]
  | cons c t ih =>
    cases hc : Symbol.ofChar? c with
    | none =>
      simp only [text, hc] at h
      rw [ih h, symbols_cons_inert hc]
    | some s =>
      cases hs : r.symbol offset s with
      | error e => simp [text, hc, hs] at h
      | ok r₁ =>
        simp only [text, hc, hs] at h
        rw [ih h, spelled_symbol hs, symbols_cons_symbol hc, List.append_assoc,
          List.singleton_append]

/-! ### Reading the text of a block -/

/-- A reading that has taken in a whole block. -/
def extend (r : Reading) (b : Block Op) : Reading where
  here := (b.map Op.unit).reverseOnto r.here
  opened := r.opened
  depth := max r.depth (r.opened.length + b.depth)
  size := r.size + b.weight

theorem text_inert {t : List Char} (h : symbols t = []) (r : Reading) (offset : Nat)
    (rest : List Char) : r.text offset (t ++ rest) = r.text (offset + t.length) rest := by
  induction t generalizing offset with
  | nil => rfl
  | cons c t ih =>
    have hc : Symbol.ofChar? c = none := inert_of_symbols_eq_nil h c (by simp)
    rw [symbols_cons_inert hc] at h
    simp only [List.cons_append, text, hc, List.length_cons]
    rw [ih h, Nat.add_right_comm, Nat.add_assoc]

theorem text_symbol {r r' : Reading} {offset : Nat} {s : Symbol} (h : r.symbol offset s = .ok r')
    (rest : List Char) : r.text offset (s.toChar :: rest) = r'.text (offset + 1) rest := by
  simp only [text, Symbol.ofChar?_toChar, h]

def openLoop (r : Reading) (offset : Nat) : Reading where
  here := .nil
  opened := ⟨offset, r.here⟩ :: r.opened
  depth := max r.depth (r.opened.length + 1)
  size := r.size + 1

def withLoop (r : Reading) (body : Block Op) : Reading where
  here := .loop (body.map Op.unit) r.here
  opened := r.opened
  depth := max r.depth (r.opened.length + 1 + body.depth)
  size := r.size + body.weight + 2

/-- A closing bracket ends the loop whose body has been read since its opening bracket. -/
theorem symbol_closing (r : Reading) (body : Block Op) (offset close : Nat) :
    ((r.openLoop offset).extend body).symbol close .closing = .ok (r.withLoop body) := by
  have hbody : ((body.map Op.unit).reverseOnto .nil).reverse = body.map Op.unit :=
    Block.reverse_reverseOnto _ _
  simp only [symbol, extend, openLoop, withLoop, hbody, List.length_cons, Except.ok.injEq,
    mk.injEq, true_and]
  omega

/-- A text that spells a block extends the reading by the block, whatever comes next. -/
theorem text_block {b : Block Op} {t : List Char} (ht : symbols t = b.symbols) {r : Reading}
    (hr : r.opened.length ≤ r.depth) (offset : Nat) (rest : List Char) :
    r.text offset (t ++ rest) = (r.extend b).text (offset + t.length) rest := by
  induction b generalizing t r offset rest with
  | nil =>
    rw [text_inert ht]
    simp only [extend, Block.map, Block.reverseOnto, Block.depth, Block.weight, Nat.add_zero]
    rw [Nat.max_eq_left hr]
  | cons o b ih =>
    obtain ⟨before, after, rfl, hbefore, hafter⟩ := exists_of_symbols_eq_cons ht
    rw [List.append_assoc, text_inert hbefore, List.cons_append, text_symbol rfl,
      ih hafter (r := { r with here := .cons o.prim.op r.here, size := r.size + 1 }) hr]
    congr 1
    · simp only [extend, Block.map, Block.reverseOnto, Block.depth, Block.weight, Op.op_prim]
      congr 1
      omega
    · simp only [List.length_append, List.length_cons]
      omega
  | loop body b ihBody ihRest =>
    obtain ⟨before, inside, rfl, hbefore, hinside⟩ := exists_of_symbols_eq_cons ht
    obtain ⟨inner, behind, rfl, hinner, hbehind⟩ := exists_of_symbols_eq_append hinside
    obtain ⟨gap, after, rfl, hgap, hafter⟩ := exists_of_symbols_eq_cons hbehind
    have hopen : ∀ o, r.symbol o .opening = .ok (r.openLoop o) := fun _ => rfl
    have hloop : (r.withLoop body).opened.length ≤ (r.withLoop body).depth :=
      Nat.le_trans hr (Nat.le_max_left _ _)
    rw [List.append_assoc, text_inert hbefore, List.cons_append, text_symbol (hopen _),
      List.append_assoc, ihBody hinner (Nat.le_max_right _ _), List.append_assoc, text_inert hgap,
      List.cons_append, text_symbol (symbol_closing r body _ _), ihRest hafter hloop]
    congr 1
    · simp only [extend, withLoop, Block.map, Block.reverseOnto, Block.depth, Block.weight,
        mk.injEq, true_and]
      omega
    · simp only [List.length_append, List.length_cons]
      omega

end Reading

namespace Program

/-- A text that spells a block is parsed to the block with its deltas reduced, and to the depth and
the size of the block. -/
theorem parse_of_symbols {t : List Char} {b : Block Op} (h : symbols t = b.symbols) :
    parse t = .ok ⟨b.map Op.unit, b.depth, b.weight⟩ := by
  have hread := Reading.text_block h (r := {}) (Nat.le_refl _) 0 []
  rw [List.append_nil] at hread
  have hrev : ((b.map Op.unit).reverseOnto .nil).reverse = b.map Op.unit :=
    Block.reverse_reverseOnto _ _
  rw [parse, hread]
  simp [Reading.text, Reading.extend, Reading.program, hrev]

theorem parse_source (b : Block Op) :
    parse b.source = .ok ⟨b.map Op.unit, b.depth, b.weight⟩ :=
  parse_of_symbols (Block.symbols_source b)

theorem symbols_of_parse {t : List Char} {p : Program} (h : parse t = .ok p) :
    symbols t = p.block.symbols := by
  unfold parse at h
  split at h
  · rename_i r hr
    have hspelled := Reading.spelled_text hr
    unfold Reading.program at h
    split at h
    · rename_i hopened
      rw [Except.ok.injEq] at h
      subst h
      rw [Reading.spelled, hopened] at hspelled
      exact hspelled.symm
    · contradiction
  · contradiction

/-- A parsed program is its own block with the deltas reduced, and its depth and size are those of
the block. -/
theorem eq_of_parse {t : List Char} {p : Program} (h : parse t = .ok p) :
    p = ⟨p.block.map Op.unit, p.block.depth, p.block.weight⟩ := by
  have hp := parse_of_symbols (symbols_of_parse h)
  exact Except.ok.inj (h.symm.trans hp)

theorem spelling_of_parse {t : List Char} {p : Program} (h : parse t = .ok p) :
    symbols t = (p.block.map Op.prim).spelling := by
  rw [Block.spelling_map_prim, symbols_of_parse h]

theorem depth_of_parse {t : List Char} {p : Program} (h : parse t = .ok p) :
    (p.block.map Op.prim).depth = p.depth := by
  rw [Block.depth_map]
  exact (congrArg Program.depth (eq_of_parse h)).symm

/-- Parsing and printing are inverse. The text of a parsed block is the parsed text without its
inert characters, and the text of any block is parsed to the block, with every delta reduced to its
sign; size and depth are those of the block. -/
theorem parse_source_inverse :
    (∀ (t : List Char) (p : Program), parse t = .ok p →
      p.block.source = t.filter (symbolChars.contains ·) ∧
        p.size = p.block.source.length ∧ p.size = p.block.weight ∧ p.depth = p.block.depth) ∧
    ∀ b : Block Op, parse b.source = .ok ⟨b.map Op.unit, b.depth, b.source.length⟩ := by
  refine ⟨fun t p h => ?_, fun b => ?_⟩
  · have hp := eq_of_parse h
    have hsize : p.size = p.block.weight := congrArg Program.size hp
    have hsource : p.block.source = t.filter (symbolChars.contains ·) := by
      rw [Block.source, ← symbols_of_parse h, map_toChar_symbols]
    exact ⟨hsource, hsize.trans (Block.length_source _).symm, hsize, congrArg Program.depth hp⟩
  · rw [parse_of_symbols (Block.symbols_source b), Block.length_source]

/-- A text with inert characters and nested loops, and a block with large deltas. -/
theorem parse_source_inverse_nested :
    (∃ p, parse "a+[b[-]>].".toList = .ok p ∧ p.block.source = "+[[-]>].".toList ∧ p.depth = 2 ∧
      p.size = 8) ∧
    parse (Block.cons (.add 7) (.loop (.cons (.move (-3)) .nil) .nil)).source =
      .ok ⟨.cons (.add 1) (.loop (.cons (.move (-1)) .nil) .nil), 1, 4⟩ := by
  have h : parse "a+[b[-]>].".toList = .ok ⟨.cons (.add 1) (.loop (.loop (.cons (.add (-1)) .nil)
      (.cons (.move 1) .nil)) (.cons .output .nil)), 2, 8⟩ := rfl
  have hp := parse_source_inverse.1 _ _ h
  exact ⟨⟨_, h, hp.1.trans (by decide), by decide, by decide⟩, parse_source_inverse.2 _⟩

end Program

end TapeLang
