import TapeLang.Proofs.Parsing
import TapeLang.Proofs.ScriptLayout

/-! The lines of a block. The check behind a move has a body of its own, an empty body is a `pass`,
and behind a loop the lines may come back by several levels at once; still only a header is followed
by a deeper line, and that line is one level deeper. So the statements are found again from the
indentation, and from the statements the block, whose deltas are known up to their sign. -/

namespace TapeLang

namespace Block

/-- Two blocks have the same text when they differ in the size of deltas alone. -/
theorem map_unit_eq_iff (b b' : Block Op) :
    b.map Op.unit = b'.map Op.unit ↔ b.source = b'.source := by
  constructor
  · intro h
    rw [source, source, ← symbols_map_unit b, h, symbols_map_unit]
  · -- Both are what the one text is parsed to.
    intro h
    have hb := Program.parse_source b
    rw [h, Program.parse_source b'] at hb
    exact (congrArg Program.block (Except.ok.inj hb)).symm

end Block

/-! ### Levels -/

/-- A statement has a text, which does not end like that of a header. -/
theorem Statement.text_ending (s : Statement) : s.text ≠ [] ∧ s.text.getLast? ≠ some ':' := by
  have hall : ∀ s ∈ all, s.text ≠ [] ∧ s.text.getLast? ≠ some ':' := by decide +kernel
  exact hall s (by cases s <;> decide)

theorem Header.text_ending (h : Header) : h.text ≠ [] ∧ h.text.getLast? = some ':' := by
  have hall : ∀ h ∈ all, h.text ≠ [] ∧ h.text.getLast? = some ':' := by decide +kernel
  exact hall h (by cases h <;> decide)

namespace Suite

variable {level : Int} {s : Suite} {lines rest : List (List Char)} {line text : List Char}

/-- The blanks before the text of a line. -/
def blanks (line : List Char) : Nat := (line.takeWhile (· == ' ')).length

theorem width_add_one (hl : 0 ≤ level) : width (level + 1) = width level + 4 := by
  unfold width
  omega

theorem getLast?_indented (ht : text ≠ []) (level : Int) :
    (indentation level ++ text).getLast? = text.getLast? := by
  rw [List.getLast?_append, List.getLast?_eq_some_getLast ht, Option.some_or]

theorem blanks_statement (level : Int) (st : Statement) :
    blanks (indentation level ++ st.text) = width level :=
  (cut_indentation st.text_spec.1 level).1

theorem blanks_header (level : Int) (h : Header) :
    blanks (indentation level ++ h.text) = width level :=
  (cut_indentation h.text_spec.1 level).1

theorem exists_lines_eq_cons (hs : s ≠ .nil) (level : Int) :
    ∃ first others, s.lines level = first :: others ∧ blanks first = width level := by
  cases s with
  | nil => contradiction
  | line st tail => exact ⟨_, _, rfl, blanks_statement level st⟩
  | nested h body tail => exact ⟨_, _, rfl, blanks_header level h⟩

/-- A line with a text, on a level or a deeper one. -/
def OnLevel (level : Int) (line : List Char) : Prop :=
  line.dropWhile (· == ' ') ≠ [] ∧ ∃ k : Nat, level ≤ k ∧ blanks line = 4 * k

theorem onLevel_indented (hhead : text.head? ≠ some ' ') (ht : text ≠ []) (hl : 0 ≤ level) :
    OnLevel level (indentation level ++ text) := by
  obtain ⟨hwidth, htext⟩ := cut_indentation hhead level
  refine ⟨by rw [htext]; exact ht, level.toNat, by omega, hwidth.trans ?_⟩
  unfold width
  omega

theorem OnLevel.outward (h : OnLevel (level + 1) line) : OnLevel level line := by
  obtain ⟨htext, k, hk, hblanks⟩ := h
  exact ⟨htext, k, by omega, hblanks⟩

theorem onLevel_lines (hl : 0 ≤ level) : ∀ line ∈ s.lines level, OnLevel level line := by
  induction s generalizing level with
  | nil =>
    intro line hline
    contradiction
  | line st tail ih =>
    rw [Suite.lines, List.forall_mem_cons]
    exact ⟨onLevel_indented st.text_spec.1 st.text_ending.1 hl, ih hl⟩
  | nested h body tail ihBody ihTail =>
    rw [Suite.lines, bodyLevel_eq hl, List.forall_mem_cons, List.forall_mem_append]
    refine ⟨onLevel_indented h.text_spec.1 h.text_ending.1 hl, fun line hline => ?_, ihTail hl⟩
    exact (ihBody (Int.le_add_one hl) line hline).outward

/-! ### From one line to the next -/

/-- A line that ends with a colon is followed by one that is a level deeper, and any other by none
that is deeper. -/
def Descends : List (List Char) → Prop
  | [] => True
  | line :: rest =>
    (line.getLast? = some ':' → ∃ next ∈ rest.head?, blanks next = blanks line + 4) ∧
      (line.getLast? ≠ some ':' → ∀ next ∈ rest.head?, blanks next ≤ blanks line) ∧
      Descends rest

theorem head?_lines_append (hrest : ∀ next ∈ rest.head?, blanks next ≤ width level) :
    ∀ next ∈ (s.lines level ++ rest).head?, blanks next ≤ width level := by
  by_cases hs : s = .nil
  · rw [hs]
    exact hrest
  · obtain ⟨first, others, heq, hfirst⟩ := exists_lines_eq_cons hs level
    rw [heq]
    rintro next ⟨⟩
    exact Nat.le_of_eq hfirst

theorem descends_lines (hs : s.Full) (hl : 0 ≤ level) (hdesc : Descends rest)
    (hrest : ∀ next ∈ rest.head?, blanks next ≤ width level) :
    Descends (s.lines level ++ rest) := by
  -- Behind a body stand the lines of the outer suites, so `rest` is arbitrary; it must not be
  -- deeper than the suite, or the last line of the suite would be followed by a deeper one.
  induction s generalizing level rest with
  | nil => exact hdesc
  | line st tail ih =>
    obtain ⟨htext, hlast⟩ := st.text_ending
    rw [← getLast?_indented htext level] at hlast
    refine ⟨fun hcolon => absurd hcolon hlast, fun _ => ?_, ih hs hl hdesc hrest⟩
    rw [blanks_statement]
    exact head?_lines_append hrest
  | nested h body tail ihBody ihTail =>
    obtain ⟨hne, hbody, htail⟩ := hs
    obtain ⟨htext, hlast⟩ := h.text_ending
    rw [← getLast?_indented htext level] at hlast
    have hwidth := width_add_one hl
    have hbehind : ∀ next ∈ (tail.lines level ++ rest).head?, blanks next ≤ width (level + 1) := by
      intro next hnext
      have := head?_lines_append hrest next hnext
      omega
    rw [Suite.lines, bodyLevel_eq hl, List.cons_append, List.append_assoc]
    refine ⟨fun _ => ?_, fun hcolon => absurd hlast hcolon,
      ihBody hbody (Int.le_add_one hl) (ihTail htail hl hdesc hrest) hbehind⟩
    obtain ⟨first, others, heq, hfirst⟩ := exists_lines_eq_cons hne (level + 1)
    rw [heq, blanks_header, ← hwidth]
    exact ⟨first, rfl, hfirst⟩

theorem Descends.at {i : Nat} (h : Descends lines) (hi : lines[i]? = some line) :
    (line.getLast? = some ':' →
      ∃ next, lines[i + 1]? = some next ∧ blanks next = blanks line + 4) ∧
    (line.getLast? ≠ some ':' → ∀ next, lines[i + 1]? = some next → blanks next ≤ blanks line) := by
  induction lines generalizing i with
  | nil => contradiction
  | cons first rest ih =>
    cases i with
    | zero =>
      cases hi
      rw [List.getElem?_cons_succ, ← List.head?_eq_getElem?]
      exact ⟨h.1, h.2.1⟩
    | succ i => exact ih h.2.2 hi

/-- Lines that are laid out at a level. There are lines, the first is on the level, each of them has
a text and is on the level or a deeper one, and just those that end with a colon are followed by
deeper ones, namely by one that is a level deeper. -/
structure LaidOut (level : Nat) (lines : List (List Char)) : Prop where
  nonempty : lines ≠ []
  first : ∀ line, lines.head? = some line → blanks line = 4 * level
  each : ∀ line ∈ lines, line.dropWhile (· == ' ') ≠ [] ∧ ∃ k, level ≤ k ∧ blanks line = 4 * k
  header : ∀ i line, lines[i]? = some line → line.getLast? = some ':' →
    ∃ next, lines[i + 1]? = some next ∧ blanks next = blanks line + 4
  other : ∀ i line next, lines[i]? = some line → line.getLast? ≠ some ':' →
    lines[i + 1]? = some next → blanks next ≤ blanks line

theorem laidOut_lines (hs : s.Full) (hne : s ≠ .nil) (level : Nat) :
    LaidOut level (s.lines level) := by
  have hl : (0 : Int) ≤ level := Int.natCast_nonneg level
  have hdesc : Descends (s.lines level) := by
    rw [← List.append_nil (s.lines level)]
    have hnil : Descends [] := trivial
    apply descends_lines hs hl hnil
    intro next hnext
    contradiction
  obtain ⟨first, others, heq, hfirst⟩ := exists_lines_eq_cons hne level
  constructor
  · rw [heq]
    exact List.cons_ne_nil _ _
  · rw [heq]
    rintro line ⟨⟩
    rw [hfirst]
    unfold width
    omega
  · intro line hline
    obtain ⟨htext, k, hk, hblanks⟩ := onLevel_lines hl line hline
    exact ⟨htext, k, Int.ofNat_le.mp hk, hblanks⟩
  · intro i line hi
    exact (hdesc.at hi).1
  · intro i line next hi hlast
    exact (hdesc.at hi).2 hlast next

/-! ### Reading a block back -/

/-- The block whose statements a suite consists of. A move is known by the check behind it, and a
`pass` stands for an empty block. -/
def block? : Suite → Option (Block Op)
  | .nil | .line .pass .nil => some .nil
  | .line .increment rest => rest.block?.map (.cons (.add 1))
  | .line .decrement rest => rest.block?.map (.cons (.add (-1)))
  | .line .right (.nested .ifFull (.line .flush (.line .raise .nil)) rest) =>
    rest.block?.map (.cons (.move 1))
  | .line .left (.nested .ifBelow (.line .flush (.line .giveBack .nil)) rest) =>
    rest.block?.map (.cons (.move (-1)))
  | .line .write rest => rest.block?.map (.cons .output)
  | .line .read rest => rest.block?.map (.cons .input)
  | .nested .whileNonzero body rest => body.block?.bind fun b => rest.block?.map (.loop b)
  | _ => none

/-- The block whose lines these are, by their indentation and then by their statements. -/
def readBlock? (lines : List (List Char)) : Option (Block Op) := (ofLines? lines).bind block?

theorem block?_ofPrim (s : Suite) (p : Prim) : (ofPrim s p).block? = s.block?.map (.cons p.op) := by
  cases p <;> rfl

theorem block?_orPass (s : Suite) : s.orPass.block? = s.block? := by
  cases s <;> rfl

theorem block?_statements (b : Block Op) : (statements b).block? = some (b.map Op.unit) := by
  induction b with
  | nil => rfl
  | cons o rest ih =>
    rw [statements, block?_ofPrim, ih, Op.op_prim]
    rfl
  | loop body rest ihBody ihRest =>
    rw [statements, block?, block?_orPass, ihBody, ihRest]
    rfl

theorem readBlock?_lines (b : Block Op) (hl : 0 ≤ level) :
    readBlock? ((ofBlock b).lines level) = some (b.map Op.unit) := by
  have hread : ofLines? ((ofBlock b).lines level) = some (ofBlock b) :=
    ofLines?_lines (full_statements b).orPass (orPass_ne_nil _) hl
  rw [readBlock?, hread, Option.bind_some, ofBlock, block?_orPass, block?_statements]

theorem statements_map_unit (b : Block Op) : statements (b.map Op.unit) = statements b := by
  induction b with
  | nil => rfl
  | cons o rest ih => rw [Block.map, statements, statements, Op.prim_unit, ih]
  | loop body rest ihBody ihRest => rw [Block.map, statements, statements, ihBody, ihRest]

theorem ofBlock_map_unit (b : Block Op) : ofBlock (b.map Op.unit) = ofBlock b := by
  rw [ofBlock, ofBlock, statements_map_unit]

theorem lines_eq_iff (b b' : Block Op) (hl : 0 ≤ level) :
    (ofBlock b).lines level = (ofBlock b').lines level ↔ b.source = b'.source := by
  rw [← Block.map_unit_eq_iff]
  constructor
  · intro h
    have hb := readBlock?_lines b hl
    rw [h, readBlock?_lines b' hl] at hb
    exact (Option.some.inj hb).symm
  · intro h
    rw [← ofBlock_map_unit b, h, ofBlock_map_unit]

theorem blockLines_eq {memory : Memory} {level : Nat} (hindex : (4 * level : Int) ≤ largestIndex)
    (hmemory : memory.refusesText (4 * level) = false) (b : Block Op) :
    blockLines memory level b = .ok ((ofBlock b).lines level) := by
  have hlevel : isIndex level = true := by
    simp only [isIndex, Bool.and_eq_true, decide_eq_true_eq]
    unfold largestIndex at *
    omega
  have hlong : ¬ largestIndex < ((4 : Nat) : Int) * level := Int.not_lt.mpr hindex
  have hwidth : (((4 : Nat) : Int) * level).toNat = 4 * level := by omega
  have hfault : repeatFault? memory 4 level = none := by
    simp only [repeatFault?, hlevel, hlong, hwidth, hmemory, Bool.not_true, Bool.and_false,
      Bool.false_eq_true, if_false]
  rw [blockLines, hfault]

/-- The lines of a block are well laid out and lose nothing of it: they are read back as the block
with each delta reduced to its sign. They are written at every level whose indentation can be. -/
theorem block_lines_determine (b : Block Op) (level : Nat) :
    (∀ memory : Memory, (4 * level : Int) ≤ largestIndex →
      memory.refusesText (4 * level) = false →
      blockLines memory level b = .ok ((ofBlock b).lines level)) ∧
    LaidOut level ((ofBlock b).lines level) ∧
    readBlock? ((ofBlock b).lines level) = some (b.map Op.unit) ∧
    ∀ b' : Block Op,
      (ofBlock b).lines level = (ofBlock b').lines level ↔ b.source = b'.source := by
  have hl : (0 : Int) ≤ level := Int.natCast_nonneg level
  refine ⟨fun memory hindex hmemory => blockLines_eq hindex hmemory b, ?_, readBlock?_lines b hl,
    fun b' => lines_eq_iff b b' hl⟩
  exact laidOut_lines (full_statements b).orPass (orPass_ne_nil _) level

/-- A block with large deltas, an empty loop, and a dedent by two levels. -/
theorem block_lines_determine_nested :
    blockLines (.below 5) 1
        (.loop (.loop .nil .nil) (.cons (.move 5) (.cons (.add 0) .nil))) =
      .ok (["    while tape[pos]:", "        while tape[pos]:", "            pass", "    pos += 1",
        "    if pos >= TAPE_CAPACITY:", "        writer.flush()",
        "        raise make_overflow_error(position=pos, capacity=TAPE_CAPACITY)",
        "    tape[pos] = (int(tape[pos]) - 1) & 0xFF"].map String.toList) ∧
    readBlock? ((ofBlock (.loop (.loop .nil .nil) (.cons (.move 5) (.cons (.add 0) .nil)))).lines
      (1 : Nat)) = some (.loop (.loop .nil .nil) (.cons (.move 1) (.cons (.add (-1)) .nil))) := by
  obtain ⟨hwritten, -, hread, -⟩ :=
    block_lines_determine (.loop (.loop .nil .nil) (.cons (.move 5) (.cons (.add 0) .nil))) 1
  have hlines : (ofBlock (.loop (.loop .nil .nil)
      (.cons (.move 5) (.cons (.add 0) .nil)))).lines (1 : Nat) =
      ["    while tape[pos]:", "        while tape[pos]:", "            pass", "    pos += 1",
        "    if pos >= TAPE_CAPACITY:", "        writer.flush()",
        "        raise make_overflow_error(position=pos, capacity=TAPE_CAPACITY)",
        "    tape[pos] = (int(tape[pos]) - 1) & 0xFF"].map String.toList := by decide +kernel
  exact ⟨(hwritten (.below 5) (by decide) rfl).trans (congrArg Except.ok hlines), hread⟩

end Suite

end TapeLang
