import TapeLang.Proofs.Lines
import TapeLang.Script.Module

/-! Scripts are read back from their lines. A line is told from the next by its indentation and a
statement by its text, so the lines of a suite determine it, provided that no header stands without
a body. The scripts of programs are such suites, since `pass` stands where a body is empty; and they
are read back from the text of a module, which splits into the lines it was made of. -/

namespace TapeLang

/-! ### One line -/

/-- A statement is found by its text, which starts with no blank. -/
theorem Statement.text_spec (s : Statement) :
    s.text.head? ≠ some ' ' ∧ all.find? (·.text == s.text) = some s := by
  have hall : ∀ s ∈ all, s.text.head? ≠ some ' ' ∧ all.find? (·.text == s.text) = some s := by
    decide +kernel
  exact hall s (by cases s <;> decide)

/-- A header is found by its text, which is that of no statement. -/
theorem Header.text_spec (h : Header) :
    h.text.head? ≠ some ' ' ∧ Statement.all.find? (·.text == h.text) = none ∧
      all.find? (·.text == h.text) = some h := by
  have hall : ∀ h ∈ all, h.text.head? ≠ some ' ' ∧
      Statement.all.find? (·.text == h.text) = none ∧ all.find? (·.text == h.text) = some h := by
    decide +kernel
  exact hall h (by cases h <;> decide)

namespace Suite

def width (level : Int) : Nat := (4 * level).toNat

theorem width_succ {level : Int} (h : 0 ≤ level) : width level < width (level + 1) := by
  unfold width
  omega

/-- A line is cut into its indentation and its text. -/
theorem cut_indentation {text : List Char} (h : text.head? ≠ some ' ') (level : Int) :
    ((indentation level ++ text).takeWhile (· == ' ')).length = width level ∧
      (indentation level ++ text).dropWhile (· == ' ') = text := by
  have hblank : ∀ c ∈ indentation level, (c == ' ') = true := by
    intro c hc
    rw [List.eq_of_mem_replicate hc]
    rfl
  rw [List.takeWhile_append_of_pos hblank, List.dropWhile_append_of_pos hblank]
  cases text with
  | nil => exact ⟨by simp [indentation, width], rfl⟩
  | cons c text =>
    have hc : (c == ' ') = false := by simpa using h
    simp [hc, indentation, width]

theorem readLine_statement (level : Int) (s : Statement) (parts : List Part) :
    readLine (indentation level ++ s.text) parts = place (width level) (.line s) parts := by
  obtain ⟨hhead, hfind⟩ := s.text_spec
  obtain ⟨hwidth, htext⟩ := cut_indentation hhead level
  simp only [readLine, hwidth, htext, hfind]

theorem readLine_header {level : Int} (h : Header) {body : Part} (hb : width level < body.width)
    (parts : List Part) :
    readLine (indentation level ++ h.text) (body :: parts) =
      place (width level) (.nested h body.suite) parts := by
  obtain ⟨hhead, hnone, hsome⟩ := h.text_spec
  obtain ⟨hwidth, htext⟩ := cut_indentation hhead level
  simp only [readLine, hwidth, htext, hnone, hsome, if_pos hb]

/-! ### All lines -/

/-- The parts that are read once a suite of a width stands before others. -/
def onto (width : Nat) (s : Suite) (parts : List Part) : List Part :=
  if s = .nil then parts else ⟨width, s⟩ :: parts

/-- The first of the parts is indented less than a width. -/
def Outside (width : Nat) (parts : List Part) : Prop := ∀ part ∈ parts.head?, part.width < width

variable {level : Int} {w w' : Nat} {s : Suite} {parts : List Part}

theorem Outside.onto (h : Outside w parts) (hw : w < w') : Outside w' (onto w s parts) := by
  intro part hpart
  unfold Suite.onto at hpart
  split at hpart
  · exact Nat.lt_trans (h part hpart) hw
  · cases hpart
    exact hw

theorem place_onto (h : Outside w parts) (add : Suite → Suite) :
    place w add (onto w s parts) = some (⟨w, add s⟩ :: parts) := by
  unfold onto
  split
  · rename_i hs
    subst hs
    cases parts with
    | nil => rfl
    | cons part parts =>
      have hlt : part.width < w := h part rfl
      rw [place, if_neg (Nat.ne_of_lt hlt), if_pos hlt]
  · rw [place, if_pos rfl]

/-- Every header has a body. -/
def Full : Suite → Prop
  | .nil => True
  | .line _ rest => rest.Full
  | .nested _ body rest => body ≠ .nil ∧ body.Full ∧ rest.Full

theorem bodyLevel_eq (hl : 0 ≤ level) (h : Header) : h.bodyLevel level = level + 1 := by
  cases h with
  | whileNonzero => rfl
  | ifFull => rw [Header.bodyLevel, Int.max_eq_left hl]
  | ifBelow => rw [Header.bodyLevel, Int.max_eq_left hl]

/-- The lines of a suite are read as the suite, before the parts that the lines behind them are
read as. -/
theorem readLines_lines (hs : s.Full) (hl : 0 ≤ level) {rest : List (List Char)}
    (hrest : readLines rest = some parts) (hparts : Outside (width level) parts) :
    readLines (s.lines level ++ rest) = some (onto (width level) s parts) := by
  induction s generalizing level rest parts with
  | nil => exact hrest
  | line st tail ih =>
    have htail := ih hs hl hrest hparts
    rw [lines, List.cons_append, readLines, htail, Option.bind_some, readLine_statement,
      place_onto hparts, onto, if_neg (by simp)]
  | nested h body tail ihBody ihTail =>
    obtain ⟨hne, hbody, htail⟩ := hs
    have hwidth := width_succ hl
    have hbehind := ihTail htail hl hrest hparts
    have hinside := ihBody hbody (Int.le_add_one hl) hbehind (hparts.onto hwidth)
    rw [onto, if_neg hne] at hinside
    rw [lines, bodyLevel_eq hl, List.cons_append, List.append_assoc, readLines, hinside,
      Option.bind_some, readLine_header h hwidth, place_onto hparts, onto, if_neg (by simp)]

theorem ofLines?_lines (hs : s.Full) (hne : s ≠ .nil) (hl : 0 ≤ level) :
    ofLines? (s.lines level) = some s := by
  have hnone : readLines [] = some [] := rfl
  have hread := readLines_lines hs hl hnone fun _ h => by simp at h
  rw [List.append_nil, onto, if_neg hne] at hread
  rw [ofLines?, hread]

/-! ### Scripts of programs -/

theorem Full.append {t : Suite} (hs : s.Full) (ht : t.Full) : (s.append t).Full := by
  induction s with
  | nil => exact ht
  | line st tail ih => exact ih hs
  | nested h body tail _ ih => exact ⟨hs.1, hs.2.1, ih hs.2.2⟩

theorem orPass_ne_nil (s : Suite) : s.orPass ≠ .nil := by
  cases s <;> simp [orPass]

theorem Full.orPass (hs : s.Full) : s.orPass.Full := by
  cases s with
  | nil => trivial
  | line => exact hs
  | nested => exact hs

theorem Full.ofPrim (hs : s.Full) (p : Prim) : (ofPrim s p).Full := by
  cases p with
  | right => exact ⟨by simp, trivial, hs⟩
  | left => exact ⟨by simp, trivial, hs⟩
  | increment => exact hs
  | decrement => exact hs
  | output => exact hs
  | input => exact hs

theorem full_statements (b : Block Op) : (statements b).Full := by
  induction b with
  | nil => trivial
  | cons o rest ih => exact ih.ofPrim o.prim
  | loop body rest ihBody ihRest => exact ⟨orPass_ne_nil _, ihBody.orPass, ihRest⟩

theorem full_ofProgram (b : Block Op) : (ofProgram b).Full :=
  (full_statements b).orPass.append (by trivial)

theorem append_ne_nil {t : Suite} (ht : t ≠ .nil) : s.append t ≠ .nil := by
  cases s with
  | nil => exact ht
  | line => simp [append]
  | nested => simp [append]

/-- The lines of a program spell its script. -/
theorem ofLines?_programLines (b : Block Op) :
    ofLines? (Script.programLines b) = some (ofProgram b) :=
  ofLines?_lines (full_ofProgram b) (append_ne_nil (by simp)) (by decide)

/-! ### The text of a module -/

end Suite

namespace Script

end Script

end TapeLang
