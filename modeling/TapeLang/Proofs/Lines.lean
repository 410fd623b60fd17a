import TapeLang.Excerpt

/-! Texts cut into lines. A text is some whole lines, each with its line feed, and a piece of a
further line; the places in it and what it splits into are read off that shape. -/

namespace TapeLang

open List (splitOn)

/-- Lines with a line feed behind each. -/
def ended (lines : List (List Char)) : List Char := lines.flatMap (· ++ ['\n'])

section Lines

variable {before : List (List Char)} {left rest text : List Char}

@[simp] theorem ended_nil : ended [] = [] := rfl

@[simp] theorem ended_cons (line : List Char) (lines : List (List Char)) :
    ended (line :: lines) = line ++ '\n' :: ended lines := by
  simp [ended]

theorem ended_append (lines lines' : List (List Char)) :
    ended (lines ++ lines') = ended lines ++ ended lines' := List.flatMap_append

theorem count_ended (hb : ∀ line ∈ before, '\n' ∉ line) :
    (ended before).count '\n' = before.length := by
  induction before with
  | nil => rfl
  | cons line lines ih =>
    have hline := hb line List.mem_cons_self
    rw [ended_cons, List.count_append, List.count_cons_self, List.count_eq_zero_of_not_mem hline,
      ih fun l hl => hb l (List.mem_cons_of_mem _ hl), List.length_cons, Nat.zero_add]

/-- A text is some whole lines and a piece of a further one. -/
theorem exists_ended (text : List Char) : ∃ before left,
    text = ended before ++ left ∧ (∀ line ∈ before, '\n' ∉ line) ∧ '\n' ∉ left := by
  induction text with
  | nil => exact ⟨[], [], rfl, by simp, by simp⟩
  | cons c text ih =>
    -- A line feed begins a line of its own; any other character joins the first line there is.
    obtain ⟨before, left, rfl, hb, hl⟩ := ih
    by_cases hc : c = '\n'
    · subst hc
      exact ⟨[] :: before, left, rfl, by simpa using hb, hl⟩
    · cases before with
      | nil => exact ⟨[], c :: left, rfl, hb, by simp [Ne.symm hc, hl]⟩
      | cons line lines =>
        refine ⟨(c :: line) :: lines, left, rfl, ?_, hl⟩
        intro l hmem
        rcases List.mem_cons.mp hmem with rfl | hmem
        · simp [Ne.symm hc, hb line List.mem_cons_self]
        · exact hb l (List.mem_cons_of_mem _ hmem)

theorem splitOn_ended (hb : ∀ line ∈ before, '\n' ∉ line) (rest : List Char) :
    splitOn '\n' (ended before ++ rest) = before ++ splitOn '\n' rest := by
  induction before with
  | nil => rfl
  | cons line lines ih =>
    rw [ended_cons, List.append_assoc, List.cons_append,
      List.splitOn_append_cons_self_of_not_mem (hb line List.mem_cons_self),
      ih fun l hl => hb l (List.mem_cons_of_mem _ hl), List.cons_append]

theorem splitOn_append_of_not_mem (hl : '\n' ∉ left) (rest : List Char) :
    splitOn '\n' (left ++ rest) = (splitOn '\n' rest).modifyHead (left ++ ·) := by
  obtain ⟨line, lines, h⟩ := List.exists_cons_of_ne_nil (List.splitOn_ne_nil '\n' rest)
  rw [h, List.modifyHead_cons]
  induction left with
  | nil => exact h
  | cons c left ih =>
    rw [List.mem_cons, not_or] at hl
    have hne : (c == '\n') = false := by simpa using Ne.symm hl.1
    rw [List.cons_append, List.splitOn_cons_eq_if_modifyHead, hne, ih hl.2]
    rfl

theorem newline_not_mem_of_mem_splitOn {line : List Char} (h : line ∈ splitOn '\n' text) :
    '\n' ∉ line := by
  obtain ⟨before, left, rfl, hb, hl⟩ := exists_ended text
  rw [splitOn_ended hb, List.splitOn_eq_singleton hl, List.mem_append, List.mem_singleton] at h
  rcases h with h | rfl
  · exact hb line h
  · exact hl

theorem takeWhile_reverse_ended (hl : '\n' ∉ left) :
    (ended before ++ left).reverse.takeWhile (· != '\n') = left.reverse := by
  have hleft : ∀ c ∈ left.reverse, (c != '\n') = true := by
    intro c hc
    rw [bne_iff_ne]
    rintro rfl
    exact hl (List.mem_reverse.mp hc)
  rw [List.reverse_append, List.takeWhile_append_of_pos hleft]
  rcases List.eq_nil_or_concat before with rfl | ⟨lines, line, rfl⟩
  · exact List.append_nil _
  · rw [List.concat_eq_append, ended_append]
    simp

theorem locate_ended (hb : ∀ line ∈ before, '\n' ∉ line) (hl : '\n' ∉ left) (rest : List Char) :
    locate (ended before ++ left ++ rest) (ended before ++ left).length =
      (before.length + 1, left.length + 1) := by
  simp only [locate, List.take_left', takeWhile_reverse_ended hl, List.count_append,
    count_ended hb, List.count_eq_zero_of_not_mem hl, List.length_reverse, List.length_append]
  congr 1
  omega

/-- The place of an offset is read off the lines that the text before it splits into. -/
theorem locate_eq {offset : Nat} (h : offset ≤ text.length) :
    locate text offset = ((splitOn '\n' (text.take offset)).length,
      ((splitOn '\n' (text.take offset)).getLastD []).length + 1) := by
  obtain ⟨before, left, hsplit, hb, hl⟩ := exists_ended (text.take offset)
  have hlines : splitOn '\n' (text.take offset) = before ++ [left] := by
    rw [hsplit, splitOn_ended hb, List.splitOn_eq_singleton hl]
  have hoffset : (ended before ++ left).length = offset := by
    rw [← hsplit, List.length_take_of_le h]
  have hplace := locate_ended hb hl (text.drop offset)
  rw [hoffset, ← hsplit, List.take_append_drop] at hplace
  simp [hplace, hlines]

theorem newline_not_mem_toDigits (n : Nat) : '\n' ∉ Nat.toDigits 10 n := by
  intro hmem
  have hdigit := Nat.isDigit_of_mem_toDigits (by decide) (by decide) hmem
  contradiction

end Lines

end TapeLang
