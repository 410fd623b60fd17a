import Mathlib.Algebra.GroupWithZero.Nat
import TapeLang.Proofs.Blame

/-! Where a report on an unmatched bracket points. The line and the column are counted on the text
before the bracket, and the excerpt shows the lines that the text is split into; both agree since
the text before the bracket is the earlier lines, each with its line feed, and a piece of the line
of the bracket. The caret stands as many blanks to the right as the column says, behind a gutter of
fixed width, while the gutter of a line grows with its number. -/

namespace TapeLang

open List (splitOn)

/-! ### Excerpts -/

namespace Excerpt

/-- What stands before a line of an excerpt: the angle of the marked line, the number with blanks in
front up to four digits, and a bar. -/
def gutter (marked : Bool) (number : Nat) : List Char :=
  (if marked then '>' else ' ') :: ' ' :: (toString number).toList.leftpad 4 ' ' ++ " | ".toList

/-- The line with the caret for column `K`. -/
def caretLine (K : Nat) : List Char :=
  List.replicate 7 ' ' ++ "| ".toList ++ List.replicate (K - 1) ' ' ++ ['^']

/-- The lines that an excerpt has for line `i` of a text: the line itself, and the caret below the
line of the place, which is line `L`. -/
def rows (lines : List (List Char)) (L K i : Nat) : List (List Char) :=
  (gutter (i = L) i ++ lines.getD (i - 1) []) :: if i = L then [caretLine K] else []

theorem numbered_eq (marked : Bool) (number : Nat) (line : List Char) :
    numbered marked number line = gutter marked number ++ line := rfl

theorem marker_eq (K : Nat) : marker K = caretLine K := by
  rw [marker, show ((K : Int) - 1).toNat = K - 1 by omega]
  rfl

theorem length_gutter (marked : Bool) (number : Nat) :
    (gutter marked number).length = max 4 (Nat.toDigits 10 number).length + 5 := by
  show (_ :: _ :: ((toString number).toList.leftpad 4 ' ' ++ " | ".toList)).length = _
  rw [List.length_cons, List.length_cons, List.length_append, List.length_leftpad]
  exact congrArg (fun digits => max 4 (List.length digits) + 5) Nat.toList_repr

/-- The gutter is as wide as that of the caret just when the number has at most four digits. -/
theorem length_gutter_eq_iff (marked : Bool) {number : Nat} :
    (gutter marked number).length = 9 ↔ number < 10000 := by
  have hdigits : (Nat.toDigits 10 number).length ≤ 4 ↔ number < 10000 :=
    Nat.length_toDigits_le_iff (by decide) (by decide)
  rw [length_gutter, ← hdigits]
  omega

theorem idxOf_caretLine (K : Nat) : (caretLine K).idxOf '^' = 9 + (K - 1) := by
  have hblanks : '^' ∉ List.replicate 7 ' ' ++ "| ".toList ++ List.replicate (K - 1) ' ' := by simp
  rw [caretLine, List.idxOf_append, if_neg hblanks]
  simp
  omega

theorem newline_not_mem_gutter (marked : Bool) (number : Nat) : '\n' ∉ gutter marked number := by
  cases marked <;> simp [gutter, List.leftpad, newline_not_mem_toDigits]

theorem zipIdx_eq_map (lines : List (List Char)) :
    lines.zipIdx 1 = (List.range' 1 lines.length).map fun i => (lines.getD (i - 1) [], i) := by
  apply List.ext_getElem
  · simp
  · intro i hi hi'
    have hlt : i < lines.length := by simpa using hi
    simp [List.getD, hlt, Nat.add_comm]

theorem range'_eq_append {first last n : Nat} (hfirst : 1 ≤ first) (hle : first ≤ last + 1)
    (hlast : last ≤ n) :
    List.range' 1 n = List.range' 1 (first - 1) ++
      (List.range' first (last + 1 - first) ++ List.range' (last + 1) (n - last)) := by
  have hback := List.range'_append_1 (s := first) (m := last + 1 - first) (n := n - last)
  rw [show first + (last + 1 - first) = last + 1 by omega] at hback
  have hfront := List.range'_append_1 (s := 1) (m := first - 1) (n := n + 1 - first)
  rw [show 1 + (first - 1) = first by omega,
    show first - 1 + (n + 1 - first) = n by omega] at hfront
  rw [hback, show last + 1 - first + (n - last) = n + 1 - first by omega, hfront]

theorem flatMap_range'_eq {α : Type} {first last n : Nat} (f : Nat → List α) (hfirst : 1 ≤ first)
    (hle : first ≤ last + 1) (hlast : last ≤ n) :
    ((List.range' 1 n).flatMap fun i => if first ≤ i ∧ i ≤ last then f i else []) =
      (List.range' first (last + 1 - first)).flatMap f := by
  -- Of the three parts of the range, only the middle one is chosen.
  have hbefore : ∀ i ∈ List.range' 1 (first - 1),
      (if first ≤ i ∧ i ≤ last then f i else []) = [] := by
    intro i hi
    rw [List.mem_range'_1] at hi
    exact if_neg (by omega)
  have hafter : ∀ i ∈ List.range' (last + 1) (n - last),
      (if first ≤ i ∧ i ≤ last then f i else []) = [] := by
    intro i hi
    rw [List.mem_range'_1] at hi
    exact if_neg (by omega)
  rw [range'_eq_append hfirst hle hlast, List.flatMap_append, List.flatMap_append,
    List.flatMap_eq_nil_iff.mpr hbefore, List.flatMap_eq_nil_iff.mpr hafter, List.nil_append,
    List.append_nil]
  simp only [List.flatMap_def]
  congr 1
  apply List.map_congr_left
  intro i hi
  rw [List.mem_range'_1] at hi
  exact if_pos (by omega)

/-- The numbers of the lines that are shown around line `L` of `n`. -/
def numbers (n L : Nat) : List Nat :=
  List.range' (max 1 (L - 2)) (min n (L + 2) + 1 - max 1 (L - 2))

theorem lines_eq {lines : List (List Char)} {L : Nat} (hpos : 1 ≤ L) (hle : L ≤ lines.length)
    (K : Nat) : Excerpt.lines lines L K Located.context =
      (numbers lines.length L).flatMap (rows lines L K) := by
  rw [numbers, ← flatMap_range'_eq (n := lines.length) _ (by omega) (by omega) (by omega),
    Excerpt.lines, zipIdx_eq_map, List.flatMap_map]
  congr 1
  funext i
  have hcentre : max 1 (L : Int) = L := by omega
  have hmarked : decide ((i : Int) = L) = decide (i = L) := decide_eq_decide.mpr Int.natCast_inj
  have hshown : (max 1 ((L : Int) - Located.context) ≤ i ∧
      (i : Int) ≤ min (lines.length : Int) (L + Located.context)) ↔
        max 1 (L - 2) ≤ i ∧ i ≤ min lines.length (L + 2) := by
    unfold Located.context
    omega
  simp only [hcentre, hshown, hmarked, numbered_eq, marker_eq, rows, decide_eq_true_eq]

theorem numbers_eq {n L : Nat} (hpos : 1 ≤ L) (hle : L ≤ n) :
    numbers n L = List.range' (max 1 (L - 2)) (L - max 1 (L - 2)) ++
      L :: List.range' (L + 1) (min n (L + 2) - L) := by
  have hstart : max 1 (L - 2) + (L - max 1 (L - 2)) = L := by omega
  have hcount : min n (L + 2) + 1 - max 1 (L - 2) =
      (L - max 1 (L - 2)) + (min n (L + 2) - L + 1) := by omega
  rw [numbers, hcount, ← List.range'_append_1, hstart, List.range'_succ]

theorem newline_not_mem_rows {lines : List (List Char)} (hlines : ∀ line ∈ lines, '\n' ∉ line)
    {L K i : Nat} {row : List Char} (h : row ∈ rows lines L K i) : '\n' ∉ row := by
  have hline : '\n' ∉ lines.getD (i - 1) [] := by
    rw [List.getD]
    cases hget : lines[i - 1]? with
    | none => simp
    | some line => exact hlines line (List.mem_of_getElem? hget)
  rcases List.mem_cons.mp h with rfl | h
  · rw [List.mem_append, not_or]
    exact ⟨newline_not_mem_gutter _ _, hline⟩
  · split at h
    · rw [List.mem_singleton] at h
      subst h
      simp [caretLine]
    · contradiction

theorem splitOn_render {text : List Char} {L : Nat} (hpos : 1 ≤ L)
    (hle : L ≤ (splitOn '\n' text).length) (K : Nat) :
    splitOn '\n' (render (splitOn '\n' text) L K Located.context) =
      (numbers (splitOn '\n' text).length L).flatMap (rows (splitOn '\n' text) L K) := by
  rw [render, lines_eq hpos hle]
  apply List.splitOn_intercalate
  · intro row hrow
    obtain ⟨i, -, hrow⟩ := List.mem_flatMap.mp hrow
    exact newline_not_mem_rows (fun _ => newline_not_mem_of_mem_splitOn) hrow
  · rw [numbers_eq hpos hle]
    simp [rows]

end Excerpt

/-! ### Reports on brackets -/

def Unmatched.bracket : Unmatched → Char
  | .opening _ => '['
  | .closing _ => ']'

theorem Program.exists_split_of_error {text : List Char} {e : Unmatched}
    (h : parse text = .error e) : ∃ a b, text = a ++ e.bracket :: b ∧ e.offset = a.length := by
  by_cases hclosings : ClosingsMatched text
  · have hnot : ¬ Balanced text := by
      intro hb
      obtain ⟨p, hp, -⟩ := hb.parse (shallow_length text)
      rw [hp] at h
      contradiction
    obtain ⟨a, last, rfl, ha, hlast⟩ := exists_last_piece hclosings hnot
    rw [parse_of_open ha hlast] at h
    cases h
    exact ⟨a, last, rfl, rfl⟩
  · obtain ⟨a, b, rfl, ha⟩ := exists_unmatched_closing hclosings
    rw [parse_of_closing ha b] at h
    cases h
    exact ⟨a, b, rfl, rfl⟩

/-- A report on the bracket `c` at an offset of a text, in column `K` of its line. -/
structure Located.PointsTo (text : List Char) (offset : Nat) (c : Char) (K : Nat)
    (report : Located) : Prop where
  column_eq : report.column = K
  line_pos : 1 ≤ report.line
  line_le : report.line ≤ (splitOn '\n' text).length
  column_pos : 1 ≤ K
  column_le : K ≤ ((splitOn '\n' text).getD (report.line - 1) []).length
  char_eq : ((splitOn '\n' text).getD (report.line - 1) [])[K - 1]? = some c
  bracket_eq : text[offset]? = some c
  offset_eq : offset =
    (((splitOn '\n' text).take (report.line - 1)).map fun line => line.length + 1).sum + K - 1
  excerpt_eq : splitOn '\n' report.excerpt.toList =
    (Excerpt.numbers (splitOn '\n' text).length report.line).flatMap
      (Excerpt.rows (splitOn '\n' text) report.line K)

theorem Located.PointsTo.exists_rows {text : List Char} {offset K : Nat} {c : Char}
    {report : Located} (h : report.PointsTo text offset c K) : ∃ above below,
      splitOn '\n' report.excerpt.toList =
        above ++ (Excerpt.gutter true report.line ++
          (splitOn '\n' text).getD (report.line - 1) []) :: Excerpt.caretLine K :: below := by
  have hrows := h.excerpt_eq
  rw [Excerpt.numbers_eq h.line_pos h.line_le, List.flatMap_append, List.flatMap_cons] at hrows
  simp only [Excerpt.rows, decide_true, if_pos, List.cons_append, List.nil_append] at hrows
  exact ⟨_, _, hrows⟩

theorem length_ended (lines : List (List Char)) :
    (ended lines).length = (lines.map fun line => line.length + 1).sum := by
  simp [ended, List.length_flatMap]

theorem Located.pointsTo_ofOffset {a : List Char} {c : Char} (hc : c ≠ '\n') (message : String)
    (b : List Char) :
    ∃ K, (ofOffset message (a ++ c :: b) a.length).PointsTo (a ++ c :: b) a.length c K := by
  obtain ⟨before, left, ha, hb, hl⟩ := exists_ended a
  -- The line of the bracket goes on behind it up to the next line feed.
  obtain ⟨right, behind, hright⟩ := List.exists_cons_of_ne_nil (List.splitOn_ne_nil '\n' b)
  have hlines : splitOn '\n' (a ++ c :: b) = before ++ (left ++ c :: right) :: behind := by
    have hpiece : '\n' ∉ left ++ [c] := by simp [hl, Ne.symm hc]
    rw [ha, List.append_assoc, splitOn_ended hb, ← List.singleton_append (l := b),
      ← List.append_assoc, splitOn_append_of_not_mem hpiece, hright, List.modifyHead_cons,
      List.append_assoc, List.singleton_append]
  have hline : (splitOn '\n' (a ++ c :: b)).getD before.length [] = left ++ c :: right := by
    rw [hlines]
    simp
  have hcount : before.length + 1 ≤ (splitOn '\n' (a ++ c :: b)).length := by
    rw [hlines]
    simp
  have hplace : locate (a ++ c :: b) a.length = (before.length + 1, left.length + 1) := by
    rw [ha]
    exact locate_ended hb hl _
  refine ⟨left.length + 1, ?_⟩
  rw [ofOffset_eq hplace]
  exact {
    column_eq := rfl
    line_pos := Nat.le_add_left 1 _
    line_le := hcount
    column_pos := Nat.le_add_left 1 _
    column_le := by
      show _ ≤ ((splitOn '\n' (a ++ c :: b)).getD before.length []).length
      rw [hline]
      simp
    char_eq := by
      show ((splitOn '\n' (a ++ c :: b)).getD before.length [])[left.length]? = some c
      rw [hline]
      simp
    bracket_eq := by simp
    offset_eq := by
      show a.length = (((splitOn '\n' (a ++ c :: b)).take before.length).map _).sum + _ - 1
      rw [hlines, List.take_left' rfl, ← length_ended, ha, List.length_append]
      rfl
    excerpt_eq := by
      show splitOn '\n' (String.ofList _).toList = _
      rw [String.toList_ofList]
      exact Excerpt.splitOn_render (Nat.le_add_left 1 _) hcount _ }

namespace Program

variable {text : List Char} {e : Unmatched}

theorem ofText_of_error (h : parse text = .error e) :
    ofText text = .error (.unmatched (.ofOffset e.message text e.offset)) := by
  rw [ofText, h]
  rfl

theorem exists_pointsTo (h : parse text = .error e) :
    ∃ K, (Located.ofOffset e.message text e.offset).PointsTo text e.offset e.bracket K := by
  obtain ⟨a, b, rfl, hoffset⟩ := exists_split_of_error h
  have hc : e.bracket ≠ '\n' := by cases e <;> simp [Unmatched.bracket]
  rw [hoffset]
  exact Located.pointsTo_ofOffset hc e.message b

/-- A report on an unmatched bracket points at the bracket: its line and column are those of the
bracket, and its excerpt is the lines around that line, each with its number, with a caret below. -/
theorem report_points_to_bracket (h : parse text = .error e) :
    ∃ report K, ofText text = .error (.unmatched report) ∧
      report.PointsTo text e.offset e.bracket K := by
  obtain ⟨K, hK⟩ := exists_pointsTo h
  exact ⟨_, K, ofText_of_error h, hK⟩

/-- A bracket behind empty lines, near both ends of its text. -/
theorem report_points_to_bracket_last :
    parse "\n\n+[".toList = .error (.opening 3) ∧
    ∃ report K, ofText "\n\n+[".toList = .error (.unmatched report) ∧
      report.PointsTo "\n\n+[".toList 3 '[' K := by
  have hparse : parse "\n\n+[".toList = .error (.opening 3) := by decide
  exact ⟨hparse, report_points_to_bracket hparse⟩

/-- The caret of a report stands under the bracket just when the number of the line has at most four
digits. -/
theorem caret_under_bracket_iff (h : parse text = .error e) :
    ∃ report above mark below, ∃ K : Nat, ofText text = .error (.unmatched report) ∧
      report.column = K ∧
      splitOn '\n' report.excerpt.toList =
        above ++ (Excerpt.gutter true report.line ++
          (splitOn '\n' text).getD (report.line - 1) []) :: mark :: below ∧
      ((splitOn '\n' text).getD (report.line - 1) [])[K - 1]? = some e.bracket ∧
      '^' ∈ mark ∧
      (mark.idxOf '^' = (Excerpt.gutter true report.line).length + (K - 1) ↔
        report.line < 10000) := by
  obtain ⟨K, hpoints⟩ := exists_pointsTo h
  obtain ⟨above, below, hrows⟩ := hpoints.exists_rows
  refine ⟨_, above, Excerpt.caretLine K, below, K, ofText_of_error h, hpoints.column_eq, hrows,
    hpoints.char_eq, by simp [Excerpt.caretLine], ?_⟩
  rw [Excerpt.idxOf_caretLine, Nat.add_right_cancel_iff, ← Excerpt.length_gutter_eq_iff true]
  exact eq_comm

/-- A bracket in the third column of a line with a one-digit number. -/
theorem caret_under_bracket_iff_short :
    parse "+\n++]".toList = .error (.closing 4) ∧
    ∃ report above mark below, ∃ K : Nat,
      ofText "+\n++]".toList = .error (.unmatched report) ∧ report.column = K ∧
      splitOn '\n' report.excerpt.toList =
        above ++ (Excerpt.gutter true report.line ++
          (splitOn '\n' "+\n++]".toList).getD (report.line - 1) []) :: mark :: below ∧
      mark.idxOf '^' = (Excerpt.gutter true report.line).length + (K - 1) := by
  have hparse : parse "+\n++]".toList = .error (.closing 4) := by decide
  obtain ⟨report, above, mark, below, K, hreport, hK, hrows, -, -, hiff⟩ :=
    caret_under_bracket_iff hparse
  have hline : report.line = 2 := by
    cases hreport.symm.trans (ofText_of_error hparse)
    decide
  exact ⟨hparse, report, above, mark, below, K, hreport, hK, hrows, hiff.mpr (by omega)⟩

/-- The excerpt of a closing bracket behind some line feeds. -/
theorem exists_report_behind_newlines (n : Nat) :
    ∃ report, ofText (List.replicate (n + 2) '\n' ++ [']']) = .error (.unmatched report) ∧
      splitOn '\n' report.excerpt.toList =
        [Excerpt.gutter false (n + 1), Excerpt.gutter false (n + 2),
          Excerpt.gutter true (n + 3) ++ [']'], Excerpt.caretLine 1] := by
  have hended : List.replicate (n + 2) '\n' = ended (List.replicate (n + 2) []) := by
    simp [ended, List.flatMap_replicate]
  have hempty : ∀ line ∈ List.replicate (n + 2) ([] : List Char), '\n' ∉ line := by
    intro line hline
    rw [List.eq_of_mem_replicate hline]
    exact List.not_mem_nil
  have hbalanced : Balanced (List.replicate (n + 2) '\n') := by
    rw [balanced_iff_count]
    simp [List.take_replicate, List.count_replicate]
  have hlines : splitOn '\n' (List.replicate (n + 2) '\n' ++ [']']) =
      List.replicate (n + 2) [] ++ [[']']] := by
    rw [hended, splitOn_ended hempty]
    rfl
  have hplace : locate (List.replicate (n + 2) '\n' ++ [']']) (n + 2) = (n + 3, 1) := by
    have hplace := @locate_ended _ [] hempty List.not_mem_nil [']']
    rwa [List.append_nil, ← hended, List.length_replicate, List.length_replicate] at hplace
  have hnumbers : Excerpt.numbers (n + 3) (n + 3) = [n + 1, n + 2, n + 3] := by
    simp [Excerpt.numbers, List.range'_succ]
  have habove : ∀ i < n + 2, Excerpt.rows (List.replicate (n + 2) [] ++ [[']']]) (n + 3) 1 (i + 1) =
      [Excerpt.gutter false (i + 1)] := by
    intro i hi
    have hne : ¬ i + 1 = n + 3 := by omega
    have hblank : (List.replicate (n + 2) [] ++ [[']']]).getD i [] = [] := by
      rw [List.getD, List.getElem?_append_left (by simpa using hi),
        List.getElem?_replicate_of_lt hi, Option.getD_some]
    rw [Excerpt.rows, Nat.add_sub_cancel, hblank, if_neg hne, List.append_nil,
      decide_eq_false hne]
  have hmarked : Excerpt.rows (List.replicate (n + 2) [] ++ [[']']]) (n + 3) 1 (n + 3) =
      [Excerpt.gutter true (n + 3) ++ [']'], Excerpt.caretLine 1] := by
    simp [Excerpt.rows]
  have hparse := parse_of_closing hbalanced []
  rw [List.length_replicate] at hparse
  refine ⟨_, ofText_of_error hparse, ?_⟩
  rw [show Unmatched.offset (.closing (n + 2)) = n + 2 from rfl, Located.ofOffset_eq hplace]
  show splitOn '\n' (String.ofList _).toList = _
  rw [String.toList_ofList, Excerpt.splitOn_render (by omega) (by rw [hlines]; simp), hlines,
    List.length_append, List.length_replicate, List.length_singleton, hnumbers,
    List.flatMap_cons, List.flatMap_cons, List.flatMap_cons, habove n (by omega),
    habove (n + 1) (by omega), hmarked]
  rfl

/-- Behind 9999 line feeds the caret stands one place to the left of the bracket. -/
theorem caret_beside_bracket :
    ∃ report, ofText (List.replicate 9999 '\n' ++ [']']) = .error (.unmatched report) ∧
      splitOn '\n' report.excerpt.toList =
        ["  9998 | ".toList, "  9999 | ".toList, "> 10000 | ]".toList, "       | ^".toList] ∧
      "> 10000 | ]".toList.idxOf ']' = 10 ∧ "       | ^".toList.idxOf '^' = 9 := by
  obtain ⟨report, hreport, hrows⟩ := exists_report_behind_newlines 9997
  refine ⟨report, hreport, hrows.trans ?_, by decide, by decide⟩
  decide

end Program

end TapeLang
