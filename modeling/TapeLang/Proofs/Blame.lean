import TapeLang.Prepared
import TapeLang.Proofs.Brackets
import TapeLang.Proofs.Lines

/-! Which texts are parsed, and which bracket is blamed for the others. A reading has as many loops
open as the text so far is high, so it meets a closing bracket with none open at the first prefix
whose height is negative. When that does not happen, what is open at the end are the opening
brackets without partner, and the innermost of them is the last one. -/

namespace TapeLang

/-- The brackets at `i` and `q` are partners: what stands between them is balanced. -/
def Partners (text : List Char) (i q : Nat) : Prop :=
  i < q ∧ text[i]? = some '[' ∧ text[q]? = some ']' ∧ Balanced ((text.take q).drop (i + 1))

/-- At `i` stands an opening bracket without partner. -/
def Unclosed (text : List Char) (i : Nat) : Prop :=
  text[i]? = some '[' ∧ ∀ q, ¬ Partners text i q

/-- The rightmost opening bracket without partner stands at `p`. -/
def LastUnclosed (text : List Char) (p : Nat) : Prop :=
  Unclosed text p ∧ ∀ i, Unclosed text i → i ≤ p

variable {t a last : List Char} {i : Nat}

/-! ### Opening brackets without partner -/

theorem shallow_length (t : List Char) : Shallow t.length t := by
  intro n
  have hcount := List.count_le_length (a := '[') (l := t.take n)
  have hlen := List.length_take_le' n t
  unfold height
  omega

theorem balanced_iff_count : Balanced t ↔
    (∀ n, (t.take n).count ']' ≤ (t.take n).count '[') ∧ t.count '[' = t.count ']' := by
  unfold Balanced ClosingsMatched height
  refine and_congr (forall_congr' fun n => ?_) ?_ <;> omega

theorem split_at {c : Char} (h : t[i]? = some c) : t = t.take i ++ c :: t.drop (i + 1) := by
  obtain ⟨hlt, rfl⟩ := List.getElem?_eq_some_iff.mp h
  rw [← List.drop_eq_getElem_cons, List.take_append_drop]

/-- A text with an unmatched closing bracket is balanced up to the first one. -/
theorem exists_unmatched_closing (h : ¬ ClosingsMatched t) :
    ∃ a b, t = a ++ ']' :: b ∧ Balanced a := by
  obtain ⟨p, hp⟩ := exists_firstUnmatched h
  obtain ⟨hclose, hbalanced⟩ := hp.spec
  exact ⟨_, _, split_at hclose, hbalanced⟩

theorem firstUnmatched_of_balanced (ha : Balanced a) (b : List Char) :
    FirstUnmatched (a ++ ']' :: b) a.length := by
  constructor
  · rw [List.take_length_add_append, List.take_succ_cons, List.take_zero, height_append, ha.2,
      height_closing, height_nil]
    decide
  · intro n hn
    rw [List.take_append_of_le_length hn]
    exact ha.1 n

/-- The partner of a bracket is where what stands behind it first closes more than it opens. -/
theorem partners_iff {d : Nat} (h : t[i]? = some '[') :
    Partners t i (i + 1 + d) ↔ FirstUnmatched (t.drop (i + 1)) d := by
  constructor
  · rintro ⟨hlt, -, hclose, hbetween⟩
    have hlen : i + 1 + d < t.length := (List.getElem?_eq_some_iff.mp hclose).1
    have htake : (t.take (i + 1 + d)).length = i + 1 + d :=
      List.length_take_of_le (Nat.le_of_lt hlen)
    have hbehind : t.drop (i + 1) =
        (t.take (i + 1 + d)).drop (i + 1) ++ ']' :: t.drop (i + 1 + d + 1) := by
      conv_lhs => rw [split_at hclose]
      rw [List.drop_append_of_le_length (by omega)]
    have hfirst := firstUnmatched_of_balanced hbetween (t.drop (i + 1 + d + 1))
    rwa [← hbehind, List.length_drop, htake, Nat.add_sub_cancel_left] at hfirst
  · intro hd
    obtain ⟨hclose, hbalanced⟩ := hd.spec
    refine ⟨by omega, h, ?_, ?_⟩
    · rw [← List.getElem?_drop]
      exact hclose
    · rw [List.drop_take, Nat.add_sub_cancel_left]
      exact hbalanced

theorem exists_partner_iff (h : t[i]? = some '[') :
    (∃ q, Partners t i q) ↔ ¬ ClosingsMatched (t.drop (i + 1)) := by
  constructor
  · rintro ⟨q, hq⟩
    obtain ⟨d, rfl⟩ := Nat.exists_eq_add_of_le hq.1
    exact ((partners_iff h).mp hq).not_closingsMatched
  · intro hnot
    obtain ⟨d, hd⟩ := exists_firstUnmatched hnot
    exact ⟨i + 1 + d, (partners_iff h).mpr hd⟩

theorem unclosed_iff : Unclosed t i ↔ t[i]? = some '[' ∧ ClosingsMatched (t.drop (i + 1)) := by
  refine and_congr_right fun hopen => ?_
  rw [← not_exists, exists_partner_iff hopen, not_not]

/-- Before a balanced rest of the text, an opening bracket is the last one without partner: one in
the rest would leave the rest with a positive height. -/
theorem lastUnclosed_of_balanced (h : Balanced last) :
    LastUnclosed (a ++ '[' :: last) a.length := by
  refine ⟨unclosed_iff.mpr ⟨?_, ?_⟩, fun i hi => Nat.le_of_not_lt fun hlt => ?_⟩
  · rw [List.getElem?_append_right (Nat.le_refl _), Nat.sub_self]
    rfl
  · rw [List.drop_length_add_append, List.drop_succ_cons, List.drop_zero]
    exact h.1
  · obtain ⟨j, rfl⟩ := Nat.exists_eq_add_of_le hlt
    rw [Nat.succ_add, ← Nat.add_succ] at hi
    obtain ⟨hopen, hbehind⟩ := unclosed_iff.mp hi
    rw [List.getElem?_append_right (Nat.le_add_right _ _), Nat.add_sub_cancel_left,
      List.getElem?_cons_succ] at hopen
    rw [Nat.add_assoc, List.drop_length_add_append, List.drop_succ_cons] at hbehind
    have hheight := h.2
    have hbefore := h.1 j
    have hrest := hbehind (last.drop (j + 1)).length
    rw [List.take_length] at hrest
    rw [split_at hopen, height_append, height_opening] at hheight
    omega

/-- A text that only leaves loops open ends with a balanced piece behind an opening bracket. -/
theorem exists_last_piece (h : ClosingsMatched t) (hnot : ¬ Balanced t) :
    ∃ a last, t = a ++ '[' :: last ∧ ClosingsMatched a ∧ Balanced last := by
  obtain ⟨first, rest, rfl, hb⟩ := exists_split h
  rcases List.eq_nil_or_concat rest with rfl | ⟨init, last, rfl⟩
  · rw [List.flatMap_nil, List.append_nil] at hnot
    exact absurd (hb first List.mem_cons_self) hnot
  · rw [List.concat_eq_append] at h hb ⊢
    have hcut : first ++ (init ++ [last]).flatMap ('[' :: ·) =
        (first ++ init.flatMap ('[' :: ·)) ++ '[' :: last := by
      simp
    refine ⟨_, last, hcut, ?_, hb last (by simp)⟩
    rw [hcut] at h
    exact h.left

/-! ### Readings -/

namespace Reading

theorem text_append {r r' : Reading} {offset : Nat} (h : r.text offset a = .ok r')
    (b : List Char) : r.text offset (a ++ b) = r'.text (offset + a.length) b := by
  induction a generalizing r offset with
  | nil =>
    cases h
    rfl
  | cons c a ih =>
    rw [List.length_cons, ← Nat.add_assoc, Nat.add_right_comm]
    cases hc : Symbol.ofChar? c with
    | none =>
      simp only [text, hc, List.cons_append] at h ⊢
      exact ih h
    | some s =>
      cases hs : r.symbol offset s with
      | error e => simp [text, hc, hs] at h
      | ok r₁ =>
        simp only [text, hc, hs, List.cons_append] at h ⊢
        exact ih h

/-- A text without unmatched closing bracket is taken in, and as many loops are open behind it as
it is high. -/
theorem text_of_closingsMatched (h : ClosingsMatched t) :
    ∃ r, ({} : Reading).text 0 t = .ok r ∧ (r.opened.length : Int) = height t := by
  obtain ⟨r, hr, hopened, -⟩ := text_of_height (r := {}) 0 0 fun n => by
    have := h n
    simpa using this
  exact ⟨r, hr, by simpa using hopened⟩

/-- Behind a balanced text no loop is open, so that a closing bracket there is blamed. -/
theorem text_of_closing (ha : Balanced a) (b : List Char) :
    ({} : Reading).text 0 (a ++ ']' :: b) = .error (.closing a.length) := by
  obtain ⟨r, hr, hopened⟩ := text_of_closingsMatched ha.1
  rw [ha.2] at hopened
  have hnone : r.opened = [] := List.eq_nil_of_length_eq_zero (Int.ofNat.inj hopened)
  have hchar : Symbol.ofChar? ']' = some .closing := rfl
  rw [text_append hr, Nat.zero_add]
  simp only [text, hchar, symbol, hnone]

theorem closingsMatched_of_text {r : Reading} (h : ({} : Reading).text 0 t = .ok r) :
    ClosingsMatched t := by
  apply Decidable.byContradiction
  intro hnot
  obtain ⟨a, b, rfl, ha⟩ := exists_unmatched_closing hnot
  rw [text_of_closing ha b] at h
  contradiction

/-- What is open behind a balanced piece was open before it. -/
theorem text_of_balanced {r : Reading} (h : Balanced last) (hr : r.opened.length ≤ r.depth)
    (offset : Nat) : ∃ r', r.text offset last = .ok r' ∧ r'.opened = r.opened := by
  obtain ⟨p, hp, -⟩ := h.parse (shallow_length last)
  have hread := text_block (Program.symbols_of_parse hp) hr offset []
  rw [List.append_nil] at hread
  exact ⟨_, hread, rfl⟩

/-- The last piece of a text is read inside the loop whose bracket stands before it. -/
theorem text_of_open (ha : ClosingsMatched a) (hlast : Balanced last) :
    ∃ r before rest, ({} : Reading).text 0 (a ++ '[' :: last) = .ok r ∧
      r.opened = ⟨a.length, before⟩ :: rest := by
  obtain ⟨r, hr, -⟩ := text_of_closingsMatched ha
  have hopen : r.text a.length ('[' :: last) = (r.openLoop a.length).text (a.length + 1) last :=
    text_symbol (s := .opening) rfl last
  obtain ⟨r', hr', hopened⟩ := text_of_balanced (r := r.openLoop a.length) hlast
    (Nat.le_max_right _ _) (a.length + 1)
  refine ⟨r', r.here, r.opened, ?_, hopened⟩
  rw [text_append hr, Nat.zero_add, hopen, hr']

end Reading

/-! ### Reports -/

/-- A report says a message about the place of an offset, then the excerpt, then some advice. -/
structure Located.Says (text : List Char) (offset : Nat) (message advice : String)
    (report : Located) : Prop where
  line_eq : report.line = ((text.take offset).splitOn '\n').length
  column_eq : report.column = (((text.take offset).splitOn '\n').getLastD []).length + 1
  message_eq : report.message =
    "ParseError: " ++ message ++ " (line " ++ toString report.line ++ ", column " ++
      toString report.column ++ ")\n" ++ report.excerpt ++ "\nHint: " ++ advice

theorem Located.ofOffset_eq {text : List Char} {offset L K : Nat}
    (h : locate text offset = (L, K)) (message : String) :
    ofOffset message text offset = ofPlace message text L K := by
  simp only [ofOffset, h]

theorem Located.message_ofPlace {message advice : String} (h : hint message = some advice)
    (source : List Char) (line : Nat) (column : Int) :
    (ofPlace message source line column).message =
      "ParseError: " ++ message ++ " (line " ++ toString line ++ ", column " ++ toString column ++
        ")\n" ++ (ofPlace message source line column).excerpt ++ "\nHint: " ++ advice := by
  have hblock : hintBlock message = "\nHint: " ++ advice := by rw [hintBlock, h]
  dsimp only [ofPlace]
  rw [hblock, ← String.append_assoc]

theorem Located.says_ofOffset {text : List Char} {offset : Nat} {message advice : String}
    (hoffset : offset ≤ text.length) (hhint : hint message = some advice) :
    (ofOffset message text offset).Says text offset message advice := by
  rw [ofOffset_eq (locate_eq hoffset)]
  exact ⟨rfl, Int.natCast_succ _, message_ofPlace hhint _ _ _⟩

namespace Program

theorem parse_of_closing (ha : Balanced a) (b : List Char) :
    parse (a ++ ']' :: b) = .error (.closing a.length) := by
  rw [parse, Reading.text_of_closing ha b]

theorem parse_of_open (ha : ClosingsMatched a) (hlast : Balanced last) :
    parse (a ++ '[' :: last) = .error (.opening a.length) := by
  obtain ⟨r, before, rest, hr, hopened⟩ := Reading.text_of_open ha hlast
  simp only [parse, hr, Reading.program, hopened]

theorem balanced_of_parse {program : Program} (h : parse t = .ok program) : Balanced t := by
  apply Decidable.byContradiction
  intro hnot
  by_cases hclosings : ClosingsMatched t
  · obtain ⟨a, last, rfl, ha, hlast⟩ := exists_last_piece hclosings hnot
    rw [parse_of_open ha hlast] at h
    contradiction
  · obtain ⟨a, b, rfl, ha⟩ := exists_unmatched_closing hclosings
    rw [parse_of_closing ha b] at h
    contradiction

theorem ofText_ok_iff : (∃ program, ofText t = .ok program) ↔ Balanced t := by
  constructor
  · rintro ⟨program, hp⟩
    unfold ofText at hp
    split at hp
    · rename_i hparse
      exact balanced_of_parse hparse
    · contradiction
  · intro hb
    obtain ⟨program, hp, -⟩ := hb.parse (shallow_length t)
    exact ⟨program, by rw [ofText, hp]⟩

/-- Parsing accepts the balanced texts and reports on a bracket of every other: the closing one that
ends the shortest prefix with more closing than opening brackets or, where there is none, the
rightmost opening one without a partner. -/
theorem parse_balanced_or_blame (text : List Char) :
    ((∃ program, ofText text = .ok program) ↔
      (∀ n, (text.take n).count ']' ≤ (text.take n).count '[') ∧
        text.count '[' = text.count ']') ∧
    (∀ n r, ({} : Reading).text 0 (text.take n) = .ok r →
      r.opened.length + (text.take n).count ']' = (text.take n).count '[') ∧
    (¬ ClosingsMatched text → ∃ p report, FirstUnmatched text p ∧
      parse text = .error (.closing p) ∧ ofText text = .error (.unmatched report) ∧
      report = .ofOffset "Unmatched ']'" text p ∧
      report.Says text p "Unmatched ']'"
        "This \"]\" has no opening \"[\" before it. The interpreter would stop here silently.") ∧
    (ClosingsMatched text → ¬ Balanced text →
      ∃ p report, LastUnclosed text p ∧
        parse text = .error (.opening p) ∧ ofText text = .error (.unmatched report) ∧
        report = .ofOffset "Unmatched '['" text p ∧
        report.Says text p "Unmatched '['"
          "Every \"[\" needs a closing \"]\" later in the program.") := by
  refine ⟨ofText_ok_iff.trans balanced_iff_count, fun n r hr => ?_, fun hnot => ?_,
    fun hclosings hnot => ?_⟩
  · obtain ⟨r', hr', hopened⟩ :=
      Reading.text_of_closingsMatched (Reading.closingsMatched_of_text hr)
    cases hr.symm.trans hr'
    unfold height at hopened
    omega
  · obtain ⟨a, b, rfl, ha⟩ := exists_unmatched_closing hnot
    have hparse := parse_of_closing ha b
    exact ⟨a.length, _, firstUnmatched_of_balanced ha b, hparse, by rw [ofText, hparse]; rfl, rfl,
      Located.says_ofOffset (by simp) (by decide)⟩
  · obtain ⟨a, last, rfl, ha, hlast⟩ := exists_last_piece hclosings hnot
    have hparse := parse_of_open ha hlast
    exact ⟨a.length, _, lastUnclosed_of_balanced hlast, hparse, by rw [ofText, hparse]; rfl, rfl,
      Located.says_ofOffset (by simp) (by decide)⟩

/-- A bracket that closes nothing, and two that are left open around a loop. -/
theorem parse_balanced_or_blame_both :
    (∃ p, FirstUnmatched "[-]+][".toList p ∧ parse "[-]+][".toList = .error (.closing p)) ∧
    ∃ p, LastUnclosed "[[-]+[".toList p ∧ parse "[[-]+[".toList = .error (.opening p) := by
  constructor
  · obtain ⟨p, -, hp, hparse, -⟩ :=
      (parse_balanced_or_blame "[-]+][".toList).2.2.1 (by decide)
    exact ⟨p, hp, hparse⟩
  · obtain ⟨p, -, hp, hparse, -⟩ :=
      (parse_balanced_or_blame "[[-]+[".toList).2.2.2 (by decide) (by decide)
    exact ⟨p, hp, hparse⟩

end Program

end TapeLang
