import Mathlib.Data.List.DropRight
import Mathlib.Data.List.Forall2
import Mathlib.Data.Nat.Digits.Defs
import TapeLang.Settings

/-! Which texts spell an integer, and how the capacity variable is read. A numeral is a sign and
digits between blanks; the digits may be of several scripts and start with zeros. A text spells an
integer when it is a numeral of it with underscores put in anywhere. Reading takes out the
underscores, the blanks and the sign, and so arrives at the digits and at the number that they
write: nothing else is read, and no text is read as another number. -/

namespace TapeLang

namespace Text

/-- A character is the digit `d` of some script. -/
def IsDigit (c : Char) (d : Nat) : Prop := d < 10 ∧ ∃ first ∈ zeros, c.toNat = first + d

/-- Digits write a number: they are its decimal digits, of any scripts, behind any number of
zeros. -/
structure Writes (digits : List Char) (n : Nat) : Prop where
  nonempty : digits ≠ []
  limited : digits.length ≤ digitLimit
  values : ∃ k, List.Forall₂ IsDigit digits (List.replicate k 0 ++ (Nat.digits 10 n).reverse)

/-- The signs that may stand before an integer; before zero it may be either. -/
def SignOf (n : Int) (sign : List Char) : Prop :=
  sign = ['-'] ∧ n ≤ 0 ∨ sign = ['+'] ∧ 0 ≤ n ∨ sign = [] ∧ 0 ≤ n

/-- A text is an integer in decimal, with its sign, between blanks. -/
def Numeral (text : List Char) (n : Int) : Prop :=
  ∃ before sign digits behind, text = before ++ (sign ++ digits) ++ behind ∧
    (∀ c ∈ before, isNumberBlank c = true) ∧ SignOf n sign ∧ Writes digits n.natAbs ∧
    ∀ c ∈ behind, isNumberBlank c = true

/-- A text is another one with underscores put in, at any places. -/
inductive Underscored : List Char → List Char → Prop
  | nil : Underscored [] []
  | keep {plain text : List Char} (c : Char) :
      Underscored plain text → Underscored (c :: plain) (c :: text)
  | insert {plain text : List Char} :
      Underscored plain text → Underscored plain ('_' :: text)

/-- A text spells an integer. -/
def Spells (text : List Char) (n : Int) : Prop := ∃ plain, Numeral plain n ∧ Underscored plain text

variable {c : Char} {d n : Nat} {text plain digits : List Char} {values : List Nat}

/-! ### Digits -/

theorem zeros_apart : ∀ a ∈ zeros, ∀ b ∈ zeros, a < b → a + 10 ≤ b := by decide +kernel

theorem digitValue?_eq_some_iff : digitValue? c = some d ↔ IsDigit c d := by
  unfold digitValue?
  rw [Option.map_eq_some_iff]
  constructor
  · rintro ⟨first, hfind, rfl⟩
    have hrange := List.find?_some hfind
    simp only [Bool.and_eq_true, decide_eq_true_eq] at hrange
    exact ⟨by omega, first, List.mem_of_find?_eq_some hfind, by omega⟩
  · rintro ⟨hd, first, hfirst, hc⟩
    cases hfind : zeros.find? fun first => first ≤ c.toNat && c.toNat < first + 10 with
    | none =>
      have hnot := List.find?_eq_none.mp hfind first hfirst
      simp only [Bool.and_eq_true, decide_eq_true_eq] at hnot
      omega
    | some found =>
      -- Scripts do not overlap, so the one that is found is the one that is meant.
      have hrange := List.find?_some hfind
      simp only [Bool.and_eq_true, decide_eq_true_eq] at hrange
      have hfound := List.mem_of_find?_eq_some hfind
      have hup := zeros_apart first hfirst found hfound
      have hdown := zeros_apart found hfound first hfirst
      exact ⟨found, rfl, by omega⟩

theorem digitValues?_eq_some_iff :
    digitValues? digits = some values ↔ List.Forall₂ IsDigit digits values := by
  unfold digitValues?
  induction digits generalizing values with
  | nil => simp [eq_comm]
  | cons c digits ih =>
    simp only [List.mapM_cons, Option.bind_eq_bind, Option.bind_eq_some_iff, Option.pure_def,
      Option.some.injEq, digitValue?_eq_some_iff, ih, List.forall₂_cons_left_iff]
    constructor
    · rintro ⟨d, hd, rest, hrest, rfl⟩
      exact ⟨d, rest, hd, hrest, rfl⟩
    · rintro ⟨d, rest, hd, hrest, rfl⟩
      exact ⟨d, hd, rest, hrest, rfl⟩

theorem forall_of_forall₂ (h : List.Forall₂ IsDigit digits values) :
    (∀ c ∈ digits, ∃ d, IsDigit c d) ∧ ∀ d ∈ values, d < 10 := by
  induction h with
  | nil => exact ⟨fun c hc => by contradiction, fun d hd => by contradiction⟩
  | cons hd _ ih =>
    exact ⟨List.forall_mem_cons.mpr ⟨⟨_, hd⟩, ih.1⟩, List.forall_mem_cons.mpr ⟨hd.1, ih.2⟩⟩

theorem ofDigits_eq (values : List Nat) : ofDigits values = Nat.ofDigits 10 values.reverse := by
  rw [Nat.ofDigits_eq_foldr, List.foldr_reverse, ofDigits]
  simp only [Nat.cast_id, Nat.add_comm]

theorem ofDigits_eq_iff (h : ∀ d ∈ values, d < 10) :
    ofDigits values = n ↔ ∃ k, values = List.replicate k 0 ++ (Nat.digits 10 n).reverse := by
  constructor
  · rintro rfl
    induction values with
    | nil => exact ⟨0, by simp [ofDigits]⟩
    | cons d values ih =>
      by_cases hd : d = 0
      · subst hd
        obtain ⟨k, hk⟩ := ih fun d hd => h d (List.mem_cons_of_mem 0 hd)
        have hzero : ofDigits (0 :: values) = ofDigits values := rfl
        refine ⟨k + 1, ?_⟩
        rw [hzero, List.replicate_succ, List.cons_append, ← hk]
      · -- Without a zero in front, these are the decimal digits.
        refine ⟨0, ?_⟩
        rw [ofDigits_eq, Nat.digits_ofDigits 10 (by decide)]
        · simp
        · exact fun d hd => h d (List.mem_reverse.mp hd)
        · intro hne
          simpa using hd
  · rintro ⟨k, rfl⟩
    rw [ofDigits_eq, List.reverse_append, List.reverse_reverse, List.reverse_replicate,
      Nat.ofDigits_append_replicate_zero, Nat.ofDigits_digits]

theorem natural?_eq_some_iff : natural? digits = some n ↔ Writes digits n := by
  unfold natural?
  by_cases hrefused : digits = [] ∨ digitLimit < digits.length
  · rw [if_pos hrefused]
    refine ⟨fun h => by contradiction, fun h => ?_⟩
    exact absurd hrefused (not_or.mpr ⟨h.nonempty, Nat.not_lt.mpr h.limited⟩)
  · rw [if_neg hrefused, Option.map_eq_some_iff]
    obtain ⟨hnonempty, hlimited⟩ := not_or.mp hrefused
    simp only [digitValues?_eq_some_iff]
    constructor
    · rintro ⟨values, hvalues, hn⟩
      obtain ⟨k, rfl⟩ := (ofDigits_eq_iff (forall_of_forall₂ hvalues).2).mp hn
      exact ⟨hnonempty, Nat.not_lt.mp hlimited, k, hvalues⟩
    · rintro ⟨-, -, k, hvalues⟩
      exact ⟨_, hvalues, (ofDigits_eq_iff (forall_of_forall₂ hvalues).2).mpr ⟨k, rfl⟩⟩

/-! ### Blanks and signs -/

theorem zeros_clear : ∀ first ∈ zeros, 0x30 ≤ first ∧
    ∀ range ∈ (0x5F, 0x5F) :: wideBlanks, range.2 < first ∨ first + 10 ≤ range.1 := by
  decide +kernel

/-- No digit of any script is blank, a sign or an underscore. -/
theorem IsDigit.distinct (h : IsDigit c d) :
    isBlank c = false ∧ c ≠ '-' ∧ c ≠ '+' ∧ c ≠ '_' := by
  obtain ⟨hd, first, hfirst, hc⟩ := h
  obtain ⟨hlow, hclear⟩ := zeros_clear first hfirst
  have hother : ∀ e : Char, e.toNat < 0x30 → c ≠ e := by
    rintro e he rfl
    omega
  refine ⟨?_, hother '-' (by decide), hother '+' (by decide), ?_⟩
  · have hspace : c ≠ ' ' := hother ' ' (by decide)
    rw [isBlank, isNumberBlank]
    simp only [Bool.or_eq_false_iff, Bool.and_eq_false_iff, decide_eq_false_iff_not,
      List.any_eq_false, Bool.and_eq_true, decide_eq_true_eq]
    refine ⟨⟨⟨hspace, by omega⟩, fun range hrange => ?_⟩, by omega⟩
    have := hclear range (List.mem_cons_of_mem _ hrange)
    omega
  · rintro rfl
    have hcode : '_'.toNat = 0x5F := rfl
    have := hclear (0x5F, 0x5F) List.mem_cons_self
    omega

theorem isNumberBlank_of_isBlank (h : isBlank c = false) : isNumberBlank c = false :=
  (Bool.or_eq_false_iff.mp h).1

theorem Writes.isDigit (h : Writes digits n) : ∀ c ∈ digits, ∃ d, IsDigit c d := by
  obtain ⟨-, -, k, hvalues⟩ := h
  exact (forall_of_forall₂ hvalues).1

theorem SignOf.solid {z : Int} {sign : List Char} (hsign : SignOf z sign)
    (hdigits : Writes digits n) : ∀ c ∈ sign ++ digits, isBlank c = false ∧ c ≠ '_' := by
  intro c hc
  rcases List.mem_append.mp hc with hc | hc
  · rcases hsign with ⟨rfl, -⟩ | ⟨rfl, -⟩ | ⟨rfl, -⟩
    · obtain rfl := List.mem_singleton.mp hc
      decide
    · obtain rfl := List.mem_singleton.mp hc
      decide
    · contradiction
  · obtain ⟨d, hd⟩ := hdigits.isDigit c hc
    obtain ⟨hblank, -, -, hunderscore⟩ := hd.distinct
    exact ⟨hblank, hunderscore⟩

theorem trimNumber_append {before core behind : List Char}
    (hbefore : ∀ c ∈ before, isNumberBlank c = true) (hne : core ≠ [])
    (hcore : ∀ c ∈ core, isNumberBlank c = false) (hbehind : ∀ c ∈ behind, isNumberBlank c = true) :
    trimNumber (before ++ core ++ behind) = core := by
  have hstart : (core ++ behind).dropWhile isNumberBlank = core ++ behind := by
    cases core with
    | nil => contradiction
    | cons c core => exact List.dropWhile_cons_of_neg (by simp [hcore c List.mem_cons_self])
  have hend : core.reverse.dropWhile isNumberBlank = core.reverse := by
    rw [List.dropWhile_eq_self_iff]
    intro hlt
    rw [hcore _ (List.mem_reverse.mp (List.getElem_mem hlt))]
    exact Bool.false_ne_true
  rw [trimNumber, List.append_assoc, List.dropWhile_append_of_pos hbefore, hstart,
    List.reverse_append, List.dropWhile_append_of_pos, hend, List.reverse_reverse]
  exact fun c hc => hbehind c (List.mem_reverse.mp hc)

theorem exists_trimNumber (text : List Char) : ∃ before behind,
    text = before ++ trimNumber text ++ behind ∧ (∀ c ∈ before, isNumberBlank c = true) ∧
      ∀ c ∈ behind, isNumberBlank c = true := by
  refine ⟨text.takeWhile isNumberBlank, (text.dropWhile isNumberBlank).rtakeWhile isNumberBlank,
    ?_, fun c => List.mem_takeWhile_imp, fun c => List.mem_rtakeWhile_imp⟩
  have hend : trimNumber text ++ (text.dropWhile isNumberBlank).rtakeWhile isNumberBlank =
      text.dropWhile isNumberBlank := List.rdropWhile_append_rtakeWhile
  rw [List.append_assoc, hend, List.takeWhile_append_dropWhile]

/-! ### Numerals -/

theorem integer?_of_writes (h : Writes digits n) (htext : trimNumber text = digits) :
    integer? text = some (n : Int) := by
  obtain ⟨c, rest, rfl⟩ := List.exists_cons_of_ne_nil h.nonempty
  obtain ⟨d, hd⟩ := h.isDigit c List.mem_cons_self
  obtain ⟨-, hminus, hplus, -⟩ := hd.distinct
  rw [integer?, htext]
  split
  · rename_i heq
    exact absurd (List.cons.inj heq).1 hminus
  · rename_i heq
    exact absurd (List.cons.inj heq).1 hplus
  · rw [natural?_eq_some_iff.mpr h, Option.map_some]

theorem integer?_eq_some_iff_trimNumber {z : Int} : integer? text = some z ↔
    ∃ sign digits, trimNumber text = sign ++ digits ∧ SignOf z sign ∧ Writes digits z.natAbs := by
  constructor
  · intro h
    unfold integer? at h
    split at h
    · rename_i digits htrim
      obtain ⟨n, hn, rfl⟩ := Option.map_eq_some_iff.mp h
      refine ⟨['-'], digits, htrim, .inl ⟨rfl, by omega⟩, ?_⟩
      rw [Int.natAbs_neg, Int.natAbs_natCast]
      exact natural?_eq_some_iff.mp hn
    · rename_i digits htrim
      obtain ⟨n, hn, rfl⟩ := Option.map_eq_some_iff.mp h
      exact ⟨['+'], digits, htrim, .inr (.inl ⟨rfl, by omega⟩), natural?_eq_some_iff.mp hn⟩
    · obtain ⟨n, hn, rfl⟩ := Option.map_eq_some_iff.mp h
      exact ⟨[], _, rfl, .inr (.inr ⟨rfl, by omega⟩), natural?_eq_some_iff.mp hn⟩
  · rintro ⟨sign, digits, htrim, hsign, hdigits⟩
    have hnat := natural?_eq_some_iff.mpr hdigits
    rcases hsign with ⟨rfl, hz⟩ | ⟨rfl, hz⟩ | ⟨rfl, hz⟩
    · rw [integer?, htrim, List.singleton_append]
      simp only [hnat, Option.map_some, Int.ofNat_natAbs_of_nonpos hz, Int.neg_neg]
    · rw [integer?, htrim, List.singleton_append]
      simp only [hnat, Option.map_some, Int.natAbs_of_nonneg hz]
    · rw [integer?_of_writes hdigits htrim, Int.natAbs_of_nonneg hz]

theorem integer?_eq_some_iff {z : Int} : integer? text = some z ↔ Numeral text z := by
  rw [integer?_eq_some_iff_trimNumber]
  constructor
  · rintro ⟨sign, digits, htrim, hsign, hdigits⟩
    obtain ⟨before, behind, htext, hbefore, hbehind⟩ := exists_trimNumber text
    rw [htrim] at htext
    exact ⟨before, sign, digits, behind, htext, hbefore, hsign, hdigits, hbehind⟩
  · rintro ⟨before, sign, digits, behind, rfl, hbefore, hsign, hdigits, hbehind⟩
    refine ⟨sign, digits, ?_, hsign, hdigits⟩
    apply trimNumber_append hbefore (by simp [hdigits.nonempty]) _ hbehind
    exact fun c hc => isNumberBlank_of_isBlank (hsign.solid hdigits c hc).1

theorem Numeral.not_mem {z : Int} (h : Numeral plain z) : '_' ∉ plain := by
  obtain ⟨before, sign, digits, behind, rfl, hbefore, hsign, hdigits, hbehind⟩ := h
  have hblank : isNumberBlank '_' ≠ true := by decide
  rw [List.mem_append, List.mem_append, not_or, not_or]
  exact ⟨⟨fun hmem => hblank (hbefore _ hmem), fun hmem => (hsign.solid hdigits _ hmem).2 rfl⟩,
    fun hmem => hblank (hbehind _ hmem)⟩

theorem Underscored.filter (h : Underscored plain text) (hplain : '_' ∉ plain) :
    text.filter (· != '_') = plain := by
  induction h with
  | nil => rfl
  | keep c _ ih =>
    rw [List.mem_cons, not_or] at hplain
    rw [List.filter_cons_of_pos (by simpa using Ne.symm hplain.1), ih hplain.2]
  | insert _ ih => rw [List.filter_cons_of_neg (by decide), ih hplain]

theorem underscored_filter (text : List Char) : Underscored (text.filter (· != '_')) text := by
  induction text with
  | nil => exact .nil
  | cons c text ih =>
    by_cases hc : c = '_'
    · subst hc
      rw [List.filter_cons_of_neg (by decide)]
      exact ih.insert
    · rw [List.filter_cons_of_pos (by simpa using hc)]
      exact ih.keep c

theorem spells_iff {z : Int} : Spells text z ↔ integer? (text.filter (· != '_')) = some z := by
  rw [integer?_eq_some_iff]
  constructor
  · rintro ⟨plain, hplain, htext⟩
    rwa [htext.filter hplain.not_mem]
  · exact fun h => ⟨_, h, underscored_filter text⟩

theorem Spells.not_blank {z : Int} (h : Spells text z) : ¬ ∀ c ∈ text, isBlank c = true := by
  obtain ⟨plain, hplain, htext⟩ := h
  have hfilter := htext.filter hplain.not_mem
  obtain ⟨before, sign, digits, behind, rfl, -, hsign, hdigits, -⟩ := hplain
  obtain ⟨c, rest, rfl⟩ := List.exists_cons_of_ne_nil hdigits.nonempty
  -- The first digit is in the text, and no digit is blank.
  intro hblank
  have hmem : c ∈ text := by
    apply List.mem_of_mem_filter (p := (· != '_'))
    rw [hfilter]
    simp
  have hsolid := (hsign.solid hdigits c (by simp)).1
  rw [hblank c hmem] at hsolid
  contradiction

end Text

namespace Settings

open Text

variable {text : String} {n : Int}

/-! ### The capacity variable -/

theorem readInteger_of_blank (h : ∀ c ∈ text.toList, isBlank c = true) (default : Int) :
    readInteger (some text) default = .ok default :=
  if_pos (List.all_eq_true.mpr h)

theorem readInteger_of_not_blank (h : ¬ ∀ c ∈ text.toList, isBlank c = true) (default : Int) :
    readInteger (some text) default =
      match integer? (text.toList.filter (· != '_')) with
      | some n => .ok n
      | none => .error (.notInteger text) :=
  if_neg (mt List.all_eq_true.mp h)

theorem readInteger_of_spells (h : Spells text.toList n) (default : Int) :
    readInteger (some text) default = .ok n := by
  rw [readInteger_of_not_blank h.not_blank, spells_iff.mp h]

theorem readInteger_of_not_spells (hblank : ¬ ∀ c ∈ text.toList, isBlank c = true)
    (h : ∀ n, ¬ Spells text.toList n) (default : Int) :
    readInteger (some text) default = .error (.notInteger text) := by
  rw [readInteger_of_not_blank hblank]
  cases hread : integer? (text.toList.filter (· != '_')) with
  | none => rfl
  | some n => exact absurd (spells_iff.mpr hread) (h n)

theorem checkCapacity_eq (n : Int) :
    checkCapacity n = if 1 ≤ n then .ok n.toNat else .error (.notPositive n) := by
  unfold checkCapacity
  by_cases h : 1 ≤ n
  · rw [if_pos h, if_neg (by omega)]
  · rw [if_neg h, if_pos (by omega)]

theorem capacity_none (env : Environment) :
    capacity env none = readInteger env.capacity defaultCapacity >>= checkCapacity := rfl

/-- The capacity variable is read as exactly the integers that it can spell: every other text is
refused, but for a blank one, which leaves the default like a variable that is not set. -/
theorem capacity_read_as_spelled (text : String) (encoding : Option String) :
    (∀ n, Spells text.toList n →
      readInteger (some text) defaultCapacity = .ok n ∧
      capacity ⟨some text, encoding⟩ none =
        if 1 ≤ n then .ok n.toNat else .error (.notPositive n)) ∧
    ((∀ c ∈ text.toList, isBlank c = true) →
      readInteger (some text) defaultCapacity = .ok 1000000 ∧
      capacity ⟨some text, encoding⟩ none = .ok 1000000) ∧
    (readInteger none defaultCapacity = .ok 1000000 ∧
      capacity ⟨none, encoding⟩ none = .ok 1000000) ∧
    (¬ (∀ c ∈ text.toList, isBlank c = true) → (∀ n, ¬ Spells text.toList n) →
      readInteger (some text) defaultCapacity = .error (.notInteger text) ∧
      capacity ⟨some text, encoding⟩ none = .error (.notInteger text)) := by
  simp only [capacity_none]
  refine ⟨fun n hn => ?_, fun hblank => ?_, ⟨rfl, rfl⟩, fun hblank hnot => ?_⟩
  · rw [readInteger_of_spells hn]
    exact ⟨rfl, checkCapacity_eq n⟩
  · rw [readInteger_of_blank hblank]
    exact ⟨rfl, rfl⟩
  · rw [readInteger_of_not_spells hblank hnot]
    exact ⟨rfl, rfl⟩

/-- Digits of three scripts between wide blanks, with underscores before the sign and behind it; and
a separator that counts as blank, but not around a number. -/
theorem capacity_read_as_spelled_scripts :
    (Spells "_\u3000+_0\u0663_\u0967\u00a0".toList 31 ∧
      capacity ⟨some "_\u3000+_0\u0663_\u0967\u00a0", none⟩ none = .ok 31) ∧
    capacity ⟨some "\x1c", none⟩ none = .ok 1000000 ∧
    capacity ⟨some "\x1c7", none⟩ none = .error (.notInteger "\x1c7") := by
  have hdigits : Writes ['0', '\u0663', '\u0967'] 31 := by
    refine ⟨by decide, by decide, 1, ?_⟩
    have hdecimal : (Nat.digits 10 31).reverse = [3, 1] := by simp
    rw [hdecimal]
    exact .cons ⟨by decide, 0x30, by decide, rfl⟩ (.cons ⟨by decide, 0x660, by decide, rfl⟩
      (.cons ⟨by decide, 0x966, by decide, rfl⟩ .nil))
  have hnumeral : Numeral ['\u3000', '+', '0', '\u0663', '\u0967', '\u00a0'] 31 :=
    ⟨['\u3000'], ['+'], _, ['\u00a0'], rfl, List.forall_mem_singleton.mpr rfl,
      .inr (.inl ⟨rfl, by decide⟩), hdigits, List.forall_mem_singleton.mpr rfl⟩
  have hspells : Spells "_\u3000+_0\u0663_\u0967\u00a0".toList 31 :=
    ⟨_, hnumeral, .insert (.keep _ (.keep _ (.insert (.keep _ (.keep _ (.insert (.keep _ (.keep _
      .nil))))))))⟩
  have hseven : ¬ ∀ c ∈ "\x1c7".toList, isBlank c = true :=
    fun h => absurd (h '7' (by decide)) (by decide)
  have hnot : ∀ n, ¬ Spells "\x1c7".toList n := by
    intro n hn
    have hnone : integer? ("\x1c7".toList.filter (· != '_')) = none := by decide
    rw [spells_iff, hnone] at hn
    cases hn
  obtain ⟨hread, -, -, -⟩ := capacity_read_as_spelled "_\u3000+_0\u0663_\u0967\u00a0" none
  obtain ⟨-, hblank, -, -⟩ := capacity_read_as_spelled "\x1c" none
  obtain ⟨-, -, -, hrefused⟩ := capacity_read_as_spelled "\x1c7" none
  exact ⟨⟨hspells, (hread 31 hspells).2⟩, (hblank (List.forall_mem_singleton.mpr rfl)).2,
    (hrefused hseven hnot).2⟩

end Settings

end TapeLang
