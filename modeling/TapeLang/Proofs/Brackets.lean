import Mathlib.Data.Nat.Find
import TapeLang.Proofs.Parsing

/-! Brackets that match and brackets that do not. The height of a text is the number of loops it
opens less the number of those it closes. A text is balanced when its height is zero and no prefix
has a lower one, and balanced texts are those that are parsed. A text whose closing brackets are all
matched is a sequence of balanced texts, each but the first behind an opening bracket without
partner, and it is so in one way only. -/

namespace TapeLang

/-- How many more loops a text opens than it closes. -/
def height (text : List Char) : Int := text.count '[' - text.count ']'

/-- Every closing bracket has its partner: no prefix closes more loops than it opens. -/
def ClosingsMatched (text : List Char) : Prop := ∀ n, 0 ≤ height (text.take n)

/-- Every bracket has its partner. -/
def Balanced (text : List Char) : Prop := ClosingsMatched text ∧ height text = 0

/-- At no position of a text are more than `room` loops open. -/
def Shallow (room : Nat) (text : List Char) : Prop := ∀ n, height (text.take n) ≤ room

theorem forall_take_iff {P : List Char → Prop} (text : List Char) :
    (∀ n, P (text.take n)) ↔ ∀ n < text.length + 1, P (text.take n) := by
  refine ⟨fun h n _ => h n, fun h n => ?_⟩
  rcases Nat.lt_or_ge n (text.length + 1) with hlt | hge
  · exact h n hlt
  · have hall := h text.length (Nat.lt_succ_self _)
    rw [List.take_length] at hall
    rw [List.take_of_length_le (Nat.le_of_succ_le hge)]
    exact hall

instance (text : List Char) : Decidable (ClosingsMatched text) :=
  decidable_of_iff _ (forall_take_iff (P := fun t => 0 ≤ height t) text).symm

instance (room : Nat) (text : List Char) : Decidable (Shallow room text) :=
  decidable_of_iff _ (forall_take_iff (P := fun t => height t ≤ room) text).symm

instance (text : List Char) : Decidable (Balanced text) :=
  inferInstanceAs (Decidable (_ ∧ _))

/-- What a symbol adds to the height of a text. -/
def Symbol.rise : Symbol → Int
  | .opening => 1
  | .closing => -1
  | .prim _ => 0

variable {a b t : List Char} {room : Nat}

/-! ### Heights -/

@[simp] theorem height_nil : height [] = 0 := rfl

@[simp] theorem height_append (a b : List Char) : height (a ++ b) = height a + height b := by
  simp only [height, List.count_append]
  omega

theorem height_cons_symbol {c : Char} {s : Symbol} (h : Symbol.ofChar? c = some s)
    (t : List Char) : height (c :: t) = s.rise + height t := by
  rw [← Symbol.toChar_of_ofChar? h]
  cases s with
  | opening => simp [height, Symbol.toChar, Symbol.rise]; omega
  | closing => simp [height, Symbol.toChar, Symbol.rise]; omega
  | prim p => cases p <;> simp [height, Symbol.toChar, Prim.toChar, Symbol.rise]

theorem height_cons_inert {c : Char} (h : Symbol.ofChar? c = none) (t : List Char) :
    height (c :: t) = height t := by
  have hopen : c ≠ '[' := by rintro rfl; contradiction
  have hclose : c ≠ ']' := by rintro rfl; contradiction
  simp [height, List.count_cons_of_ne hopen, List.count_cons_of_ne hclose]

@[simp] theorem height_opening (t : List Char) : height ('[' :: t) = 1 + height t :=
  height_cons_symbol (s := .opening) rfl t

@[simp] theorem height_closing (t : List Char) : height (']' :: t) = -1 + height t :=
  height_cons_symbol (s := .closing) rfl t

theorem height_prim (p : Prim) : height [p.toChar] = 0 :=
  height_cons_symbol (Symbol.ofChar?_toChar (.prim p)) []

theorem height_singleton (c : Char) :
    (c = '[' ∧ height [c] = 1) ∨ (c = ']' ∧ height [c] = -1) ∨ height [c] = 0 := by
  cases hc : Symbol.ofChar? c with
  | none => exact .inr (.inr (height_cons_inert hc []))
  | some s =>
    have hheight := height_cons_symbol hc []
    have hchar := Symbol.toChar_of_ofChar? hc
    cases s with
    | opening => exact .inl ⟨hchar.symm, hheight⟩
    | closing => exact .inr (.inl ⟨hchar.symm, hheight⟩)
    | prim p => exact .inr (.inr hheight)

theorem height_take_succ {i : Nat} {c : Char} (h : t[i]? = some c) :
    height (t.take (i + 1)) = height (t.take i) + height [c] := by
  obtain ⟨hlt, rfl⟩ := List.getElem?_eq_some_iff.mp h
  rw [← List.take_append_getElem hlt, height_append]

theorem ClosingsMatched.append (ha : ClosingsMatched a) (hb : ClosingsMatched b) :
    ClosingsMatched (a ++ b) := by
  intro n
  have h1 := ha n
  have h2 := hb (n - a.length)
  rw [List.take_append, height_append]
  omega

theorem ClosingsMatched.left (h : ClosingsMatched (a ++ b)) : ClosingsMatched a := by
  intro n
  have := h (min n a.length)
  rwa [List.take_append_of_le_length (Nat.min_le_right _ _), ← List.take_eq_take_min] at this

theorem Shallow.left (h : Shallow room (a ++ b)) : Shallow room a := by
  intro n
  have := h (min n a.length)
  rwa [List.take_append_of_le_length (Nat.min_le_right _ _), ← List.take_eq_take_min] at this

/-- Behind a balanced text and an opening bracket there is room for one loop less. -/
theorem Shallow.right (h : Shallow room (a ++ '[' :: b)) (ha : height a = 0) :
    ∃ room', room = room' + 1 ∧ Shallow room' b := by
  have hroom : ∀ m, 1 + height (b.take m) ≤ room := by
    intro m
    have := h (a.length + (m + 1))
    rw [List.take_length_add_append, List.take_succ_cons, height_append, height_opening, ha] at this
    omega
  obtain ⟨room', rfl⟩ : ∃ r, room = r + 1 := by
    have := hroom 0
    rw [List.take_zero, height_nil] at this
    exact ⟨room - 1, by omega⟩
  refine ⟨room', rfl, fun m => ?_⟩
  have := hroom m
  omega

/-! ### Balanced texts are parsed -/

namespace Reading

theorem symbol_of_rise {r : Reading} {s : Symbol} (h : 0 ≤ r.opened.length + s.rise)
    (offset room : Nat) :
    ∃ r', r.symbol offset s = .ok r' ∧ r'.opened.length = r.opened.length + s.rise ∧
      (r.depth ≤ room → r.opened.length + s.rise ≤ room → r'.depth ≤ room) := by
  cases s with
  | prim p => exact ⟨_, rfl, by simp [Symbol.rise], fun hr _ => hr⟩
  | opening =>
    refine ⟨_, rfl, by simp [Symbol.rise], fun hr hs => ?_⟩
    simp only [Symbol.rise] at hs
    exact Nat.max_le.mpr ⟨hr, by omega⟩
  | closing =>
    cases ho : r.opened with
    | nil => simp [ho, Symbol.rise] at h
    | cons p rest =>
      simp only [symbol, ho]
      refine ⟨_, rfl, ?_, fun hr _ => hr⟩
      simp only [List.length_cons, Symbol.rise]
      omega

/-- A text is taken in when none of its prefixes closes more loops than are open. -/
theorem text_of_height {r : Reading} (offset room : Nat)
    (h : ∀ n, 0 ≤ r.opened.length + height (t.take n)) :
    ∃ r', r.text offset t = .ok r' ∧ r'.opened.length = r.opened.length + height t ∧
      (r.depth ≤ room → (∀ n, r.opened.length + height (t.take n) ≤ room) → r'.depth ≤ room) := by
  induction t generalizing r offset with
  | nil => exact ⟨r, rfl, by simp, fun hr _ => hr⟩
  | cons c t ih =>
    cases hc : Symbol.ofChar? c with
    | none =>
      have hrest : ∀ n, height ((c :: t).take (n + 1)) = height (t.take n) := fun n =>
        height_cons_inert hc _
      obtain ⟨r', hr', hopened, hdepth⟩ := ih (r := r) (offset + 1) fun n => by
        rw [← hrest]
        exact h (n + 1)
      refine ⟨r', by simp only [text, hc, hr'], by rw [height_cons_inert hc, hopened], ?_⟩
      exact fun hr hroom => hdepth hr fun n => hrest n ▸ hroom (n + 1)
    | some s =>
      have hfirst : height ((c :: t).take 1) = s.rise := by
        rw [List.take_succ_cons, height_cons_symbol hc, List.take_zero, height_nil, Int.add_zero]
      have hrest : ∀ n, height ((c :: t).take (n + 1)) = s.rise + height (t.take n) := fun n =>
        height_cons_symbol hc _
      obtain ⟨r₁, hr₁, hopened₁, hdepth₁⟩ :=
        symbol_of_rise (hfirst ▸ h 1) offset room
      have hshift : ∀ n, r₁.opened.length + height (t.take n) =
          r.opened.length + height ((c :: t).take (n + 1)) := by
        intro n
        rw [hrest, hopened₁]
        omega
      obtain ⟨r', hr', hopened, hdepth⟩ := ih (r := r₁) (offset + 1) fun n => by
        rw [hshift]
        exact h (n + 1)
      refine ⟨r', by simp only [text, hc, hr₁, hr'], ?_, fun hr hroom => ?_⟩
      · rw [hopened, hopened₁, height_cons_symbol hc]
        omega
      · exact hdepth (hdepth₁ hr (hfirst ▸ hroom 1)) fun n => hshift n ▸ hroom (n + 1)

end Reading

/-- A balanced text is parsed, and its loops nest no deeper than there are open ones. -/
theorem Balanced.parse (h : Balanced t) (hroom : Shallow room t) :
    ∃ p, Program.parse t = .ok p ∧ p.depth ≤ room := by
  obtain ⟨hclosings, hheight⟩ := h
  obtain ⟨r, hr, hopened, hdepth⟩ := Reading.text_of_height (r := {}) 0 room fun n => by
    have := hclosings n
    simpa using this
  have hnil : r.opened = [] := by
    apply List.eq_nil_of_length_eq_zero
    rw [hheight] at hopened
    exact Int.ofNat.inj hopened
  refine ⟨⟨r.here.reverse, r.depth, r.size⟩, ?_, hdepth (Nat.zero_le _) fun n => ?_⟩
  · simp only [Program.parse, hr, Reading.program, hnil]
  · have := hroom n
    simpa using this

/-! ### Texts with unmatched opening brackets -/

variable {first first' : List Char} {rest rest' : List (List Char)}

theorem closingsMatched_flatMap (h : ∀ b ∈ rest, Balanced b) :
    ClosingsMatched (rest.flatMap ('[' :: ·)) := by
  induction rest with
  | nil =>
    intro n
    simp
  | cons b rest ih =>
    have hb := (h b List.mem_cons_self).1.append (ih fun c hc => h c (List.mem_cons_of_mem b hc))
    intro n
    cases n with
    | zero => exact Int.le_refl 0
    | succ n =>
      have := hb n
      rw [List.flatMap_cons, List.cons_append, List.take_succ_cons, height_opening]
      omega

/-- Behind the first unmatched opening bracket the height stays positive. -/
theorem height_pos_of_flatMap (h : ∀ b ∈ rest, Balanced b) {y z : List Char}
    (hy : rest.flatMap ('[' :: ·) = y ++ z) (hne : y ≠ []) : 0 < height y := by
  cases rest with
  | nil => simp_all
  | cons b rest =>
    cases y with
    | nil => contradiction
    | cons c y =>
      rw [List.flatMap_cons, List.cons_append, List.cons_append, List.cons.injEq] at hy
      obtain ⟨rfl, hy⟩ := hy
      have hb := (h b List.mem_cons_self).1.append
        (closingsMatched_flatMap fun c hc => h c (List.mem_cons_of_mem b hc))
      rw [hy] at hb
      have := hb y.length
      rw [List.take_left] at this
      rw [height_opening]
      omega

theorem first_unique (hfirst : Balanced first) (hrest : ∀ b ∈ rest, Balanced b)
    (hfirst' : Balanced first') (hrest' : ∀ b ∈ rest', Balanced b)
    (heq : first ++ rest.flatMap ('[' :: ·) = first' ++ rest'.flatMap ('[' :: ·)) :
    first = first' := by
  rcases List.append_eq_append_iff.mp heq with ⟨y, rfl, hy⟩ | ⟨y, rfl, hy⟩
  · by_cases hne : y = []
    · rw [hne, List.append_nil]
    · have hpos := height_pos_of_flatMap hrest hy hne
      have hzero := hfirst'.2
      rw [height_append, hfirst.2] at hzero
      omega
  · by_cases hne : y = []
    · rw [hne, List.append_nil]
    · have hpos := height_pos_of_flatMap hrest' hy hne
      have hzero := hfirst.2
      rw [height_append, hfirst'.2] at hzero
      omega

/-- A text is split into balanced ones, at its unmatched opening brackets, in one way only. -/
theorem split_unique (h : ∀ b ∈ first :: rest, Balanced b) (h' : ∀ b ∈ first' :: rest', Balanced b)
    (heq : first ++ rest.flatMap ('[' :: ·) = first' ++ rest'.flatMap ('[' :: ·)) :
    first = first' ∧ rest = rest' := by
  rw [List.forall_mem_cons] at h h'
  obtain rfl := first_unique h.1 h.2 h'.1 h'.2 heq
  refine ⟨rfl, ?_⟩
  replace heq := List.append_cancel_left heq
  replace h := h.2
  replace h' := h'.2
  induction rest generalizing rest' with
  | nil =>
    cases rest' with
    | nil => rfl
    | cons b' rest' => simp at heq
  | cons b rest ih =>
    cases rest' with
    | nil => simp at heq
    | cons b' rest' =>
      rw [List.forall_mem_cons] at h h'
      rw [List.flatMap_cons, List.flatMap_cons, List.cons_append, List.cons_append,
        List.cons.injEq] at heq
      obtain rfl := first_unique h.1 h.2 h'.1 h'.2 heq.2
      rw [ih (List.append_cancel_left heq.2) h.2 h'.2]

/-- The first piece of such a text is the longest prefix of height zero. -/
theorem exists_first_piece (h : ClosingsMatched t) :
    Balanced t ∨ ∃ first behind, t = first ++ '[' :: behind ∧ Balanced first ∧
      ClosingsMatched behind := by
  have hzero : height (t.take (Nat.findGreatest (fun n => height (t.take n) = 0) t.length)) = 0 :=
    Nat.findGreatest_spec (P := fun n => height (t.take n) = 0) (Nat.zero_le t.length) height_nil
  have hle := Nat.findGreatest_le (P := fun n => height (t.take n) = 0) t.length
  have hlast : ∀ m, Nat.findGreatest (fun n => height (t.take n) = 0) t.length < m →
      m ≤ t.length → height (t.take m) ≠ 0 := fun m =>
    Nat.findGreatest_is_greatest (P := fun n => height (t.take n) = 0)
  generalize Nat.findGreatest (fun n => height (t.take n) = 0) t.length = n at hzero hle hlast
  rcases Nat.lt_or_eq_of_le hle with hlt | rfl
  · obtain ⟨first, c, behind, rfl, rfl⟩ : ∃ first c behind, t = first ++ c :: behind ∧
        first.length = n :=
      ⟨t.take n, t[n], t.drop (n + 1), by rw [← List.drop_eq_getElem_cons, List.take_append_drop],
        List.length_take_of_le hle⟩
    rw [List.take_left] at hzero
    have hpos : ∀ m, 0 < height (c :: behind.take m) := by
      intro m
      have hge := h (first.length + (min m behind.length + 1))
      have hne := hlast (first.length + (min m behind.length + 1)) (by omega)
        (by rw [List.length_append, List.length_cons]; omega)
      rw [List.take_length_add_append, List.take_succ_cons, ← List.take_eq_take_min,
        height_append, hzero] at hge hne
      omega
    obtain rfl : c = '[' := by
      have hc : 0 < height [c] := hpos 0
      rcases height_singleton c with ⟨rfl, -⟩ | ⟨-, hheight⟩ | hheight
      · rfl
      · omega
      · omega
    refine .inr ⟨first, behind, rfl, ⟨h.left, hzero⟩, fun m => ?_⟩
    have := hpos m
    rw [height_opening] at this
    omega
  · rw [List.take_length] at hzero
    exact .inl ⟨h, hzero⟩

/-- A text whose closing brackets are matched is split at its other opening brackets. -/
theorem exists_split (h : ClosingsMatched t) :
    ∃ first rest, t = first ++ rest.flatMap ('[' :: ·) ∧ ∀ b ∈ first :: rest, Balanced b := by
  induction hlen : t.length using Nat.strongRecOn generalizing t with
  | ind len ih =>
    rcases exists_first_piece h with hbalanced | ⟨first, behind, rfl, hfirst, hbehind⟩
    · exact ⟨t, [], by simp, by simpa using hbalanced⟩
    · have hlt : behind.length < len := by
        rw [← hlen, List.length_append, List.length_cons]
        omega
      obtain ⟨next, rest, rfl, hrest⟩ := ih _ hlt hbehind rfl
      exact ⟨first, next :: rest, by simp, List.forall_mem_cons.mpr ⟨hfirst, hrest⟩⟩

/-! ### The first unmatched closing bracket -/

/-- The first prefix that closes more loops than it opens ends with the character at `p`. -/
def FirstUnmatched (text : List Char) (p : Nat) : Prop :=
  height (text.take (p + 1)) < 0 ∧ ∀ n ≤ p, 0 ≤ height (text.take n)

theorem exists_firstUnmatched (h : ¬ ClosingsMatched t) : ∃ p, FirstUnmatched t p := by
  have hex : ∃ n, height (t.take n) < 0 := by
    simpa [ClosingsMatched] using h
  have hspec := Nat.find_spec hex
  have hmin : ∀ n < Nat.find hex, ¬ height (t.take n) < 0 := fun n => Nat.find_min hex
  generalize Nat.find hex = n at hspec hmin
  cases n with
  | zero => contradiction
  | succ p => exact ⟨p, hspec, fun n hn => Int.not_lt.mp (hmin n (Nat.lt_succ_of_le hn))⟩

theorem FirstUnmatched.not_closingsMatched {p : Nat} (h : FirstUnmatched t p) :
    ¬ ClosingsMatched t :=
  fun hmatched => absurd (hmatched (p + 1)) (Int.not_le.mpr h.1)

theorem FirstUnmatched.unique {p q : Nat} (h : FirstUnmatched t p) (h' : FirstUnmatched t q) :
    p = q := by
  have hpq : ¬ p < q := fun hlt => absurd (h'.2 _ hlt) (Int.not_le.mpr h.1)
  have hqp : ¬ q < p := fun hlt => absurd (h.2 _ hlt) (Int.not_le.mpr h'.1)
  omega

/-- That character is a closing bracket, and what stands before it is balanced. -/
theorem FirstUnmatched.spec {p : Nat} (h : FirstUnmatched t p) :
    t[p]? = some ']' ∧ Balanced (t.take p) := by
  obtain ⟨hneg, hpos⟩ := h
  have hp := hpos p (Nat.le_refl p)
  have hlt : p < t.length := by
    apply Nat.lt_of_not_le
    intro hle
    rw [List.take_of_length_le (Nat.le_succ_of_le hle), ← List.take_of_length_le hle] at hneg
    omega
  rw [← List.take_append_getElem hlt, height_append] at hneg
  rcases height_singleton t[p] with ⟨-, hheight⟩ | ⟨hclose, hheight⟩ | hheight
  · omega
  · refine ⟨by rw [List.getElem?_eq_getElem hlt, hclose], fun n => ?_, by omega⟩
    rw [List.take_take]
    exact hpos _ (Nat.min_le_right n p)
  · omega

end TapeLang
