import TapeLang.Proofs.Blame

/-! How deep the brackets of a text nest. The loops open at a position are the opening brackets
before it that have no partner before it. As long as every closing bracket has its partner there are
as many of them as the text so far is high, and the largest number of them in a text that is parsed
is the depth of its program. -/

namespace TapeLang

instance (text : List Char) (i : Nat) : Decidable (Unclosed text i) :=
  decidable_of_iff _ unclosed_iff.symm

/-- The number of opening brackets that a text does not close. -/
def openLoops (text : List Char) : Nat := (List.range text.length).countP fun i => Unclosed text i

/-- The largest number of loops open at a position of a text. -/
def nesting (text : List Char) : Nat :=
  ((List.range (text.length + 1)).map fun n => openLoops (text.take n)).max (by simp)

variable {t : List Char} {c : Char} {i m n d : Nat}

/-! ### Open loops -/

theorem unclosed_cons_zero : Unclosed (c :: t) 0 ↔ c = '[' ∧ ClosingsMatched t := by
  simp [unclosed_iff]

theorem unclosed_cons_succ : Unclosed (c :: t) (i + 1) ↔ Unclosed t i := by
  simp [unclosed_iff]

theorem openLoops_cons (c : Char) (t : List Char) :
    openLoops (c :: t) = openLoops t + if c = '[' ∧ ClosingsMatched t then 1 else 0 := by
  have hrest : (fun i => decide (Unclosed (c :: t) i)) ∘ Nat.succ =
      fun i => decide (Unclosed t i) :=
    funext fun i => decide_eq_decide.mpr unclosed_cons_succ
  rw [openLoops, List.length_cons, List.range_succ_eq_map, List.countP_cons, List.countP_map, hrest]
  simp only [decide_eq_true_eq, unclosed_cons_zero]
  rfl

/-- The loops left open are as many as the height says, but for the closing brackets without
partner, and those are as many as the lowest prefix says. -/
theorem exists_openLoops_eq (t : List Char) : ∃ k : Nat, (openLoops t : Int) = height t + k ∧
    (∀ n, -(k : Int) ≤ height (t.take n)) ∧ ∃ n, height (t.take n) = -(k : Int) := by
  induction t with
  | nil => exact ⟨0, rfl, fun n => by simp, 0, rfl⟩
  | cons c t ih =>
    obtain ⟨k, hk, hlow, n, hn⟩ := ih
    have hcons : ∀ s, height (c :: s) = height [c] + height s := height_append [c]
    have hmatched : ClosingsMatched t ↔ k = 0 :=
      ⟨fun h => by have := h n; omega, fun h n => by have := hlow n; omega⟩
    have hlow' : ∀ k' : Nat, (k : Int) ≤ k' + height [c] →
        ∀ n, -(k' : Int) ≤ height ((c :: t).take n) := by
      intro k' hk' n
      cases n with
      | zero =>
        rw [List.take_zero, height_nil]
        omega
      | succ n =>
        have := hlow n
        rw [List.take_succ_cons, hcons]
        omega
    have hn' : height ((c :: t).take (n + 1)) = height [c] - k := by
      rw [List.take_succ_cons, hcons, hn]
      omega
    rw [openLoops_cons, hcons]
    rcases height_singleton c with ⟨rfl, hc⟩ | ⟨rfl, hc⟩ | hc
    · -- The bracket meets the lowest prefix behind it, or there is none to meet and it stays open.
      cases k with
      | zero =>
        rw [if_pos ⟨rfl, hmatched.mpr rfl⟩]
        exact ⟨0, by omega, hlow' 0 (by omega), 0, rfl⟩
      | succ k =>
        rw [if_neg fun h => Nat.succ_ne_zero k (hmatched.mp h.2)]
        exact ⟨k, by omega, hlow' k (by omega), n + 1, by omega⟩
    · rw [if_neg fun h => absurd h.1 (by decide)]
      exact ⟨k + 1, by omega, hlow' (k + 1) (by omega), n + 1, by omega⟩
    · have hopen : c ≠ '[' := by
        rintro rfl
        contradiction
      rw [if_neg fun h => hopen h.1]
      exact ⟨k, by omega, hlow' k (by omega), n + 1, by omega⟩

theorem openLoops_take (h : ∀ k ≤ n, 0 ≤ height (t.take k)) :
    (openLoops (t.take n) : Int) = height (t.take n) := by
  obtain ⟨k, hk, -, j, hj⟩ := exists_openLoops_eq (t.take n)
  rw [List.take_take] at hj
  have := h _ (Nat.min_le_right j n)
  omega

/-! ### The deepest place -/

theorem nesting_le_iff : nesting t ≤ d ↔ ∀ n, openLoops (t.take n) ≤ d := by
  rw [forall_take_iff (P := fun t => openLoops t ≤ d), nesting, List.max_le_iff,
    List.forall_mem_map]
  simp only [List.mem_range]

theorem nesting_take_le (t : List Char) (m : Nat) : nesting (t.take m) ≤ nesting t := by
  rw [nesting_le_iff]
  intro n
  rw [List.take_take]
  exact nesting_le_iff.mp (Nat.le_refl _) _

/-- Up to a position every closing bracket has its partner, and at most `d` loops are open at
once. -/
def Summit (text : List Char) (m d : Nat) : Prop :=
  (∀ n ≤ m, 0 ≤ height (text.take n) ∧ height (text.take n) ≤ d) ∧
    ∃ n ≤ m, height (text.take n) = d

namespace Summit

theorem start (t : List Char) : Summit t 0 0 := by
  refine ⟨fun n hn => ?_, 0, Nat.le_refl 0, rfl⟩
  obtain rfl : n = 0 := Nat.le_zero.mp hn
  exact ⟨Int.le_refl 0, Int.le_refl 0⟩

theorem openLoops_eq (h : Summit t m d) (hn : n ≤ m) :
    (openLoops (t.take n) : Int) = height (t.take n) :=
  openLoops_take fun k hk => (h.1 k (Nat.le_trans hk hn)).1

theorem eq_nesting (h : Summit t m d) : d = nesting (t.take m) := by
  apply Nat.le_antisymm
  · obtain ⟨n, hn, hd⟩ := h.2
    have hopen := nesting_le_iff.mp (Nat.le_refl (nesting (t.take m))) n
    rw [List.take_take, Nat.min_eq_left hn] at hopen
    have := h.openLoops_eq hn
    omega
  · rw [nesting_le_iff]
    intro n
    rw [List.take_take]
    have hn : min n m ≤ m := Nat.min_le_right n m
    have := h.openLoops_eq hn
    have := (h.1 _ hn).2
    omega

theorem le_nesting (h : Summit t m d) : d ≤ nesting t := by
  rw [h.eq_nesting]
  exact nesting_take_le t m

theorem extend (h : Summit t m d) (hi : i ≤ m) {l : Nat} (hl : height (t.take (i + 1)) = l) :
    Summit t (max m (i + 1)) (max d l) := by
  constructor
  · intro n hn
    rcases Nat.lt_or_ge m n with hlt | hle
    · obtain rfl : n = i + 1 := by omega
      omega
    · have := h.1 n hle
      omega
  · rcases Nat.le_total l d with hle | hle
    · obtain ⟨n, hn, hd⟩ := h.2
      exact ⟨n, by omega, by omega⟩
    · exact ⟨i + 1, by omega, by omega⟩

theorem closingsMatched (h : Summit t m d) (hlen : t.length ≤ m) : ClosingsMatched t := by
  intro n
  rw [← List.take_of_length_le hlen, List.take_take]
  exact (h.1 _ (Nat.min_le_right n m)).1

/-- At the first closing bracket without partner, or at the end when there is none, the deepest
place up to there has been seen. -/
theorem nesting_of_end (h : Summit t m d) (hend : FirstUnmatched t m ∨ t.length ≤ m) :
    (∀ p, FirstUnmatched t p → d = nesting (t.take p)) ∧ (ClosingsMatched t → d = nesting t) := by
  rcases hend with hfirst | hlen
  · refine ⟨fun p hp => ?_, fun hmatched => absurd hmatched hfirst.not_closingsMatched⟩
    rw [hp.unique hfirst]
    exact h.eq_nesting
  · have hnesting := h.eq_nesting
    have hmatched := h.closingsMatched hlen
    rw [List.take_of_length_le hlen] at hnesting
    exact ⟨fun p hp => absurd hmatched hp.not_closingsMatched, fun _ => hnesting⟩

end Summit

/-! ### The depth of a program -/

namespace Reading

theorem opened_symbol {r r' : Reading} {offset : Nat} {s : Symbol}
    (h : r.symbol offset s = .ok r') (hr : r.opened.length ≤ r.depth) :
    (r'.opened.length : Int) = r.opened.length + s.rise ∧ r.depth ≤ r'.depth ∧
      r'.opened.length ≤ r'.depth := by
  cases s with
  | prim p =>
    cases h
    exact ⟨(Int.add_zero _).symm, Nat.le_refl _, hr⟩
  | opening =>
    cases h
    exact ⟨rfl, Nat.le_max_left _ _, Nat.le_max_right _ _⟩
  | closing =>
    cases ho : r.opened with
    | nil => simp [symbol, ho] at h
    | cons p rest =>
      simp only [symbol, ho, Except.ok.injEq] at h
      subst h
      rw [ho, List.length_cons] at hr
      simp only [List.length_cons, Symbol.rise]
      omega

/-- A reading has seen as many loops open at once as were open behind any prefix. -/
theorem height_le_depth {r r' : Reading} {offset : Nat} (h : r.text offset t = .ok r')
    (hr : r.opened.length ≤ r.depth) :
    r.depth ≤ r'.depth ∧ ∀ n, r.opened.length + height (t.take n) ≤ r'.depth := by
  induction t generalizing r offset with
  | nil =>
    cases h
    refine ⟨Nat.le_refl _, fun n => ?_⟩
    rw [List.take_nil, height_nil]
    omega
  | cons c t ih =>
    cases hc : Symbol.ofChar? c with
    | none =>
      simp only [text, hc] at h
      obtain ⟨hmono, hheight⟩ := ih h hr
      refine ⟨hmono, fun n => ?_⟩
      cases n with
      | zero => exact hheight 0
      | succ n =>
        rw [List.take_succ_cons, height_cons_inert hc]
        exact hheight n
    | some s =>
      cases hs : r.symbol offset s with
      | error e => simp [text, hc, hs] at h
      | ok r₁ =>
        simp only [text, hc, hs] at h
        obtain ⟨hopened, hmono₁, hr₁⟩ := opened_symbol hs hr
        obtain ⟨hmono, hheight⟩ := ih h hr₁
        refine ⟨Nat.le_trans hmono₁ hmono, fun n => ?_⟩
        cases n with
        | zero =>
          rw [List.take_zero, height_nil]
          omega
        | succ n =>
          have := hheight n
          rw [List.take_succ_cons, height_cons_symbol hc]
          omega

end Reading

/-- The loops of a parsed text nest as deep as its brackets. -/
theorem Program.depth_eq_nesting {p : Program} (h : parse t = .ok p) : p.depth = nesting t := by
  have hbalanced := balanced_of_parse h
  have hopen : ∀ n, (openLoops (t.take n) : Int) = height (t.take n) := fun n =>
    openLoops_take fun k _ => hbalanced.1 k
  apply Nat.le_antisymm
  · have hshallow : Shallow (nesting t) t := by
      intro n
      have := nesting_le_iff.mp (Nat.le_refl (nesting t)) n
      have := hopen n
      omega
    obtain ⟨p', hp', hdepth⟩ := hbalanced.parse hshallow
    cases h.symm.trans hp'
    exact hdepth
  · obtain ⟨r, hr, hopened⟩ := Reading.text_of_closingsMatched hbalanced.1
    have hdepth : r.depth = p.depth := by
      rw [parse, hr] at h
      simp only [Reading.program] at h
      split at h
      · cases h
        rfl
      · contradiction
    rw [nesting_le_iff]
    intro n
    have hheight := (Reading.height_le_depth hr (Nat.le_refl 0)).2 n
    have := hopen n
    rw [hdepth] at hheight
    simp only [List.length_nil] at hheight
    omega

end TapeLang
