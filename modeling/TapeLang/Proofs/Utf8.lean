import TapeLang.Encoding.Charset

/-! The byte forms of UTF-8. A form is a first byte with as many continuation bytes as it asks for;
the restrictions on the second byte leave one form for each number that is no surrogate, and none
for the others. Writing a number gives its form, and the front of bytes is a code point just when a
form stands there. -/

namespace TapeLang.Encoding.Utf8

open Text

/-- The bytes that stand for a number, by how many they are. -/
inductive Form : Nat → List UInt8 → Prop
  | one {n : Nat} {a : UInt8} : n = a.toNat → a.toNat < 0x80 → Form n [a]
  | two {n : Nat} {a b : UInt8} : n = (a.toNat - 0xC0) * 0x40 + (b.toNat - 0x80) →
      0xC2 ≤ a.toNat → a.toNat < 0xE0 → mayFollow a b = true → Form n [a, b]
  | three {n : Nat} {a b c : UInt8} :
      n = (a.toNat - 0xE0) * 0x1000 + (b.toNat - 0x80) * 0x40 + (c.toNat - 0x80) →
      0xE0 ≤ a.toNat → a.toNat < 0xF0 → mayFollow a b = true → isTail c = true → Form n [a, b, c]
  | four {n : Nat} {a b c d : UInt8} :
      n = (a.toNat - 0xF0) * 0x40000 + (b.toNat - 0x80) * 0x1000 + (c.toNat - 0x80) * 0x40 +
        (d.toNat - 0x80) →
      0xF0 ≤ a.toNat → a.toNat < 0xF5 → mayFollow a b = true → isTail c = true →
      isTail d = true → Form n [a, b, c, d]

variable {a b : UInt8} {n more : Nat} {piece rest : List UInt8} {p : CodePoint}

theorem isTail_iff : isTail b = true ↔ 0x80 ≤ b.toNat ∧ b.toNat ≤ 0xBF := by
  simp [isTail]

theorem mayFollow_iff : mayFollow a b = true ↔ (0x80 ≤ b.toNat ∧ b.toNat ≤ 0xBF) ∧
    (a.toNat = 0xE0 → 0xA0 ≤ b.toNat) ∧ (a.toNat = 0xED → b.toNat ≤ 0x9F) ∧
    (a.toNat = 0xF0 → 0x90 ≤ b.toNat) ∧ (a.toNat = 0xF4 → b.toNat ≤ 0x8F) := by
  simp only [mayFollow, Bool.and_eq_true, isTail_iff, ← UInt8.toNat_inj, UInt8.reduceToNat]
  grind

theorem toNat_ofNat_of_lt (h : n < 0x100) : (UInt8.ofNat n).toNat = n := by
  rw [UInt8.toNat_ofNat']
  exact Nat.mod_eq_of_lt h

theorem ofNat_eq_iff (h : n < 0x100) : UInt8.ofNat n = a ↔ n = a.toNat := by
  rw [← UInt8.toNat_inj, toNat_ofNat_of_lt h]

/-- A form does not start with a continuation byte. -/
theorem Form.exists_first (h : Form n piece) :
    ∃ a rest, piece = a :: rest ∧ (a.toNat < 0x80 ∨ 0xC2 ≤ a.toNat) := by
  cases h with
  | one _ ha => exact ⟨_, _, rfl, .inl ha⟩
  | two _ ha => exact ⟨_, _, rfl, .inr ha⟩
  | three _ ha => exact ⟨_, _, rfl, .inr (by omega)⟩
  | four _ ha => exact ⟨_, _, rfl, .inr (by omega)⟩

theorem Form.not_mem_255 (h : Form n piece) : 0xFF ∉ piece := by
  have hne : ∀ {b : UInt8}, b.toNat < 0xF5 → 0xFF ≠ b := by
    rintro b hb rfl
    exact absurd hb (by decide)
  cases h with
  | one _ ha => simpa using hne (by omega)
  | two _ _ ha hb =>
    rw [mayFollow_iff] at hb
    simpa using ⟨hne (by omega), hne (by omega)⟩
  | three _ _ ha hb hc =>
    rw [mayFollow_iff] at hb
    rw [isTail_iff] at hc
    simpa using ⟨hne (by omega), hne (by omega), hne (by omega)⟩
  | four _ _ ha hb hc hd =>
    rw [mayFollow_iff] at hb
    rw [isTail_iff] at hc hd
    simpa using ⟨hne (by omega), hne (by omega), hne (by omega), hne (by omega)⟩

/-! ### Forms and numbers -/

/-- A form is what is written for its number, which is a code point and no surrogate. -/
theorem Form.encode_eq (h : Form n piece) :
    n < 0x110000 ∧ ¬ (0xD800 ≤ n ∧ n ≤ 0xDFFF) ∧ encode n = piece := by
  -- The bytes are split into what they add to the number and what marks their place in the form, so
  -- that the arithmetic has no subtraction.
  cases h with
  | one hn ha =>
    refine ⟨by omega, by omega, ?_⟩
    rw [encode, if_pos (by omega), hn, UInt8.ofNat_toNat]
  | two hn ha ha' hb =>
    rw [mayFollow_iff] at hb
    obtain ⟨x, hx⟩ := Nat.exists_eq_add_of_le (Nat.le_trans (by decide : 0xC0 ≤ 0xC2) ha)
    obtain ⟨y, hy⟩ := Nat.exists_eq_add_of_le hb.1.1
    rw [hx, hy, Nat.add_sub_cancel_left, Nat.add_sub_cancel_left] at hn
    refine ⟨by omega, by omega, ?_⟩
    rw [encode, if_neg (by omega), if_pos (by omega)]
    simp only [List.cons.injEq, and_true]
    rw [ofNat_eq_iff (by omega), ofNat_eq_iff (by omega)]
    omega
  | three hn ha ha' hb hc =>
    rw [mayFollow_iff] at hb
    rw [isTail_iff] at hc
    obtain ⟨x, hx⟩ := Nat.exists_eq_add_of_le ha
    obtain ⟨y, hy⟩ := Nat.exists_eq_add_of_le hb.1.1
    obtain ⟨z, hz⟩ := Nat.exists_eq_add_of_le hc.1
    rw [hx, hy, hz, Nat.add_sub_cancel_left, Nat.add_sub_cancel_left, Nat.add_sub_cancel_left] at hn
    refine ⟨by omega, by omega, ?_⟩
    rw [encode, if_neg (by omega), if_neg (by omega), if_pos (by omega)]
    simp only [List.cons.injEq, and_true]
    rw [ofNat_eq_iff (by omega), ofNat_eq_iff (by omega), ofNat_eq_iff (by omega)]
    omega
  | four hn ha ha' hb hc hd =>
    rw [mayFollow_iff] at hb
    rw [isTail_iff] at hc hd
    obtain ⟨x, hx⟩ := Nat.exists_eq_add_of_le ha
    obtain ⟨y, hy⟩ := Nat.exists_eq_add_of_le hb.1.1
    obtain ⟨z, hz⟩ := Nat.exists_eq_add_of_le hc.1
    obtain ⟨u, hu⟩ := Nat.exists_eq_add_of_le hd.1
    rw [hx, hy, hz, hu, Nat.add_sub_cancel_left, Nat.add_sub_cancel_left, Nat.add_sub_cancel_left,
      Nat.add_sub_cancel_left] at hn
    refine ⟨by omega, by omega, ?_⟩
    rw [encode, if_neg (by omega), if_neg (by omega), if_neg (by omega)]
    simp only [List.cons.injEq, and_true]
    rw [ofNat_eq_iff (by omega), ofNat_eq_iff (by omega), ofNat_eq_iff (by omega),
      ofNat_eq_iff (by omega)]
    omega

/-- What is written for a number is a form of it, unless it is a surrogate. -/
theorem form_encode (hn : n < 0x110000) (hs : ¬ (0xD800 ≤ n ∧ n ≤ 0xDFFF)) :
    Form n (encode n) := by
  unfold encode
  split
  · have htoNat : (UInt8.ofNat n).toNat = n := toNat_ofNat_of_lt (by omega)
    exact .one htoNat.symm (by omega)
  · split
    · apply Form.two
      all_goals
        simp (disch := omega) only [mayFollow_iff, toNat_ofNat_of_lt]
        omega
    · split
      · apply Form.three
        all_goals
          simp (disch := omega) only [mayFollow_iff, isTail_iff, toNat_ofNat_of_lt]
          omega
      · apply Form.four
        all_goals
          simp (disch := omega) only [mayFollow_iff, isTail_iff, toNat_ofNat_of_lt]
          omega

/-! ### Forms at the front of bytes -/

/-- Where a form stands, its number is read. -/
theorem Form.front_eq {behind : List UInt8} (h : Form n piece) (heq : a :: rest = piece ++ behind) :
    front a rest = .point (CodePoint.ofNat n) (piece.length - 1) := by
  cases h with
  | one hn ha =>
    cases heq
    simp [front, point, ha, hn]
  | two hn ha ha' hb =>
    cases heq
    have h1 : ¬ a.toNat < 0x80 := by omega
    have h2 : ¬ a.toNat < 0xC2 := by omega
    simp [front, point, h1, h2, ha', hb, hn]
  | three hn ha ha' hb hc =>
    cases heq
    have h1 : ¬ a.toNat < 0x80 := by omega
    have h2 : ¬ a.toNat < 0xC2 := by omega
    have h3 : ¬ a.toNat < 0xE0 := by omega
    simp [front, point, h1, h2, h3, ha', hb, hc, hn]
  | four hn ha ha' hb hc hd =>
    cases heq
    have h1 : ¬ a.toNat < 0x80 := by omega
    have h2 : ¬ a.toNat < 0xC2 := by omega
    have h3 : ¬ a.toNat < 0xE0 := by omega
    have h4 : ¬ a.toNat < 0xF0 := by omega
    simp [front, point, h1, h2, h3, h4, ha', hb, hc, hd, hn]

/-- What a front says of the bytes: the form of the code point stands there, or a byte that is not
ASCII is refused, with continuation bytes behind it. -/
def Tells (a : UInt8) (rest : List UInt8) : Front → Prop
  | .point p more => more ≤ rest.length ∧ Form p.val (a :: rest.take more)
  | .refused more _ =>
    more ≤ 3 ∧ more ≤ rest.length ∧ 0x80 ≤ a.toNat ∧ ∀ b ∈ rest.take more, isTail b = true

theorem tells_point (hle : more ≤ rest.length) (h : Form n (a :: rest.take more)) :
    Tells a rest (point n more) := by
  have hval : (CodePoint.ofNat n).val = n := Nat.mod_eq_of_lt h.encode_eq.1
  exact ⟨hle, hval.symm ▸ h⟩

theorem tells_refused {why : Refusal} {behind : List UInt8} (piece : List UInt8)
    (ha : ¬ a.toNat < 0x80) (hlen : piece.length ≤ 3) (hpiece : ∀ b ∈ piece, isTail b = true) :
    Tells a (piece ++ behind) (.refused piece.length why) := by
  refine ⟨hlen, by simp, Nat.not_lt.mp ha, ?_⟩
  rwa [List.take_left]

/-- The front of bytes is told by the forms: the cases are those in which a form is complete, and
those in which it stops before its second, third or fourth byte. -/
theorem tells_front (a : UInt8) (rest : List UInt8) : Tells a rest (front a rest) := by
  have htail : ∀ {b}, mayFollow a b = true → isTail b = true := fun hb =>
    isTail_iff.mpr (mayFollow_iff.mp hb).1
  fun_cases front a rest with
  | case1 rest x ha => exact tells_point (Nat.zero_le _) (.one rfl ha)
  | case4 x _ ha ha' b rest hb =>
    exact tells_point (by simp) (.two rfl (Nat.not_lt.mp ha) ha' hb)
  | case8 x _ _ ha ha' b hb c rest hc =>
    exact tells_point (by simp) (.three rfl (Nat.not_lt.mp ha) ha' hb hc)
  | case14 x _ _ _ ha ha' b hb c hc d rest hd =>
    exact tells_point (by simp) (.four rfl (Nat.not_lt.mp ha) ha' hb hc hd)
  | case2 rest x ha | case18 rest x ha | case3 x ha | case5 x ha | case6 x ha | case10 x ha
  | case11 x ha | case17 x ha => exact tells_refused [] ha (by simp) (by simp)
  | case7 x ha _ _ _ b hb | case9 x ha _ _ _ b hb | case12 x ha _ _ _ _ b hb
  | case16 x ha _ _ _ _ b hb =>
    exact tells_refused [b] ha (by simp) (by simp [htail hb])
  | case13 x ha _ _ _ _ b hb c hc | case15 x ha _ _ _ _ b hb c hc =>
    exact tells_refused [b, c] ha (by simp) (by simp [htail hb, hc])

end TapeLang.Encoding.Utf8
