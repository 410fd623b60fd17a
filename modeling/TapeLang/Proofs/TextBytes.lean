import Mathlib.Data.List.TakeWhile
import TapeLang.Encoding
import TapeLang.Proofs.Utf8

/-! Texts and their bytes. In the character sets that carry refused bytes, bytes are read in one way
only: at each place the code point whose bytes stand there, and where there is none, the code point
that carries the byte. Such a text is written as the bytes it was read from, and a text without
carrying code points is read from what is written for it. -/

namespace TapeLang.Encoding

open Text

namespace Charset

variable {s : Charset} {c : CodePoint} {a b : UInt8} {more position : Nat} {label : String}
  {piece rest bytes : List UInt8} {text : List CodePoint}

/-- A character set has bytes for a code point. -/
def Admits : Charset → CodePoint → Prop
  | .utf8, c => c.val < 0xD800 ∨ 0xDFFF < c.val
  | .latin1, c => c.val ≤ 0xFF
  | .ascii, c => c.val ≤ 0x7F
  | .utf16 _, c => c.val < 0xD800 ∨ 0xDFFF < c.val

/-- The bytes of some code point stand at the start. -/
def Starts (s : Charset) (bytes : List UInt8) : Prop :=
  ∃ c piece, s.encodePoint? c = some piece ∧ piece <+: bytes

/-- The text that is read from bytes, place by place. -/
inductive Reads (s : Charset) : List UInt8 → List CodePoint → Prop
  | nil : Reads s [] []
  | point {c : CodePoint} {piece rest : List UInt8} {text : List CodePoint} :
      s.encodePoint? c = some piece → Reads s rest text → Reads s (piece ++ rest) (c :: text)
  | carried {b : UInt8} {rest : List UInt8} {text : List CodePoint} :
      ¬ s.Starts (b :: rest) → Reads s rest text → Reads s (b :: rest) (.ofByte b :: text)

/-! ### Single code points -/

theorem isSurrogate_iff : c.isSurrogate = true ↔ 0xD800 ≤ c.val ∧ c.val ≤ 0xDFFF := by
  simp [CodePoint.isSurrogate]

theorem ofNat_val (c : CodePoint) : CodePoint.ofNat c.val = c :=
  Fin.ext (Nat.mod_eq_of_lt c.isLt)

theorem val_ofNat_toNat (a : UInt8) : (CodePoint.ofNat a.toNat).val = a.toNat := by
  have := a.toNat_lt
  exact Nat.mod_eq_of_lt (by omega)

theorem val_ofByte (b : UInt8) : (CodePoint.ofByte b).val = 0xDC00 + b.toNat := by
  have := b.toNat_lt
  exact Nat.mod_eq_of_lt (by omega)

theorem exists_encodePoint?_iff : (∃ piece, s.encodePoint? c = some piece) ↔ s.Admits c := by
  cases s with
  | utf8 | utf16 _ =>
    simp only [encodePoint?, Admits, Option.ite_none_left_eq_some, isSurrogate_iff,
      exists_and_left, Option.some.injEq, exists_eq', and_true]
    omega
  | latin1 => simp [encodePoint?, Admits]
  | ascii => simp [encodePoint?, Admits]

theorem byte?_eq_none_iff : c.byte? = none ↔ ¬ (0xDC80 ≤ c.val ∧ c.val ≤ 0xDCFF) := by
  simp [CodePoint.byte?]

theorem form_of_encodePoint? (h : encodePoint? .utf8 c = some piece) : Utf8.Form c.val piece := by
  simp only [encodePoint?, Option.ite_none_left_eq_some, isSurrogate_iff, Option.some.injEq] at h
  exact h.2 ▸ Utf8.form_encode c.isLt h.1

theorem not_starts_of_isTail (hb : Utf8.isTail b = true) (bytes : List UInt8) :
    ¬ Starts .utf8 (b :: bytes) := by
  rintro ⟨c, piece, hc, hp⟩
  obtain ⟨a, rest, rfl, ha⟩ := (form_of_encodePoint? hc).exists_first
  obtain rfl := (List.cons_prefix_cons.mp hp).1
  rw [Utf8.isTail_iff] at hb
  omega

theorem carried_eq (hmore : more ≤ 3) (h : ∀ b ∈ a :: rest.take more, 0x80 ≤ b.toNat) :
    carried a rest more = a :: rest.take more := by
  have hmin : min 4 (more + 1) = more + 1 := by omega
  rw [carried, hmin, List.take_succ_cons, List.takeWhile_eq_self_iff]
  exact fun b hb => decide_eq_true (h b hb)

theorem Reads.carried_append (hpiece : ∀ b ∈ piece, ∀ bytes, ¬ s.Starts (b :: bytes))
    (h : Reads s rest text) : Reads s (piece ++ rest) (piece.map .ofByte ++ text) := by
  induction piece with
  | nil => exact h
  | cons b piece ih =>
    obtain ⟨hb, hpiece⟩ := List.forall_mem_cons.mp hpiece
    exact .carried (hb _) (ih hpiece)

variable (hs : s.carriesBytes = true)
include hs

theorem encodePoint?_ofByte (b : UInt8) : s.encodePoint? (.ofByte b) = none := by
  have hval := val_ofByte b
  have := b.toNat_lt
  cases s with
  | utf8 => simp only [encodePoint?, isSurrogate_iff]; rw [if_pos (by omega)]
  | latin1 => exact if_neg (by omega)
  | ascii => exact if_neg (by omega)
  | utf16 => contradiction

theorem starts_of_lt (ha : a.toNat < 0x80) (rest : List UInt8) : s.Starts (a :: rest) := by
  have hval := val_ofNat_toNat a
  refine ⟨.ofNat a.toNat, [a], ?_, by simp⟩
  cases s with
  | utf8 =>
    simp only [encodePoint?, isSurrogate_iff, hval, Utf8.encode, if_pos ha, UInt8.ofNat_toNat]
    rw [if_neg (by omega)]
  | latin1 => simp only [encodePoint?, hval, UInt8.ofNat_toNat]; rw [if_pos (by omega)]
  | ascii => simp only [encodePoint?, hval, UInt8.ofNat_toNat]; rw [if_pos (by omega)]
  | utf16 => contradiction

/-! ### The front of bytes -/

/-- Where the bytes of a code point stand, the front is that code point. -/
theorem front_of_encodePoint? (hc : s.encodePoint? c = some piece) (hp : piece <+: a :: rest) :
    s.front a rest = .point c (piece.length - 1) := by
  obtain ⟨behind, hbehind⟩ := hp
  cases s with
  | utf8 =>
    rw [front, (form_of_encodePoint? hc).front_eq hbehind.symm, ofNat_val]
  | latin1 =>
    simp only [encodePoint?, Option.ite_none_right_eq_some] at hc
    obtain ⟨hle, hc⟩ := hc
    cases hc
    cases hbehind
    rw [front, Utf8.toNat_ofNat_of_lt (by omega), ofNat_val]
    rfl
  | ascii =>
    simp only [encodePoint?, Option.ite_none_right_eq_some] at hc
    obtain ⟨hle, hc⟩ := hc
    cases hc
    cases hbehind
    rw [front, Utf8.toNat_ofNat_of_lt (by omega), if_pos (by omega), ofNat_val]
    rfl
  | utf16 => contradiction

/-- What a front says of the bytes: those of the code point stand there, or bytes are refused that
are not ASCII, and none but the first could be the first of a code point's. -/
def Tells (s : Charset) (a : UInt8) (rest : List UInt8) : Front → Prop
  | .point c more => more ≤ rest.length ∧ s.encodePoint? c = some (a :: rest.take more)
  | .refused more _ => more ≤ 3 ∧ more ≤ rest.length ∧ (∀ b ∈ a :: rest.take more, 0x80 ≤ b.toNat) ∧
      ∀ b ∈ rest.take more, ∀ bytes, ¬ s.Starts (b :: bytes)

theorem tells_front (a : UInt8) (rest : List UInt8) : s.Tells a rest (s.front a rest) := by
  have hval := val_ofNat_toNat a
  cases s with
  | utf8 =>
    have htells := Utf8.tells_front a rest
    show Tells .utf8 a rest (Utf8.front a rest)
    cases hf : Utf8.front a rest with
    | point c more =>
      rw [hf] at htells
      obtain ⟨hle, hform⟩ := htells
      obtain ⟨-, hsur, hencode⟩ := hform.encode_eq
      refine ⟨hle, ?_⟩
      rw [encodePoint?, if_neg (by rwa [isSurrogate_iff]), hencode]
    | refused more why =>
      rw [hf] at htells
      obtain ⟨hmore, hle, ha, htail⟩ := htells
      refine ⟨hmore, hle, List.forall_mem_cons.mpr ⟨ha, fun b hb => ?_⟩, fun b hb bytes => ?_⟩
      · exact (Utf8.isTail_iff.mp (htail b hb)).1
      · exact not_starts_of_isTail (htail b hb) bytes
  | latin1 =>
    refine ⟨Nat.zero_le _, ?_⟩
    have := a.toNat_lt
    simp only [encodePoint?, hval, UInt8.ofNat_toNat]
    rw [if_pos (by omega)]
    rfl
  | ascii =>
    unfold front
    dsimp only
    split
    · refine ⟨Nat.zero_le _, ?_⟩
      simp only [encodePoint?, hval, UInt8.ofNat_toNat]
      rw [if_pos (by omega)]
      rfl
    · simp [Tells]
      omega
  | utf16 => contradiction

/-! ### Reading -/

/-- Every byte sequence is read. The induction is on its length, since a step takes as many bytes as
the front tells. -/
theorem exists_decodeFrom (position : Nat) (bytes : List UInt8) :
    ∃ text, s.decodeFrom false position bytes = .ok text ∧ Reads s bytes text := by
  induction hlen : bytes.length using Nat.strongRecOn generalizing position bytes with
  | ind len ih =>
    cases bytes with
    | nil => exact ⟨[], by rw [decodeFrom], .nil⟩
    | cons a rest =>
      rw [List.length_cons] at hlen
      have hdrop : ∀ n, (rest.drop n).length < len := by
        intro n
        rw [List.length_drop]
        omega
      have htells := tells_front hs a rest
      cases hf : s.front a rest with
      | point c more =>
        rw [hf] at htells
        obtain ⟨hle, hc⟩ := htells
        obtain ⟨text, htext, hreads⟩ := ih _ (hdrop more) (position + more + 1) _ rfl
        refine ⟨c :: text, ?_, ?_⟩
        · rw [decodeFrom]
          simp only [hf, htext]
          rfl
        · have h := Reads.point hc hreads
          rwa [List.cons_append, List.take_append_drop] at h
      | refused more why =>
        have hnot : ¬ s.Starts (a :: rest) := by
          rintro ⟨c, piece, hc, hp⟩
          rw [front_of_encodePoint? hs hc hp] at hf
          contradiction
        rw [hf] at htells
        obtain ⟨hmore, hle, hhigh, htail⟩ := htells
        have hlength : (rest.take more).length = more := List.length_take_of_le hle
        obtain ⟨text, htext, hreads⟩ := ih _ (hdrop more) (position + more + 1) _ rfl
        refine ⟨.ofByte a :: (rest.take more).map .ofByte ++ text, ?_, ?_⟩
        · rw [decodeFrom]
          simp only [hf, carried_eq hmore hhigh, Bool.false_eq_true, if_false, hlength, htext]
          rfl
        · have h := Reads.carried_append htail hreads
          rw [List.take_append_drop] at h
          exact .carried hnot h

theorem encodePoint?_ne_nil (hc : s.encodePoint? c = some piece) : piece ≠ [] := by
  rintro rfl
  have hempty := front_of_encodePoint? hs hc (List.nil_prefix (l := [0]))
  have htells := tells_front hs 0 []
  rw [hempty] at htells
  cases hc.symm.trans htells.2

theorem starts_of_front (h : s.front a rest = .point c more) : s.Starts (a :: rest) := by
  have htells := tells_front hs a rest
  rw [h] at htells
  refine ⟨c, _, htells.2, ?_⟩
  rw [List.cons_prefix_cons]
  exact ⟨rfl, List.take_prefix more rest⟩

/-- The first place of a text tells what stands at the start of its bytes. -/
theorem Reads.cases_cons (h : Reads s (a :: rest) text) :
    (∃ c more behind, s.front a rest = .point c more ∧ text = c :: behind ∧
      Reads s (rest.drop more) behind) ∨
    (¬ s.Starts (a :: rest) ∧ ∃ behind, text = .ofByte a :: behind ∧ Reads s rest behind) := by
  generalize hbytes : a :: rest = bytes at h
  cases h with
  | nil => contradiction
  | @point c piece last behind hc hreads =>
    have hfront := front_of_encodePoint? hs hc ⟨last, hbytes.symm⟩
    refine .inl ⟨c, piece.length - 1, behind, hfront, rfl, ?_⟩
    cases piece with
    | nil => exact absurd rfl (encodePoint?_ne_nil hs hc)
    | cons b piece =>
      cases hbytes
      simpa using hreads
  | carried hnot hreads =>
    cases hbytes
    exact .inr ⟨hnot, _, rfl, hreads⟩

/-- No other text is read from the bytes. -/
theorem Reads.unique {other : List CodePoint} (h : Reads s bytes text) (h' : Reads s bytes other) :
    other = text := by
  induction h generalizing other with
  | nil =>
    generalize hbytes : ([] : List UInt8) = bytes at h'
    cases h' with
    | nil => rfl
    | point hc _ =>
      exact absurd (List.append_eq_nil_iff.mp hbytes.symm).1 (encodePoint?_ne_nil hs hc)
    | carried => contradiction
  | @point c piece rest text hc _ ih =>
    cases piece with
    | nil => exact absurd rfl (encodePoint?_ne_nil hs hc)
    | cons a piece =>
      have hfront : s.front a (piece ++ rest) = .point c piece.length :=
        front_of_encodePoint? hs hc (List.prefix_append _ _)
      rw [List.cons_append] at h'
      rcases h'.cases_cons hs with ⟨c', more, behind, hfront', rfl, hbehind⟩ | ⟨hnot, -⟩
      · cases hfront.symm.trans hfront'
        rw [List.drop_left] at hbehind
        rw [ih hbehind]
      · exact absurd (starts_of_front hs hfront) hnot
  | carried hnot _ ih =>
    rcases h'.cases_cons hs with ⟨c', more, behind, hfront', -⟩ | ⟨-, behind, rfl, hbehind⟩
    · exact absurd (starts_of_front hs hfront') hnot
    · rw [ih hbehind]

theorem decodeFrom_of_reads (h : Reads s bytes text) (position : Nat) :
    s.decodeFrom false position bytes = .ok text := by
  obtain ⟨text', hdecode, hreads⟩ := exists_decodeFrom hs position bytes
  rw [hdecode, h.unique hs hreads]

/-! ### Writing -/

theorem encodeFrom_of_reads (h : Reads s bytes text) (label : String) (position : Nat) :
    s.encodeFrom label position text = .ok bytes := by
  induction h generalizing position with
  | nil => rfl
  | point hc _ ih =>
    simp only [encodeFrom, hc, ih]
    rfl
  | @carried b rest text hnot _ ih =>
    have hb : 0x80 ≤ b.toNat := Nat.not_lt.mp fun hlt => hnot (starts_of_lt hs hlt rest)
    simp only [encodeFrom, encodePoint?_ofByte hs, hs, if_true, CodePoint.byte?_ofByte hb, ih]
    rfl

/-- Texts are written unless a code point is among them that neither has bytes nor carries one. -/
theorem exists_encodeFrom_iff (label : String) (position : Nat) (text : List CodePoint) :
    (∃ bytes, s.encodeFrom label position text = .ok bytes) ↔
      ∀ c ∈ text, (0xDC80 ≤ c.val ∧ c.val ≤ 0xDCFF) ∨ s.Admits c := by
  induction text generalizing position with
  | nil => simp [encodeFrom]
  | cons c text ih =>
    rw [List.forall_mem_cons, ← ih (position + 1), ← exists_encodePoint?_iff]
    cases hc : s.encodePoint? c with
    | some piece =>
      simp only [encodeFrom, hc]
      cases s.encodeFrom label (position + 1) text <;> simp [Except.map]
    | none =>
      simp only [encodeFrom, hc, hs, if_true]
      cases hb : c.byte? with
      | none =>
        rw [byte?_eq_none_iff] at hb
        simp [hb]
      | some b =>
        have hcarries : 0xDC80 ≤ c.val ∧ c.val ≤ 0xDCFF := by
          apply Classical.byContradiction
          intro hnot
          rw [byte?_eq_none_iff.mpr hnot] at hb
          contradiction
        cases s.encodeFrom label (position + 1) text <;> simp [Except.map, hcarries]

omit hs in
/-- A text that carries no bytes is read from what is written for it. -/
theorem reads_of_encodeFrom (hnone : ∀ c ∈ text, ¬ (0xDC80 ≤ c.val ∧ c.val ≤ 0xDCFF))
    (h : s.encodeFrom label position text = .ok bytes) : Reads s bytes text := by
  induction text generalizing position bytes with
  | nil =>
    cases h
    exact .nil
  | cons c text ih =>
    obtain ⟨hc, hnone⟩ := List.forall_mem_cons.mp hnone
    cases hpiece : s.encodePoint? c with
    | none => simp [encodeFrom, hpiece, byte?_eq_none_iff.mpr hc] at h
    | some piece =>
      simp only [encodeFrom, hpiece] at h
      cases hrest : s.encodeFrom label (position + 1) text with
      | error e => simp [hrest, Except.map] at h
      | ok rest =>
        rw [hrest] at h
        cases h
        exact .point hpiece (ih hnone hrest)

theorem eq_singleton_of_255_mem (hc : s.encodePoint? c = some piece) (h : 0xFF ∈ piece) :
    piece = [0xFF] := by
  cases s with
  | utf8 => exact absurd h (form_of_encodePoint? hc).not_mem_255
  | latin1 | ascii =>
    simp only [encodePoint?, Option.ite_none_right_eq_some, Option.some.injEq] at hc
    obtain ⟨-, rfl⟩ := hc
    rw [List.mem_singleton.mp h]
  | utf16 => contradiction

/-- The code points of a text before the first whose bytes include 255. -/
def before255 (s : Charset) (text : List CodePoint) : List CodePoint :=
  text.takeWhile fun c => 0xFF ∉ (s.encodePoint? c).getD []

/-- They are read from the bytes before the first 255. -/
theorem Reads.before255 (hnone : ∀ c ∈ text, ¬ (0xDC80 ≤ c.val ∧ c.val ≤ 0xDCFF))
    (h : Reads s bytes text) : Reads s (bytes.takeWhile (· ≠ 0xFF)) (s.before255 text) := by
  induction h with
  | nil => exact .nil
  | @point c piece rest text hc _ ih =>
    have hrest := ih fun c' hc' => hnone c' (List.mem_cons_of_mem c hc')
    by_cases h255 : 0xFF ∈ piece
    · have hstop : s.before255 (c :: text) = [] := by simp [Charset.before255, hc, h255]
      rw [eq_singleton_of_255_mem hs hc h255, hstop]
      exact .nil
    · have hgo : s.before255 (c :: text) = c :: s.before255 text := by
        simp [Charset.before255, hc, h255]
      have hpiece : ∀ b ∈ piece, decide (b ≠ 0xFF) = true := by
        intro b hb
        exact decide_eq_true fun heq => h255 (heq ▸ hb)
      rw [hgo, List.takeWhile_append_of_pos hpiece]
      exact .point hc hrest
  | @carried b rest text hnot _ _ =>
    have hb : ¬ b.toNat < 0x80 := fun hlt => hnot (starts_of_lt hs hlt rest)
    have hcarries := hnone _ List.mem_cons_self
    have hval := val_ofByte b
    have := b.toNat_lt
    omega

end Charset

/-! ### Encodings by name -/

variable {codecs : Codecs} {name : String} {s : Charset}

/-- A name is that of a character set, whatever it is used for. -/
def Denotes (codecs : Codecs) (name : String) (s : Charset) : Prop :=
  ∀ task, lookup codecs name task = .ok (Scheme.plain s).conversion

/-- The known names of a character set are names of it on every host. -/
theorem denotes_of_find? (hnull : name.toList.contains (Char.ofNat 0) = false)
    (h : find? name = some (.text (.plain s))) : Denotes codecs name s := by
  intro task
  simp only [lookup, hnull, codecs.find?_known h, Bool.false_eq_true, if_false]
  rfl

theorem Denotes.found (h : Denotes codecs name s) :
    name.toList.contains (Char.ofNat 0) = false ∧ ∃ c, codecs.find? name = some c := by
  have hlookup := h .encode
  unfold lookup at hlookup
  split at hlookup
  · contradiction
  · rename_i hnull
    refine ⟨Bool.eq_false_iff.mpr hnull, ?_⟩
    split at hlookup
    · contradiction
    · contradiction
    · rename_i hfind
      exact ⟨_, hfind⟩

theorem Denotes.encode_eq (h : Denotes codecs name s) (text : List CodePoint) :
    encode codecs name text = s.encode text := by
  rw [encode, h .encode]
  rfl

theorem Denotes.decode_eq (h : Denotes codecs name s) (bytes : List UInt8) :
    decode codecs name bytes = s.decode bytes := by
  rw [decode, h.found.1, h .decode]
  cases bytes with
  | nil =>
    rw [Charset.decode, Charset.decodeFrom]
    rfl
  | cons a rest => rfl

theorem carriesBytes_iff : s.carriesBytes = true ↔ s = .utf8 ∨ s = .latin1 ∨ s = .ascii := by
  cases s <;> simp [Charset.carriesBytes]

/-- Bytes survive being a text. In each of the three encodings every byte sequence is read, as the
one text that has at each place the code point whose bytes stand there or, where there is none, the
code point that carries the byte; and what is written for that text are the bytes again. -/
theorem bytes_survive_text (hs : s = .utf8 ∨ s = .latin1 ∨ s = .ascii)
    (hname : Denotes codecs name s) (bytes : List UInt8) :
    ∃ text, decode codecs name bytes = .ok text ∧ (∀ other, s.Reads bytes other ↔ other = text) ∧
      encode codecs name text = .ok bytes := by
  have hcarries := carriesBytes_iff.mpr hs
  obtain ⟨text, hdecode, hreads⟩ := Charset.exists_decodeFrom hcarries 0 bytes
  refine ⟨text, (hname.decode_eq bytes).trans hdecode, fun other => ?_, ?_⟩
  · constructor
    · exact fun hother => hreads.unique hcarries hother
    · rintro rfl
      exact hreads
  · rw [hname.encode_eq]
    exact Charset.encodeFrom_of_reads hcarries hreads s.label 0

/-- A letter in two bytes, then an overlong form, a surrogate, a number that is too large and,
behind another letter, a form that is cut off. -/
theorem bytes_survive_text_malformed :
    Denotes .known "utf-8" .utf8 ∧
    Charset.Reads .utf8 [0xC3, 0xA9, 0xC0, 0x80, 0xED, 0xA0, 0x80, 0xF4, 0x90, 0x41, 0xE2, 0x82]
      [0xE9, 0xDCC0, 0xDC80, 0xDCED, 0xDCA0, 0xDC80, 0xDCF4, 0xDC90, 0x41, 0xDCE2, 0xDC82] ∧
    encode .known "utf-8"
      [0xE9, 0xDCC0, 0xDC80, 0xDCED, 0xDCA0, 0xDC80, 0xDCF4, 0xDC90, 0x41, 0xDCE2, 0xDC82] =
      .ok [0xC3, 0xA9, 0xC0, 0x80, 0xED, 0xA0, 0x80, 0xF4, 0x90, 0x41, 0xE2, 0x82] := by
  have hname : Denotes .known "utf-8" .utf8 := denotes_of_find? rfl rfl
  have hread : decode .known "utf-8"
      [0xC3, 0xA9, 0xC0, 0x80, 0xED, 0xA0, 0x80, 0xF4, 0x90, 0x41, 0xE2, 0x82] =
      .ok [0xE9, 0xDCC0, 0xDC80, 0xDCED, 0xDCA0, 0xDC80, 0xDCF4, 0xDC90, 0x41, 0xDCE2, 0xDC82] := by
    rw [hname.decode_eq]
    with_unfolding_all rfl
  obtain ⟨text, hdecode, hreads, hencode⟩ := bytes_survive_text (.inl rfl) hname
    [0xC3, 0xA9, 0xC0, 0x80, 0xED, 0xA0, 0x80, 0xF4, 0x90, 0x41, 0xE2, 0x82]
  cases hread.symm.trans hdecode
  exact ⟨hname, (hreads _).mpr rfl, hencode⟩

end TapeLang.Encoding
