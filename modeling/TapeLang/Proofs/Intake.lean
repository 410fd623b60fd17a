import TapeLang.Channel
import TapeLang.Proofs.Engine

/-! What a run takes from its input. A reader is worth the endless sequence of bytes that its reads
give, the input and then 255 for ever. An engine whose steps leave the reader alone, or read one
byte and go on with nothing but that byte, cannot tell two readers apart that give the same bytes as
often as it reads. -/

namespace TapeLang

namespace Reader

/-- The byte that is read after `i` others. -/
def coming (r : Reader) (i : Nat) : UInt8 :=
  if r.exhausted then Cell.endOfInput else r.unread.getD i Cell.endOfInput

theorem read_fst (r : Reader) : r.read.1 = r.coming 0 := by
  obtain ⟨unread, exhausted⟩ := r
  cases exhausted with
  | true => rfl
  | false => cases unread <;> rfl

theorem coming_read (r : Reader) (i : Nat) : r.read.2.coming i = r.coming (i + 1) := by
  obtain ⟨unread, exhausted⟩ := r
  cases exhausted with
  | true => rfl
  | false => cases unread <;> rfl

theorem unread_read_isSuffix (r : Reader) : r.read.2.unread <:+ r.unread := by
  obtain ⟨unread, exhausted⟩ := r
  cases exhausted with
  | true => exact List.suffix_refl _
  | false =>
    cases unread with
    | nil => exact List.suffix_refl _
    | cons b rest => exact List.suffix_cons b rest

theorem readMany_add (j k : Nat) (r : Reader) :
    (readMany (j + k) r).2 = (readMany k (readMany j r).2).2 := by
  induction j generalizing r with
  | zero => rw [Nat.zero_add]; rfl
  | succ j ih =>
    rw [Nat.succ_add]
    exact ih r.read.2

theorem readMany_add_fst (j k : Nat) (r : Reader) :
    (readMany (j + k) r).1 = (readMany j r).1 ++ (readMany k (readMany j r).2).1 := by
  induction j generalizing r with
  | zero => rw [Nat.zero_add]; rfl
  | succ j ih =>
    rw [Nat.succ_add]
    exact congrArg (r.read.1 :: ·) (ih r.read.2)

theorem coming_readMany (k : Nat) (r : Reader) (i : Nat) :
    (readMany k r).2.coming i = r.coming (k + i) := by
  induction k generalizing r with
  | zero => rw [Nat.zero_add]; rfl
  | succ k ih =>
    show (readMany k r.read.2).2.coming i = _
    rw [ih, coming_read, Nat.add_right_comm]

theorem readMany_exhausted (k : Nat) (x : List UInt8) :
    (readMany k ⟨x, true⟩).2 = ⟨x, true⟩ := by
  induction k with
  | zero => rfl
  | succ k ih => exact ih

/-- After `k` reads that many bytes are gone, as far as there were as many, and the end of the input
was seen when there were fewer. -/
theorem readMany_ofBytes (k : Nat) (x : List UInt8) :
    (readMany k (ofBytes x)).2 = ⟨x.drop (min k x.length), decide (x.length < k)⟩ := by
  induction k generalizing x with
  | zero => simp [readMany, ofBytes]
  | succ k ih =>
    cases x with
    | nil =>
      show (readMany k ⟨[], true⟩).2 = _
      rw [readMany_exhausted]
      simp
    | cons b x =>
      show (readMany k (ofBytes x)).2 = _
      rw [ih]
      simp [Nat.succ_min_succ]

/-- The reader of `x` after `k` reads: so many bytes are gone, and the end was met or not. -/
def Took (x : List UInt8) (k : Nat) (r : Reader) : Prop :=
  r.unread = x.drop (min k x.length) ∧ (r.exhausted = true ↔ x.length < k)

theorem took_readMany (k : Nat) (x : List UInt8) : (readMany k (ofBytes x)).2.Took x k := by
  rw [readMany_ofBytes]
  exact ⟨rfl, decide_eq_true_iff⟩

end Reader

/-- Two inputs, each continued for ever with 255, agree in their first `k` entries. -/
def SameFor (k : Nat) (x y : List UInt8) : Prop := ∀ i < k, y.getD i 255 = x.getD i 255

variable {σ ρ ω : Type}

/-- Changes the configuration or the result that a step leads to. -/
def Step.map (f : σ → σ) (g : ρ → ρ) : Step σ ρ → Step σ ρ
  | .next s => .next (f s)
  | .done r => .done (g r)

/-- How an engine takes its input, when its actions are its reads: the reader can be replaced in a
configuration and in a result, a step that does not read does the same with any reader, and a step
that reads does the same with any reader that gives the same byte. -/
structure Intake (E : Engine σ ρ ω) where
  give : Reader → σ → σ
  giveEnd : Reader → ρ → ρ
  acts_give : ∀ r s, E.acts (give r s) = E.acts s
  giveEnd_giveEnd : ∀ r r' e, giveEnd r (giveEnd r' e) = giveEnd r e
  step_idle : ∀ r s, E.acts s = false → E.step (give r s) = (E.step s).map (give r) (giveEnd r)
  step_reads : ∀ s, E.acts s = true → ∃ store : UInt8 → Step σ ρ, ∀ r,
    E.step (give r s) = (store r.read.1).map (give r.read.2) (giveEnd r.read.2)

namespace Intake

variable {E : Engine σ ρ ω} (I : Intake E) {s : σ} {e : ρ} {r : Reader} {n k : Nat}

/-- One step, with any reader that gives the byte it may read: the reader has given it then. -/
theorem step_give (s : σ) (r : Reader) : ∃ o : Step σ ρ, ∀ r' : Reader,
    (∀ i < (E.acts s).toNat, r'.coming i = r.coming i) →
    E.step (I.give r' s) = o.map (I.give (Reader.readMany (E.acts s).toNat r').2)
      (I.giveEnd (Reader.readMany (E.acts s).toNat r').2) := by
  cases hacts : E.acts s with
  | false => exact ⟨E.step s, fun r' _ => I.step_idle r' s hacts⟩
  | true =>
    obtain ⟨store, hstore⟩ := I.step_reads s hacts
    refine ⟨store r.read.1, fun r' hr' => ?_⟩
    have hbyte : r'.read.1 = r.read.1 := by
      rw [Reader.read_fst, Reader.read_fst]
      exact hr' 0 Nat.one_pos
    rw [hstore, hbyte]
    rfl

/-- Where the reader can be seen, it has been read as often as the step acts. -/
theorem reader_step (reader : ω → Reader) (hview : ∀ r s, reader (E.view (I.give r s)) = r)
    (hend : ∀ r e, reader (E.viewEnd (I.giveEnd r e)) = r)
    (hgive : ∀ s, I.give (reader (E.view s)) s = s) (s : σ) :
    reader (E.look (E.step s)) = (Reader.readMany (E.acts s).toNat (reader (E.view s))).2 := by
  obtain ⟨o, ho⟩ := I.step_give s (reader (E.view s))
  have hstep := ho (reader (E.view s)) fun _ _ => rfl
  rw [hgive] at hstep
  rw [hstep]
  cases o with
  | next t => exact hview _ t
  | done e => exact hend _ e

/-- A run that ends has read as often as it acted, and ends in the same way with any reader that
gives the same bytes that often. -/
theorem after_done (h : E.after n (I.give r s) = .done e) (hk : E.acted n (I.give r s) = k) :
    e = I.giveEnd (Reader.readMany k r).2 e ∧
    ∀ r' : Reader, (∀ i < k, r'.coming i = r.coming i) →
      E.after n (I.give r' s) = .done (I.giveEnd (Reader.readMany k r').2 e) ∧
        E.acted n (I.give r' s) = k := by
  -- The induction is on the steps: the bytes of the first are the first that both readers give.
  induction n generalizing s r k with
  | zero => contradiction
  | succ n ih =>
    obtain ⟨o, ho⟩ := I.step_give s r
    have hacts : ∀ r', (E.acts (I.give r' s)).toNat = (E.acts s).toNat := by
      intro r'
      rw [I.acts_give]
    generalize (E.acts s).toNat = c at ho hacts
    cases o with
    | next t =>
      rw [Engine.after_succ_next (ho r fun _ _ => rfl)] at h
      rw [Engine.acted_succ_next (ho r fun _ _ => rfl), hacts] at hk
      subst hk
      obtain ⟨hreader, hsame⟩ := ih h rfl
      rw [Reader.readMany_add]
      refine ⟨hreader, fun r' hr' => ?_⟩
      have hstep := ho r' fun i hi => hr' i (by omega)
      obtain ⟨hafter, hacted⟩ := hsame (Reader.readMany c r').2 fun i hi => by
        rw [Reader.coming_readMany, Reader.coming_readMany]
        exact hr' (c + i) (by omega)
      rw [Engine.after_succ_next hstep, Engine.acted_succ_next hstep, hacts, hacted,
        Reader.readMany_add]
      exact ⟨hafter, rfl⟩
    | done e₀ =>
      rw [Engine.after_succ_done (ho r fun _ _ => rfl)] at h
      rw [Engine.acted_succ_done (ho r fun _ _ => rfl), hacts] at hk
      subst hk
      cases h
      refine ⟨(I.giveEnd_giveEnd _ _ _).symm, fun r' hr' => ?_⟩
      have hstep := ho r' hr'
      rw [Engine.after_succ_done hstep, Engine.acted_succ_done hstep, hacts, I.giveEnd_giveEnd]
      exact ⟨rfl, rfl⟩

theorem after_done_ofBytes {x : List UInt8} (h : E.after n (I.give (.ofBytes x) s) = .done e)
    (hk : E.acted n (I.give (.ofBytes x) s) = k) :
    (∃ r : Reader, r.Took x k ∧ e = I.giveEnd r e) ∧
    ∀ y, SameFor k x y → ∃ r, E.after n (I.give (.ofBytes y) s) = .done (I.giveEnd r e) ∧
      E.acted n (I.give (.ofBytes y) s) = k := by
  obtain ⟨hreader, hsame⟩ := I.after_done h hk
  exact ⟨⟨_, Reader.took_readMany k x, hreader⟩, fun y hy => ⟨_, hsame (.ofBytes y) hy⟩⟩

end Intake

end TapeLang
