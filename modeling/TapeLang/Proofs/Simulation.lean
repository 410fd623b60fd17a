import TapeLang.Proofs.Engine

/-! Simulations: one engine follows another when each step of the other is matched by some steps of
its own with as many actions. A step of the other may be matched by no step at all only where a
size falls, so neither engine can go on for ever while the other stands still: the two end together,
and both show the same after any number of actions. -/

namespace TapeLang

variable {σ₁ σ₂ ρ₁ ρ₂ ω : Type}

/-- `C` follows `A`: related configurations stay related, and where `A` ends with a result, `C`
comes to a moment that `F` relates to it. -/
structure Simulation (C : Engine σ₁ ρ₁ ω) (A : Engine σ₂ ρ₂ ω) (R : σ₁ → σ₂ → Prop)
    (F : Step σ₁ ρ₁ → ρ₂ → Prop) (size : σ₂ → Nat) : Prop where
  next : ∀ {s t t'}, R s t → A.step t = .next t' →
    (∃ s', C.Advances s (A.acts t).toNat s' ∧ R s' t') ∨
      A.acts t = false ∧ size t' < size t ∧ R s t'
  done : ∀ {s t r}, R s t → A.step t = .done r →
    ∃ o, C.Arrives s (A.acts t).toNat o ∧ F o r

namespace Simulation

variable {C : Engine σ₁ ρ₁ ω} {A : Engine σ₂ ρ₂ ω} {R : σ₁ → σ₂ → Prop}
  {F : Step σ₁ ρ₁ → ρ₂ → Prop} {size : σ₂ → Nat} {s : σ₁} {t t' : σ₂} {r : ρ₂} {k n : Nat}

/-- Where `C` goes on quietly after it has come to the end of `A`, the simulation goes on with
it. -/
theorem extend {F' : Step σ₁ ρ₁ → ρ₂ → Prop} (h : Simulation C A R F size)
    (hF : ∀ o r, F o r → F' o r ∨ ∃ s o', o = .next s ∧ C.Arrives s 0 o' ∧ F' o' r) :
    Simulation C A R F' size where
  next := h.next
  done := by
    intro s t r hR hs
    obtain ⟨o, ho, hFr⟩ := h.done hR hs
    rcases hF o r hFr with hF' | ⟨s', o', rfl, hquiet, hF'⟩
    · exact ⟨o, ho, hF'⟩
    · exact ⟨o', by simpa using ho.trans hquiet, hF'⟩

theorem arrives_of_step (h : Simulation C A R F size) (hR : R s t) (hs : A.step t = .next t') :
    ∃ s', C.Arrives s (A.acts t).toNat (.next s') ∧ R s' t' := by
  rcases h.next hR hs with ⟨s', hadv, hR'⟩ | ⟨hacts, -, hR'⟩
  · exact ⟨s', hadv.arrives, hR'⟩
  · rw [hacts]
    exact ⟨s, .refl C s, hR'⟩

/-- Where `A` is after some steps, `C` comes with as many actions. -/
theorem arrives_next (h : Simulation C A R F size) (hR : R s t) (hk : A.after k t = .next t') :
    ∃ s', C.Arrives s (A.acted k t) (.next s') ∧ R s' t' := by
  induction k generalizing s t with
  | zero =>
    cases hk
    exact ⟨s, .refl C s, hR⟩
  | succ k ih =>
    cases hs : A.step t with
    | next u =>
      rw [Engine.after_succ_next hs] at hk
      obtain ⟨s₁, h₁, hR₁⟩ := h.arrives_of_step hR hs
      obtain ⟨s₂, h₂, hR₂⟩ := ih hR₁ hk
      rw [Engine.acted_succ_next hs]
      exact ⟨s₂, h₁.trans h₂, hR₂⟩
    | done r =>
      rw [Engine.after_succ_done hs] at hk
      contradiction

/-- Where `A` ends, `C` comes to what `F` says, with as many actions. -/
theorem arrives_done (h : Simulation C A R F size) (hR : R s t) (hk : A.after k t = .done r) :
    ∃ o, C.Arrives s (A.acted k t) o ∧ F o r := by
  induction k generalizing s t with
  | zero => contradiction
  | succ k ih =>
    cases hs : A.step t with
    | next u =>
      rw [Engine.after_succ_next hs] at hk
      obtain ⟨s₁, h₁, hR₁⟩ := h.arrives_of_step hR hs
      obtain ⟨o, h₂, hF⟩ := ih hR₁ hk
      rw [Engine.acted_succ_next hs]
      exact ⟨o, h₁.trans h₂, hF⟩
    | done r' =>
      rw [Engine.after_succ_done hs] at hk
      cases hk
      rw [Engine.acted_succ_done hs]
      exact h.done hR hs

/-- When `C` ends, so does `A`. The induction is on the steps that `C` takes and, where a step of
`A` is matched by none, on the size. -/
theorem done_of_done (h : Simulation C A R F size) (hR : R s t) {r₁ : ρ₁}
    (hn : C.after n s = .done r₁) : ∃ k r, A.after k t = .done r := by
  induction n using Nat.strongRecOn generalizing s t with
  | ind n ih =>
    induction hm : size t using Nat.strongRecOn generalizing t with
    | ind m ihm =>
      cases hs : A.step t with
      | done r => exact ⟨1, r, Engine.after_succ_done hs⟩
      | next u =>
        rcases h.next hR hs with ⟨s', ⟨j, hj, -⟩, hR'⟩ | ⟨-, hlt, hR'⟩
        · by_cases hle : n ≤ j + 1
          · obtain ⟨i, hi⟩ := Nat.exists_eq_add_of_le hle
            rw [hi, Engine.after_add_done hn] at hj
            contradiction
          · obtain ⟨i, rfl⟩ := Nat.exists_eq_add_of_le (Nat.le_of_not_le hle)
            rw [Engine.after_add_next hj] at hn
            obtain ⟨k, r, hk⟩ := ih i (by omega) hR' hn
            exact ⟨k + 1, r, by rw [Engine.after_succ_next hs, hk]⟩
        · obtain ⟨k, r, hk⟩ := ihm _ (hm ▸ hlt) hR' rfl
          exact ⟨k + 1, r, by rw [Engine.after_succ_next hs, hk]⟩

/-- When `A` ends, so does `C`, with a result that `F` relates to that of `A`. -/
theorem exists_done (h : Simulation C A R F size) (hF : ∀ o r, F o r → ∃ r₁, o = .done r₁)
    (hR : R s t) (hk : A.after k t = .done r) :
    ∃ n r₁, C.after n s = .done r₁ ∧ F (.done r₁) r := by
  obtain ⟨_, ⟨n, rfl, -⟩, hFr⟩ := h.arrives_done hR hk
  obtain ⟨r₁, hr₁⟩ := hF _ _ hFr
  rw [hr₁] at hFr
  exact ⟨n, r₁, hr₁, hFr⟩

theorem done_matched (h : Simulation C A R F size) (hF : ∀ o r, F o r → ∃ r₁, o = .done r₁)
    (hR : R s t) {r₁ : ρ₁} (hn : C.after n s = .done r₁) :
    ∃ k r, A.after k t = .done r ∧ F (.done r₁) r := by
  obtain ⟨k, r, hk⟩ := h.done_of_done hR hn
  obtain ⟨m, r₂, hm, hFr⟩ := h.exists_done hF hR hk
  rw [Engine.done_unique hn hm]
  exact ⟨k, r, hk, hFr⟩

theorem exists_acted_of_le (hn : n ≤ (A.acts t).toNat) : ∃ k, A.acted k t = n := by
  cases n with
  | zero => exact ⟨0, rfl⟩
  | succ n =>
    refine ⟨1, ?_⟩
    rw [Engine.acted_one]
    have := Bool.toNat_le (A.acts t)
    omega

/-- Each number of actions that `C` comes to, `A` comes to as well, provided that `C` ends where
`A` does. -/
theorem exists_acted (h : Simulation C A R F size) (hF : ∀ o r, F o r → ∃ r₁, o = .done r₁)
    (hR : R s t) (n : Nat) : ∃ k, A.acted k t = C.acted n s := by
  induction n using Nat.strongRecOn generalizing s t with
  | ind n ih =>
    induction hm : size t using Nat.strongRecOn generalizing t with
    | ind m ihm =>
      cases hs : A.step t with
      | done r =>
        obtain ⟨_, ⟨j, rfl, hacts⟩, hFr⟩ := h.done hR hs
        obtain ⟨r₁, hr₁⟩ := hF _ _ hFr
        exact exists_acted_of_le (hacts ▸ Engine.acted_le_of_done hr₁ n)
      | next u =>
        rcases h.next hR hs with ⟨s', ⟨j, hj, hacts⟩, hR'⟩ | ⟨hacts, hlt, hR'⟩
        · by_cases hle : n ≤ j + 1
          · exact exists_acted_of_le (hacts ▸ Engine.acted_mono hle s)
          · obtain ⟨i, rfl⟩ := Nat.exists_eq_add_of_le (Nat.le_of_not_le hle)
            obtain ⟨k, hk⟩ := ih i (by omega) hR'
            exact ⟨k + 1, by rw [Engine.acted_succ_next hs, Engine.acted_add_next hj, hacts, hk]⟩
        · obtain ⟨k, hk⟩ := ihm _ (hm ▸ hlt) hR' rfl
          exact ⟨k + 1, by rw [Engine.acted_succ_next hs, hacts, hk]; exact Nat.zero_add _⟩

/-- Two engines that look the same at related moments show the same after any number of
actions. -/
theorem shows_iff (h : Simulation C A R F size) (hC : C.Quiet)
    (hview : ∀ s t, R s t → C.view s = A.view t)
    (hF : ∀ o r, F o r → ∃ r₁, o = .done r₁ ∧ C.viewEnd r₁ = A.viewEnd r) (hR : R s t) {v : ω} :
    C.Shows s n v ↔ A.Shows t n v := by
  have matched : ∀ k, C.Shows s (A.acted k t) (A.look (A.after k t)) := by
    intro k
    cases hk : A.after k t with
    | next t' =>
      obtain ⟨s', hs', hR'⟩ := h.arrives_next hR hk
      exact ⟨_, hs', hview s' t' hR'⟩
    | done r =>
      obtain ⟨o, ho, hFr⟩ := h.arrives_done hR hk
      obtain ⟨r₁, rfl, hr₁⟩ := hF o r hFr
      exact ⟨_, ho, hr₁⟩
  constructor
  · intro hshows
    have hdone : ∀ o r, F o r → ∃ r₁, o = .done r₁ := by
      intro o r hFr
      obtain ⟨r₁, ho, -⟩ := hF o r hFr
      exact ⟨r₁, ho⟩
    obtain ⟨_, ⟨j, -, hj⟩, -⟩ := id hshows
    obtain ⟨k, hk⟩ := h.exists_acted hdone hR j
    rw [hj] at hk
    exact ⟨_, ⟨k, rfl, hk⟩, hC.shows_unique (hk ▸ matched k) hshows⟩
  · rintro ⟨_, ⟨k, rfl, rfl⟩, rfl⟩
    exact matched k

end Simulation

end TapeLang
