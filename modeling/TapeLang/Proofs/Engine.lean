import TapeLang.Run

/-! Engines: step functions whose runs are counted in steps and in actions. Two engines that carry
out the same program take different numbers of steps between two actions, so their runs are compared
by what each of them shows after a number of actions. -/

namespace TapeLang

/-- A step function, the configurations whose next step is an action, and what is seen of a
configuration and of a result. -/
structure Engine (σ ρ ω : Type) where
  step : σ → Step σ ρ
  acts : σ → Bool
  view : σ → ω
  viewEnd : ρ → ω

namespace Engine

variable {σ ρ ω : Type} (E : Engine σ ρ ω)

/-- What is seen at a moment of a run. -/
def look : Step σ ρ → ω
  | .next s => E.view s
  | .done r => E.viewEnd r

/-- Where the run from a configuration is after a number of steps. A run that has ended stays at
its result. -/
def after : Nat → σ → Step σ ρ
  | 0, s => .next s
  | k + 1, s =>
    match E.step s with
    | .next t => after k t
    | .done r => .done r

/-- How many of the first steps of a run are actions. -/
def acted : Nat → σ → Nat
  | 0, _ => 0
  | k + 1, s =>
    (E.acts s).toNat +
      match E.step s with
      | .next t => acted k t
      | .done _ => 0

/-- The run from `s` is at `o` after `n` actions. -/
def Arrives (s : σ) (n : Nat) (o : Step σ ρ) : Prop := ∃ k, E.after k s = o ∧ E.acted k s = n

/-- The run from `s` is at `t` after `n` actions, and has taken a step. -/
def Advances (s : σ) (n : Nat) (t : σ) : Prop :=
  ∃ k, E.after (k + 1) s = .next t ∧ E.acted (k + 1) s = n

/-- The run from `s` shows `v` after `n` actions. -/
def Shows (s : σ) (n : Nat) (v : ω) : Prop := ∃ o, E.Arrives s n o ∧ E.look o = v

/-- Only actions change what is seen. -/
def Quiet : Prop := ∀ s, E.acts s = false → E.look (E.step s) = E.view s

variable {E} {s t u : σ} {r : ρ} {j k m n : Nat}

/-! ### Counting steps -/

theorem after_succ_next (h : E.step s = .next t) : E.after (k + 1) s = E.after k t := by
  simp only [after, h]

theorem after_succ_done (h : E.step s = .done r) : E.after (k + 1) s = .done r := by
  simp only [after, h]

theorem acted_succ_next (h : E.step s = .next t) :
    E.acted (k + 1) s = (E.acts s).toNat + E.acted k t := by
  simp only [acted, h]

theorem acted_succ_done (h : E.step s = .done r) : E.acted (k + 1) s = (E.acts s).toNat := by
  simp only [acted, h, Nat.add_zero]

theorem after_one : E.after 1 s = E.step s := by
  cases h : E.step s with
  | next t => exact after_succ_next h
  | done r => exact after_succ_done h

theorem acted_one : E.acted 1 s = (E.acts s).toNat := by
  cases h : E.step s with
  | next t => exact acted_succ_next h
  | done r => exact acted_succ_done h

def afterFrom (E : Engine σ ρ ω) (k : Nat) : Step σ ρ → Step σ ρ
  | .next t => E.after k t
  | .done r => .done r

def actedFrom (E : Engine σ ρ ω) (k : Nat) : Step σ ρ → Nat
  | .next t => E.acted k t
  | .done _ => 0

theorem after_add (j k : Nat) (s : σ) : E.after (j + k) s = E.afterFrom k (E.after j s) := by
  induction j generalizing s with
  | zero => rw [Nat.zero_add, after, afterFrom]
  | succ j ih =>
    rw [Nat.succ_add]
    cases hs : E.step s with
    | next u => rw [after_succ_next hs, after_succ_next hs, ih]
    | done r => rw [after_succ_done hs, after_succ_done hs, afterFrom]

theorem acted_add (j k : Nat) (s : σ) :
    E.acted (j + k) s = E.acted j s + E.actedFrom k (E.after j s) := by
  induction j generalizing s with
  | zero => rw [Nat.zero_add, acted, Nat.zero_add, after, actedFrom]
  | succ j ih =>
    rw [Nat.succ_add]
    cases hs : E.step s with
    | next u =>
      rw [acted_succ_next hs, acted_succ_next hs, after_succ_next hs, ih, Nat.add_assoc]
    | done r =>
      rw [acted_succ_done hs, acted_succ_done hs, after_succ_done hs, actedFrom, Nat.add_zero]

theorem after_add_next (h : E.after j s = .next t) : E.after (j + k) s = E.after k t := by
  rw [after_add, h, afterFrom]

theorem after_add_done (h : E.after j s = .done r) : E.after (j + k) s = .done r := by
  rw [after_add, h, afterFrom]

theorem after_then_step {o : Step σ ρ} (h : E.after j s = .next t) (hstep : E.step t = o) :
    E.after (j + 1) s = o := by
  rw [after_add_next h, after_one, hstep]

theorem acted_add_next (h : E.after j s = .next t) :
    E.acted (j + k) s = E.acted j s + E.acted k t := by
  rw [acted_add, h, actedFrom]

theorem acted_add_done (h : E.after j s = .done r) : E.acted (j + k) s = E.acted j s := by
  rw [acted_add, h, actedFrom, Nat.add_zero]

theorem acted_mono (h : j ≤ k) (s : σ) : E.acted j s ≤ E.acted k s := by
  obtain ⟨m, rfl⟩ := Nat.exists_eq_add_of_le h
  rw [acted_add]
  exact Nat.le_add_right _ _

theorem acted_le_of_done (h : E.after j s = .done r) (k : Nat) : E.acted k s ≤ E.acted j s := by
  by_cases hk : k ≤ j
  · exact acted_mono hk s
  · obtain ⟨m, rfl⟩ := Nat.exists_eq_add_of_le (Nat.le_of_not_le hk)
    exact Nat.le_of_eq (acted_add_done h)

theorem done_unique {r' : ρ} (h : E.after j s = .done r) (h' : E.after k s = .done r') :
    r = r' := by
  have h1 := after_add_done (k := k) h
  have h2 := after_add_done (k := j) h'
  rw [Nat.add_comm, h2] at h1
  exact (Step.done.inj h1).symm

/-- What a step keeps holds at every moment of a run. -/
theorem after_next_of_step {P : σ → Prop} (hstep : ∀ {s t}, P s → E.step s = .next t → P t)
    (hs : P s) (h : E.after k s = .next t) : P t := by
  induction k generalizing s with
  | zero =>
    cases h
    exact hs
  | succ k ih =>
    cases hk : E.step s with
    | next u =>
      rw [after_succ_next hk] at h
      exact ih (hstep hs hk) h
    | done r =>
      rw [after_succ_done hk] at h
      contradiction

/-- The same of what a step keeps also when it ends the run. -/
theorem after_of_step {P : Step σ ρ → Prop} (hstep : ∀ {s}, P (.next s) → P (E.step s))
    (hs : P (.next s)) (k : Nat) : P (E.after k s) := by
  induction k generalizing s with
  | zero => exact hs
  | succ k ih =>
    have hnext := hstep hs
    cases hk : E.step s with
    | next t =>
      rw [hk] at hnext
      rw [after_succ_next hk]
      exact ih hnext
    | done r =>
      rw [hk] at hnext
      rw [after_succ_done hk]
      exact hnext

/-- What each step only adds to is added to from any moment to any later one. -/
theorem look_after_mono {R : ω → ω → Prop} (hrefl : ∀ v, R v v)
    (htrans : ∀ {u v w}, R u v → R v w → R u w) (hstep : ∀ s, R (E.view s) (E.look (E.step s)))
    (hjk : j ≤ k) (s : σ) : R (E.look (E.after j s)) (E.look (E.after k s)) := by
  obtain ⟨n, rfl⟩ := Nat.exists_eq_add_of_le hjk
  rw [after_add]
  cases E.after j s with
  | next t =>
    apply after_of_step (P := fun o => R (E.view t) (E.look o))
    · intro u hu
      exact htrans hu (hstep u)
    · exact hrefl _
  | done r => exact hrefl _

/-- A run that has ended has taken a last step. -/
theorem exists_last_step (h : E.after k s = .done r) :
    ∃ n t, E.after n s = .next t ∧ E.step t = .done r := by
  induction k generalizing s with
  | zero => contradiction
  | succ k ih =>
    cases hk : E.step s with
    | next u =>
      rw [after_succ_next hk] at h
      obtain ⟨n, t, hn, ht⟩ := ih h
      exact ⟨n + 1, t, (after_succ_next hk).trans hn, ht⟩
    | done r' =>
      rw [after_succ_done hk] at h
      cases h
      exact ⟨0, s, rfl, hk⟩

/-- What does not hold at the start and holds later has come about by some step. -/
theorem exists_change {P : σ → Prop} (h : E.after k s = .next t) (hs : ¬ P s) (ht : P t) :
    ∃ n u v, E.after n s = .next u ∧ E.step u = .next v ∧ ¬ P u ∧ P v := by
  induction k generalizing s with
  | zero =>
    cases h
    exact absurd ht hs
  | succ k ih =>
    cases hk : E.step s with
    | next u =>
      by_cases hu : P u
      · exact ⟨0, s, u, rfl, hk, hs, hu⟩
      · rw [after_succ_next hk] at h
        obtain ⟨n, u', v, hn, hstep⟩ := ih h hu
        exact ⟨n + 1, u', v, (after_succ_next hk).trans hn, hstep⟩
    | done r =>
      rw [after_succ_done hk] at h
      contradiction

theorem runFor_eq_some_iff (E : Engine σ ρ ω) :
    runFor E.step k s = some r ↔ E.after k s = .done r := by
  induction k generalizing s with
  | zero => simp [runFor, after]
  | succ k ih =>
    cases hs : E.step s with
    | next t => rw [runFor_next hs, after_succ_next hs, ih]
    | done r' => rw [runFor_done hs, after_succ_done hs, Option.some.injEq, Step.done.injEq]

/-! ### Arriving -/

theorem Arrives.refl (E : Engine σ ρ ω) (s : σ) : E.Arrives s 0 (.next s) := ⟨0, rfl, rfl⟩

theorem Arrives.trans {o : Step σ ρ} (h : E.Arrives s m (.next t)) (h' : E.Arrives t n o) :
    E.Arrives s (m + n) o := by
  obtain ⟨j, hj, rfl⟩ := h
  obtain ⟨k, rfl, rfl⟩ := h'
  exact ⟨j + k, after_add_next hj, acted_add_next hj⟩

/-- A run that passes `t` ends as the run from `t` does. -/
theorem Arrives.done_iff (h : E.Arrives s n (.next t)) :
    (∃ k, E.after k s = .done r) ↔ ∃ k, E.after k t = .done r := by
  obtain ⟨j, hj, -⟩ := h
  constructor
  · rintro ⟨k, hk⟩
    refine ⟨k, ?_⟩
    rw [← after_add_next hj, Nat.add_comm]
    exact after_add_done hk
  · rintro ⟨k, hk⟩
    exact ⟨j + k, (after_add_next hj).trans hk⟩

/-- A quiet stretch before others does not count. -/
theorem Arrives.quiet {o : Step σ ρ} (h : E.Arrives s 0 (.next t)) (h' : E.Arrives t n o) :
    E.Arrives s n o := by
  have := h.trans h'
  rwa [Nat.zero_add] at this

theorem Arrives.of_step {o : Step σ ρ} (h : E.step s = o) : E.Arrives s (E.acts s).toNat o :=
  ⟨1, after_one.trans h, acted_one⟩

theorem Arrives.of_quiet_step {o : Step σ ρ} (h : E.step s = o) (hacts : E.acts s = false) :
    E.Arrives s 0 o := by
  have := Arrives.of_step h
  rwa [hacts] at this

theorem Advances.of_step (h : E.step s = .next t) : E.Advances s (E.acts s).toNat t :=
  ⟨0, after_succ_next h, acted_one⟩

theorem Advances.of_quiet_step (h : E.step s = .next t) (hacts : E.acts s = false) :
    E.Advances s 0 t :=
  ⟨0, after_succ_next h, by rw [acted_one, hacts]; rfl⟩

theorem Advances.of_action (h : E.step s = .next t) (hacts : E.acts s = true) :
    E.Advances s 1 t :=
  ⟨0, after_succ_next h, by rw [acted_one, hacts]; rfl⟩

theorem Advances.arrives (h : E.Advances s n t) : E.Arrives s n (.next t) := by
  obtain ⟨k, hk, hn⟩ := h
  exact ⟨k + 1, hk, hn⟩

theorem Arrives.quiet_advances (h : E.Arrives s 0 (.next t)) (h' : E.Advances t n u) :
    E.Advances s n u := by
  obtain ⟨j, hj, hj0⟩ := h
  obtain ⟨k, hk, rfl⟩ := h'
  exact ⟨j + k, by rw [Nat.add_assoc, after_add_next hj, hk],
    by rw [Nat.add_assoc, acted_add_next hj, hj0, Nat.zero_add]⟩

theorem Advances.quiet (h : E.Advances s n t) (h' : E.Arrives t 0 (.next u)) :
    E.Advances s n u := by
  obtain ⟨j, hj, rfl⟩ := h
  obtain ⟨k, hk, hk0⟩ := h'
  exact ⟨j + k, by rw [Nat.add_right_comm, after_add_next hj, hk],
    by rw [Nat.add_right_comm, acted_add_next hj, hk0, Nat.add_zero]⟩

/-! ### Quiet engines -/

/-- Steps without action change nothing that is seen. -/
theorem Quiet.look_after (hE : E.Quiet) (h : E.acted k s = 0) :
    E.look (E.after k s) = E.view s := by
  induction k generalizing s with
  | zero => rfl
  | succ k ih =>
    have hacts : E.acts s = false := by
      have hle : E.acted 1 s ≤ E.acted (k + 1) s := acted_mono (by omega) s
      rw [acted_one, h] at hle
      cases hb : E.acts s with
      | false => rfl
      | true => rw [hb] at hle; contradiction
    have hlook := hE s hacts
    cases hs : E.step s with
    | next t =>
      rw [acted_succ_next hs, hacts] at h
      rw [hs] at hlook
      rw [after_succ_next hs, ih (by simpa using h)]
      exact hlook
    | done r =>
      rw [hs] at hlook
      rw [after_succ_done hs]
      exact hlook

/-- What is seen depends on the number of actions alone. -/
theorem Quiet.look_eq (hE : E.Quiet) (hle : j ≤ k) (h : E.acted j s = E.acted k s) :
    E.look (E.after j s) = E.look (E.after k s) := by
  obtain ⟨m, rfl⟩ := Nat.exists_eq_add_of_le hle
  cases ha : E.after j s with
  | next t =>
    rw [acted_add_next ha] at h
    rw [after_add_next ha, hE.look_after (by omega)]
    rfl
  | done r => rw [after_add_done ha]

theorem Quiet.shows_unique {v v' : ω} (hE : E.Quiet) (h : E.Shows s n v) (h' : E.Shows s n v') :
    v = v' := by
  obtain ⟨_, ⟨j, rfl, hj⟩, rfl⟩ := h
  obtain ⟨_, ⟨k, rfl, hk⟩, rfl⟩ := h'
  rcases Nat.le_total j k with hle | hle
  · exact hE.look_eq hle (hj.trans hk.symm)
  · exact (hE.look_eq hle (hk.trans hj.symm)).symm

end Engine

end TapeLang
