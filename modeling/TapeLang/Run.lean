/-! Runs of a step function: a step leads to the next configuration or ends the run. `runFor`
takes at most a given number of steps, and an answer once found stays the answer with more. -/

namespace TapeLang

/-- What one step does: it leads to another configuration or ends the run with a result. -/
inductive Step (σ ρ : Type) where
  | next (s : σ)
  | done (r : ρ)
deriving Repr

/-- The result of the run from `s` when it ends within `n` steps. -/
@[specialize] def runFor {σ ρ : Type} (step : σ → Step σ ρ) : Nat → σ → Option ρ
  | 0, _ => none
  | n + 1, s =>
    match step s with
    | .next s' => runFor step n s'
    | .done r => some r

variable {σ ρ : Type} {step : σ → Step σ ρ}

theorem runFor_next {n : Nat} {s s' : σ} (h : step s = .next s') :
    runFor step (n + 1) s = runFor step n s' := by
  simp [runFor, h]

theorem runFor_done {n : Nat} {s : σ} {r : ρ} (h : step s = .done r) :
    runFor step (n + 1) s = some r := by
  simp [runFor, h]

/-- More steps keep a result. -/
theorem runFor_mono {n m : Nat} {s : σ} {r : ρ} (h : runFor step n s = some r) (hle : n ≤ m) :
    runFor step m s = some r := by
  induction n generalizing m s with
  | zero => simp [runFor] at h
  | succ n ih =>
    obtain ⟨m, rfl⟩ : ∃ k, m = k + 1 := ⟨m - 1, by omega⟩
    cases hs : step s with
    | next s' =>
      rw [runFor_next hs] at h ⊢
      exact ih h (by omega)
    | done r' =>
      rw [runFor_done hs] at h ⊢
      exact h

/-- Two step counts that both find a result find the same one. -/
theorem runFor_unique {n m : Nat} {s : σ} {r r' : ρ} (h : runFor step n s = some r)
    (h' : runFor step m s = some r') : r = r' := by
  have h1 := runFor_mono h (Nat.le_max_left n m)
  have h2 := runFor_mono h' (Nat.le_max_right n m)
  exact Option.some.inj (h1.symm.trans h2)

end TapeLang
