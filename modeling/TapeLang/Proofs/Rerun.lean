import TapeLang.Proofs.Landing

/-! Running a walk again. A run without fault ends below the first cell, behind the text, or at a
closing bracket outside of all loops. Each of these is found again by the first step of another run,
which is then over: it only flushes the output, and says once more how the walk has ended. -/

namespace TapeLang

/-- Whether an event is what a walk notes about its own end. -/
def Event.endsWalk : Event → Bool
  | .walkHalted _ | .walkStopped _ => true
  | .belowStart | .parsed _ _ | .prepared _ _ | .machineHalted | .wrote _ => false

namespace Walk

variable {memory : Memory} {text : List Char} {reader : Reader} {writer : Writer} {w : Walk}
  {again : Bool} {room k : Nat} {c : Config}

/-- Outside of all loops such a walk goes no further: it is halted, behind its text or at a closing
bracket. -/
def Resting (w : Walk) : Prop :=
  w.Stuck ∨ w.world.halted = false ∧ w.code[w.position]? = some ']'

theorem resting_of_returned (hk : (engine memory).after k c = .done ⟨w, .ok again⟩) :
    w.Resting := by
  obtain ⟨n, c', -, hstep⟩ := Engine.exists_last_step hk
  obtain ⟨-, rfl, hend⟩ := (stepped memory c').returned hstep
  exact hend

theorem Resting.step (h : w.Resting) (memory : Memory) (room : Nat) :
    ∃ again, (engine memory).step ⟨w, false, [], room⟩ = .done ⟨w, .ok again⟩ := by
  rcases h with hstuck | ⟨hh, hc⟩
  · exact ⟨false, step_stuck hstuck⟩
  · exact ⟨w.world.cell != 0, step_closing hh hc⟩

theorem Resting.run (h : w.Resting) (memory : Memory) (room fuel : Nat) :
    w.run memory room (fuel + 1) = some ({ w with
      writer := w.writer.flush
      log := w.log ++ w.closingEvents }, none) := by
  obtain ⟨again, hstep⟩ := h.step memory room
  exact run_eq_some_iff.mpr ⟨_, Engine.after_succ_done hstep, rfl⟩

/-! ### What is noted -/

theorem filter_closingEvents (w : Walk) :
    w.closingEvents.filter Event.endsWalk = w.closingEvents := by
  unfold closingEvents
  split
  · rfl
  · split <;> rfl

theorem length_closingEvents_le (w : Walk) : w.closingEvents.length ≤ 1 := by
  unfold closingEvents
  split
  · exact Nat.le_refl 1
  · split
    · exact Nat.le_refl 1
    · exact Nat.zero_le 1

/-- While a text is walked, nothing is noted about the end of the walk. -/
theorem filter_log_of_returned
    (hk : (engine memory).after k ⟨start text reader writer, false, [], room⟩ =
      .done ⟨w, .ok again⟩) :
    w.log.filter Event.endsWalk = [] := by
  cases hh : w.world.halted with
  | true =>
    obtain ⟨p, hp⟩ := exists_haltsAt hk hh
    obtain ⟨-, -, hlog⟩ := hp.lands hk
    rw [hlog]
    rfl
  | false =>
    obtain ⟨hlog, -⟩ := lands_unhalted hk hh
    rw [hlog]
    rfl

/-- Whatever a run without fault has left behind, a second one ends after a single step and changes
nothing: it flushes once more, and notes once more what the first has noted about its end. -/
theorem run_again_idle {fuel : Nat}
    (h : (start text reader writer).run memory room fuel = some (w, none)) (memory' : Memory)
    (room' fuel' : Nat) :
    w.run memory' room' (fuel' + 1) = some ({ w with
      writer := { w.writer with flushes := w.writer.flushes + 1 }
      log := w.log ++ w.log.filter Event.endsWalk }, none) ∧
    (w.log.filter Event.endsWalk).length ≤ 1 := by
  obtain ⟨w', again, hk, rfl⟩ := exists_returned h
  have hrest : w'.Resting := resting_of_returned hk
  have hnoted : (w'.log ++ w'.closingEvents).filter Event.endsWalk = w'.closingEvents := by
    rw [List.filter_append, filter_log_of_returned hk, filter_closingEvents, List.nil_append]
  constructor
  · rw [hnoted]
    -- A flush and what is noted do not move the walk.
    exact Resting.run (w := { w' with
      writer := w'.writer.flush
      log := w'.log ++ w'.closingEvents }) hrest memory' room' fuel'
  · rw [hnoted]
    exact length_closingEvents_le w'

/-- A run that halts inside two loops, one that stops at a closing bracket, and one that ends behind
a text with an open loop, each of them followed by a second one. -/
theorem run_again_idle_ends :
    (∃ w w', (start "+[[<]]".toList {} {}).run (.below 2) 2 20 = some (w, none) ∧
      w.run (.below 2) 0 1 = some (w', none) ∧ w'.position = 6 ∧ w'.writer.flushes = 2 ∧
      w'.log = [.belowStart, .walkHalted 6, .walkHalted 6]) ∧
    (∃ w w', (start "+[.-]]".toList {} {}).run (.below 2) 1 20 = some (w, none) ∧
      w.run (.below 2) 0 1 = some (w', none) ∧ w'.position = 5 ∧ w'.writer = ⟨#[1], 2, false⟩ ∧
      w'.log = [.walkStopped 5, .walkStopped 5]) ∧
    ∃ w w', (start ",[.".toList (.ofBytes [7, 8]) {}).run (.below 2) 1 20 = some (w, none) ∧
      w.run (.below 2) 0 1 = some (w', none) ∧ w'.position = 4 ∧ w'.reader = .ofBytes [8] ∧
      w'.log = [] := by
  obtain ⟨w₁, h₁, hw₁⟩ : ∃ w, (start "+[[<]]".toList {} {}).run (.below 2) 2 20 = some (w, none) ∧
      w = ⟨"+[[<]]".toList.toArray, 6, 0, 2, ⟨#[1], -1⟩, {}, ⟨#[], 1, false⟩,
        [.belowStart, .walkHalted 6]⟩ := ⟨_, rfl, rfl⟩
  obtain ⟨w₂, h₂, hw₂⟩ : ∃ w, (start "+[.-]]".toList {} {}).run (.below 2) 1 20 = some (w, none) ∧
      w = ⟨"+[.-]]".toList.toArray, 5, 0, 1, ⟨#[0], 0⟩, {}, ⟨#[1], 1, false⟩,
        [.walkStopped 5]⟩ := ⟨_, rfl, rfl⟩
  obtain ⟨w₃, h₃, hw₃⟩ : ∃ w, (start ",[.".toList (.ofBytes [7, 8]) {}).run (.below 2) 1 20 =
        some (w, none) ∧
      w = ⟨",[.".toList.toArray, 4, 0, 1, ⟨#[7], 0⟩, .ofBytes [8], ⟨#[7], 1, false⟩, []⟩ :=
    ⟨_, rfl, rfl⟩
  have hagain₁ := (run_again_idle h₁ (.below 2) 0 0).1
  have hagain₂ := (run_again_idle h₂ (.below 2) 0 0).1
  have hagain₃ := (run_again_idle h₃ (.below 2) 0 0).1
  subst hw₁ hw₂ hw₃
  exact ⟨⟨_, _, h₁, hagain₁, rfl, rfl, rfl⟩, ⟨_, _, h₂, hagain₂, rfl, rfl, rfl⟩,
    _, _, h₃, hagain₃, rfl, rfl, rfl⟩

end Walk

end TapeLang
