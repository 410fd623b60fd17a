import TapeLang.Prepared
import TapeLang.Proofs.Engine

/-! The steps of a machine. As long as the pointer is on the tape a primitive always does its work,
and only then does the new pointer decide whether the run goes on, halts or overflows. -/

namespace TapeLang

namespace Machine

def Config.acts (c : Config) : Bool :=
  match c.todo with
  | .cons _ _ :: _ => true
  | _ => false

def engine : Engine Config Ended Machine where
  step := Config.step
  acts := Config.acts
  view := Config.machine
  viewEnd := Ended.machine

/-- The pointer is on the tape. -/
structure Safe (m : Machine) : Prop where
  low : 0 ≤ m.pointer
  high : m.pointer < m.capacity

def cell (m : Machine) : Cell := m.cells.getD m.pointer.toNat 0

def setCell (m : Machine) (c : Cell) : Machine :=
  { m with cells := m.cells.setIfInBounds m.pointer.toNat c }

/-- What a primitive does to a machine, wherever the pointer goes. -/
def act (m : Machine) : Prim → Machine
  | .increment => m.setCell (m.cell + 1)
  | .decrement => m.setCell (m.cell - 1)
  | .right => { m with pointer := m.pointer + 1 }
  | .left => { m with pointer := m.pointer - 1 }
  | .output => { m with writer := m.writer.write m.cell }
  | .input => { m.setCell m.reader.read.1 with reader := m.reader.read.2 }

/-- How a run goes on with the pointer where it is. -/
def settle (m : Machine) : Step Machine Ended :=
  if m.pointer < 0 then .done ⟨m, .halted⟩
  else if m.capacity ≤ m.pointer then .done ⟨m, .overflow m.pointer m.capacity⟩
  else .next m

variable {m : Machine} {p : Prim} {b body : Block Prim} {rest : List (Block Prim)}

@[simp] theorem capacity_setCell (m : Machine) (c : Cell) :
    (m.setCell c).capacity = m.capacity := by
  simp [setCell, capacity]

@[simp] theorem capacity_act (m : Machine) (p : Prim) : (m.act p).capacity = m.capacity := by
  cases p with
  | increment => exact capacity_setCell m _
  | decrement => exact capacity_setCell m _
  | right => rfl
  | left => rfl
  | output => rfl
  | input => exact capacity_setCell m _

theorem Safe.setCell (h : m.Safe) (c : Cell) : (m.setCell c).Safe :=
  ⟨h.low, by rw [capacity_setCell]; exact h.high⟩

theorem Safe.lt_size (h : m.Safe) : m.pointer.toNat < m.cells.size := by
  obtain ⟨hlow, hhigh⟩ := h
  unfold capacity at hhigh
  omega

theorem settle_of_safe (h : m.Safe) : m.settle = .next m := by
  obtain ⟨hlow, hhigh⟩ := h
  rw [settle, if_neg (by omega), if_neg (by omega)]

theorem update_eq (h : m.Safe) (f : Cell → Cell) : m.update f = .next (m.setCell (f m.cell)) := by
  have hneg : ¬ m.pointer < 0 := Int.not_lt.mpr h.low
  have hlt := h.lt_size
  simp only [update, if_neg hneg, hlt, dite_true, setCell, cell]
  simp [Array.getD, hlt, Array.setIfInBounds]

theorem current?_eq (h : m.Safe) : m.current? = some m.cell := by
  rw [current?, if_neg (Int.not_lt.mpr h.low), cell, Array.getD_eq_getD_getElem?,
    Array.getElem?_eq_getElem h.lt_size, Option.getD_some]

/-- On the tape a primitive does its work, and the pointer decides how the run goes on. -/
theorem perform_eq (h : m.Safe) (p : Prim) : m.perform p = (m.act p).settle := by
  have hlow := h.low
  have hhigh := h.high
  cases p with
  | increment => exact (update_eq h (· + 1)).trans (settle_of_safe (h.setCell _)).symm
  | decrement => exact (update_eq h (· - 1)).trans (settle_of_safe (h.setCell _)).symm
  | right =>
    have hneg : ¬ (m.act .right).pointer < 0 := by
      show ¬ m.pointer + 1 < 0
      omega
    rw [settle, if_neg hneg]
    rfl
  | left =>
    have hcap : ¬ ((m.act .left).capacity : Int) ≤ (m.act .left).pointer := by
      show ¬ (m.capacity : Int) ≤ m.pointer - 1
      omega
    rw [settle, if_neg hcap]
    rfl
  | output =>
    simp only [perform, current?_eq h]
    exact (settle_of_safe (m := m.act .output) ⟨hlow, hhigh⟩).symm
  | input =>
    have hread : ({ m with reader := m.reader.read.2 } : Machine).Safe := ⟨hlow, hhigh⟩
    have hact : (m.act .input).Safe := ⟨hlow, by rw [capacity_act]; exact hhigh⟩
    exact (update_eq hread fun _ => m.reader.read.1).trans (settle_of_safe hact).symm

/-! ### Single steps -/

theorem step_empty : engine.step ⟨m, []⟩ = .done ⟨m, .completed⟩ := rfl

theorem step_nil : engine.step ⟨m, .nil :: rest⟩ = .next ⟨m, rest⟩ := rfl

theorem step_pass (h : m.Safe) (hz : m.cell = 0) :
    engine.step ⟨m, .loop body b :: rest⟩ = .next ⟨m, b :: rest⟩ := by
  simp only [engine, Config.step, current?_eq h, if_pos hz]

theorem step_again (h : m.Safe) (hz : m.cell ≠ 0) :
    engine.step ⟨m, .loop body b :: rest⟩ = .next ⟨m, body :: .loop body b :: rest⟩ := by
  simp only [engine, Config.step, current?_eq h, if_neg hz]

theorem step_next (h : m.Safe) (hs : (m.act p).Safe) :
    engine.step ⟨m, .cons p b :: rest⟩ = .next ⟨m.act p, b :: rest⟩ := by
  simp only [engine, Config.step, perform_eq h, settle_of_safe hs]

theorem step_halt (h : m.Safe) (hs : (m.act p).pointer < 0) :
    engine.step ⟨m, .cons p b :: rest⟩ = .done ⟨m.act p, .halted⟩ := by
  simp only [engine, Config.step, perform_eq h, settle, if_pos hs]

theorem step_overflow (h : m.Safe) (hs : m.capacity ≤ (m.act p).pointer) :
    engine.step ⟨m, .cons p b :: rest⟩ =
      .done ⟨m.act p, .overflow (m.act p).pointer m.capacity⟩ := by
  have hneg : ¬ (m.act p).pointer < 0 := by omega
  simp only [engine, Config.step, perform_eq h, settle, capacity_act, if_neg hneg, if_pos hs]

/-- The three ways in which an instruction goes on. -/
theorem step_cons_cases (h : m.Safe) (p : Prim) (b : Block Prim) (rest : List (Block Prim)) :
    ((m.act p).Safe ∧ engine.step ⟨m, .cons p b :: rest⟩ = .next ⟨m.act p, b :: rest⟩) ∨
    ((m.act p).pointer < 0 ∧ engine.step ⟨m, .cons p b :: rest⟩ = .done ⟨m.act p, .halted⟩) ∨
    ((m.capacity : Int) ≤ (m.act p).pointer ∧ engine.step ⟨m, .cons p b :: rest⟩ =
      .done ⟨m.act p, .overflow (m.act p).pointer m.capacity⟩) := by
  by_cases hneg : (m.act p).pointer < 0
  · exact .inr (.inl ⟨hneg, step_halt h hneg⟩)
  · by_cases hfull : (m.capacity : Int) ≤ (m.act p).pointer
    · exact .inr (.inr ⟨hfull, step_overflow h hfull⟩)
    · have hsafe : (m.act p).Safe := ⟨by omega, by rw [capacity_act]; omega⟩
      exact .inl ⟨hsafe, step_next h hsafe⟩

theorem engine_quiet : engine.Quiet := by
  rintro ⟨m, todo⟩ hacts
  match todo with
  | [] => rfl
  | .nil :: rest => rfl
  | .cons p b :: rest => contradiction
  | .loop body b :: rest =>
    simp only [engine, Config.step]
    split
    · rfl
    · split <;> rfl

/-- Where there is a tape, a machine starts with it. -/
theorem start?_of_hasTape {memory : Memory} {C : Nat} (h : memory.HasTape C) {reader : Reader}
    {writer : Writer} : start? memory C reader writer = .ok (start C reader writer) := by
  rcases fixedCells_cases memory C with ⟨-, hcells⟩ | ⟨hnot, -⟩
  · rw [start?, hcells]
    rfl
  · exact absurd h hnot

end Machine

/-! ### Runs of prepared programs -/

namespace Prepared

/-- A prepared program on a new tape ends with `e`. -/
def EndsWith (p : Prepared) (reader : Reader) (writer : Writer) (e : Machine.Ended) : Prop :=
  ∃ fuel, Machine.run fuel p.code (Machine.start p.capacity reader writer) = some e

variable {p : Prepared} {reader : Reader} {writer : Writer} {e : Machine.Ended}

/-- Where there is a tape, the program is run on it. -/
theorem run_eq {memory : Memory} (h : memory.HasTape p.capacity) (fuel : Nat) (reader : Reader)
    (writer : Writer) : p.run memory fuel reader writer =
      .ok (Machine.run fuel p.code (Machine.start p.capacity reader writer)) := by
  rw [run, Machine.start?_of_hasTape h]
  rfl

theorem endsWith_iff_run {memory : Memory} (h : memory.HasTape p.capacity) :
    p.EndsWith reader writer e ↔ ∃ fuel, p.run memory fuel reader writer = .ok (some e) := by
  refine exists_congr fun fuel => ?_
  rw [run_eq h]
  exact Except.ok.injEq _ _ ▸ Iff.rfl

theorem endsWith_iff_after : p.EndsWith reader writer e ↔
    ∃ k e', Machine.engine.after k ⟨Machine.start p.capacity reader writer, [p.code]⟩ = .done e' ∧
      Machine.finish e' = e := by
  refine exists_congr fun fuel => ?_
  rw [Machine.run, Option.map_eq_some_iff]
  exact exists_congr fun e' => and_congr_left fun _ => Machine.engine.runFor_eq_some_iff

theorem EndsWith.unique {e' : Machine.Ended} (h : p.EndsWith reader writer e)
    (h' : p.EndsWith reader writer e') : e = e' := by
  obtain ⟨j, e₁, hj, rfl⟩ := endsWith_iff_after.mp h
  obtain ⟨k, e₂, hk, rfl⟩ := endsWith_iff_after.mp h'
  rw [Engine.done_unique hj hk]

end Prepared

end TapeLang
