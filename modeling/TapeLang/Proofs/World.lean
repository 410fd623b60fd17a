import TapeLang.Block
import TapeLang.Channel
import TapeLang.Tape
import TapeLang.Proofs.Engine

/-! The meaning of a block on a growable tape. `Executes` says what a block does, loop by loop: a
loop repeats its body while the cell is not zero, and a pointer below the first cell ends
everything. `World.engine` does the same one step at a time, with a list of the blocks still to be
carried out. -/

namespace TapeLang

theorem Tape.size_move (t : Tape) (delta : Int) :
    (t.move delta).1.cells.size =
      if t.pointer + delta < 0 then t.cells.size
      else max t.cells.size ((t.pointer + delta).toNat + 1) := by
  unfold move
  simp only
  split
  · rfl
  · exact size_extend _ _

/-- What a program on a growable tape acts on. -/
structure World where
  tape : Tape := {}
  reader : Reader := {}
  writer : Writer := {}
deriving Repr, DecidableEq

namespace World

def halted (s : World) : Bool := s.tape.halted

def cell (s : World) : Cell := s.tape.get s.tape.pointer.toNat

def setCell (s : World) (c : Cell) : World :=
  { s with tape := s.tape.put s.tape.pointer.toNat c }

def move (s : World) (delta : Int) : World := { s with tape := (s.tape.move delta).1 }

/-- What a primitive does. -/
def perform (s : World) : Prim → World
  | .increment => s.setCell (s.cell + 1)
  | .decrement => s.setCell (s.cell - 1)
  | .right => s.move 1
  | .left => s.move (-1)
  | .output => { s with writer := s.writer.write s.cell }
  | .input => { s.setCell s.reader.read.1 with reader := s.reader.read.2 }

/-- The world at the end of a run, which flushes the output once. -/
def flushed (s : World) : World := { s with writer := s.writer.flush }

/-- The pointer is not beyond the cells that exist. -/
def Sound (s : World) : Prop := s.tape.pointer < s.tape.cells.size

theorem halted_iff {s : World} : s.halted = true ↔ s.tape.pointer < 0 := decide_eq_true_iff

theorem not_halted_iff {s : World} : s.halted = false ↔ 0 ≤ s.tape.pointer := by
  simp [halted, Tape.halted]

@[simp] theorem pointer_setCell (s : World) (c : Cell) :
    (s.setCell c).tape.pointer = s.tape.pointer := rfl

theorem Sound.setCell {s : World} (h : s.Sound) (c : Cell) : (s.setCell c).Sound := by
  unfold Sound at *
  rw [pointer_setCell]
  simp only [World.setCell, Tape.size_put]
  omega

theorem Sound.move (s : World) (delta : Int) : (s.move delta).Sound := by
  simp only [Sound, World.move, Tape.pointer_move, Tape.size_move]
  split <;> omega

/-- A primitive keeps the pointer within the cells, since a move makes the cell it leads to. -/
theorem Sound.perform {s : World} (h : s.Sound) (p : Prim) : (s.perform p).Sound := by
  cases p with
  | increment => exact h.setCell _
  | decrement => exact h.setCell _
  | right => exact Sound.move s 1
  | left => exact Sound.move s (-1)
  | output => exact h
  | input => exact h.setCell _

end World

/-- Carrying out a block in the world `s` ends with the world `s'`. In a world whose pointer is
below the first cell nothing is done any more. -/
inductive Executes : Block Prim → World → World → Prop
  | halted {b : Block Prim} {s : World} : s.halted = true → Executes b s s
  | nil {s : World} : Executes .nil s s
  | cons {p : Prim} {b : Block Prim} {s s' : World} :
      s.halted = false → Executes b (s.perform p) s' → Executes (.cons p b) s s'
  | pass {body b : Block Prim} {s s' : World} :
      s.halted = false → s.cell = 0 → Executes b s s' → Executes (.loop body b) s s'
  | again {body b : Block Prim} {s t s' : World} :
      s.halted = false → s.cell ≠ 0 → Executes body s t → Executes (.loop body b) t s' →
      Executes (.loop body b) s s'

theorem Executes.eq_of_halted {b : Block Prim} {s s' : World} (hs : s.halted = true)
    (h : Executes b s s') : s' = s := by
  cases h with
  | halted => rfl
  | nil => rfl
  | cons hn => rw [hs] at hn; contradiction
  | pass hn => rw [hs] at hn; contradiction
  | again hn => rw [hs] at hn; contradiction

namespace World

/-- A world in which blocks are carried out, innermost first. -/
structure Config where
  world : World
  todo : List (Block Prim)

/-- One step: an instruction, the test of a loop, or the end of a block. -/
def Config.step (c : Config) : Step Config World :=
  if c.world.halted then .done c.world
  else
    match c.todo with
    | [] => .done c.world
    | .nil :: rest => .next ⟨c.world, rest⟩
    | .cons p b :: rest => .next ⟨c.world.perform p, b :: rest⟩
    | .loop body b :: rest =>
      if c.world.cell = 0 then .next ⟨c.world, b :: rest⟩
      else .next ⟨c.world, body :: .loop body b :: rest⟩

def Config.acts (c : Config) : Bool :=
  match c.todo with
  | .cons _ _ :: _ => !c.world.halted
  | _ => false

def engine : Engine Config World World where
  step := Config.step
  acts := Config.acts
  view := Config.world
  viewEnd := id

variable {s s' : World} {b body : Block Prim} {p : Prim} {todo rest : List (Block Prim)}

theorem step_halted (h : s.halted = true) : engine.step ⟨s, todo⟩ = .done s := by
  simp [engine, Config.step, h]

theorem step_empty : engine.step ⟨s, []⟩ = .done s := by
  simp [engine, Config.step]

theorem step_nil (h : s.halted = false) : engine.step ⟨s, .nil :: rest⟩ = .next ⟨s, rest⟩ := by
  simp [engine, Config.step, h]

theorem step_cons (h : s.halted = false) :
    engine.step ⟨s, .cons p b :: rest⟩ = .next ⟨s.perform p, b :: rest⟩ := by
  simp [engine, Config.step, h]

theorem step_pass (h : s.halted = false) (hc : s.cell = 0) :
    engine.step ⟨s, .loop body b :: rest⟩ = .next ⟨s, b :: rest⟩ := by
  simp [engine, Config.step, h, hc]

theorem step_again (h : s.halted = false) (hc : s.cell ≠ 0) :
    engine.step ⟨s, .loop body b :: rest⟩ = .next ⟨s, body :: .loop body b :: rest⟩ := by
  simp [engine, Config.step, h, hc]

/-- A run ends only when the world is halted or nothing is left to do. -/
theorem step_done {c : Config} (h : engine.step c = .done s') :
    s' = c.world ∧ (s'.halted = true ∨ c.todo = []) := by
  obtain ⟨s, todo⟩ := c
  cases hs : s.halted with
  | true =>
    rw [step_halted hs] at h
    cases h
    exact ⟨rfl, .inl hs⟩
  | false =>
    match todo with
    | [] =>
      rw [step_empty] at h
      cases h
      exact ⟨rfl, .inr rfl⟩
    | .nil :: rest => rw [step_nil hs] at h; contradiction
    | .cons p b :: rest => rw [step_cons hs] at h; contradiction
    | .loop body b :: rest =>
      by_cases hz : s.cell = 0
      · rw [step_pass hs hz] at h; contradiction
      · rw [step_again hs hz] at h; contradiction

theorem acts_cons (h : s.halted = false) : engine.acts ⟨s, .cons p b :: rest⟩ = true := by
  simp [engine, Config.acts, h]

theorem acts_loop : engine.acts ⟨s, .loop body b :: rest⟩ = false := rfl

theorem acts_halted (h : s.halted = true) : engine.acts ⟨s, todo⟩ = false := by
  simp only [engine, Config.acts, h]
  split <;> rfl

theorem engine_quiet : engine.Quiet := by
  rintro ⟨s, todo⟩ hacts
  cases hs : s.halted with
  | true => rw [step_halted hs]; rfl
  | false =>
    match todo with
    | [] => rw [step_empty]; rfl
    | .nil :: rest => rw [step_nil hs]; rfl
    | .cons p b :: rest => rw [acts_cons hs] at hacts; contradiction
    | .loop body b :: rest =>
      by_cases hz : s.cell = 0
      · rw [step_pass hs hz]; rfl
      · rw [step_again hs hz]; rfl

/-! ### Steps and meaning -/

/-- The moment at which a block has been carried out: the world is halted, or the blocks behind it
are next. -/
def settled (s : World) (rest : List (Block Prim)) : Step Config World :=
  if s.halted then .done s else .next ⟨s, rest⟩

/-- What a block does is done in some number of steps. -/
theorem after_of_executes (h : Executes b s s') (rest : List (Block Prim)) :
    ∃ k, engine.after k ⟨s, b :: rest⟩ = settled s' rest := by
  induction h generalizing rest with
  | halted hs => exact ⟨1, by rw [Engine.after_succ_done (step_halted hs), settled, if_pos hs]⟩
  | @nil s =>
    cases hs : s.halted with
    | true => exact ⟨1, by rw [Engine.after_succ_done (step_halted hs), settled, if_pos hs]⟩
    | false =>
      refine ⟨1, ?_⟩
      rw [Engine.after_succ_next (step_nil hs), settled, hs]
      rfl
  | cons hs _ ih =>
    obtain ⟨k, hk⟩ := ih rest
    exact ⟨k + 1, by rw [Engine.after_succ_next (step_cons hs), hk]⟩
  | pass hs hc _ ih =>
    obtain ⟨k, hk⟩ := ih rest
    exact ⟨k + 1, by rw [Engine.after_succ_next (step_pass hs hc), hk]⟩
  | @again body b s t s' hs hc _ hloop ihBody ihLoop =>
    obtain ⟨j, hj⟩ := ihBody (.loop body b :: rest)
    cases ht : t.halted with
    | true =>
      -- The body has ended the run, so the loop behind it does nothing.
      rw [hloop.eq_of_halted ht]
      rw [settled, if_pos ht] at hj ⊢
      exact ⟨j + 1, by rw [Engine.after_succ_next (step_again hs hc), hj]⟩
    | false =>
      obtain ⟨k, hk⟩ := ihLoop rest
      rw [settled, ht] at hj
      refine ⟨j + k + 1, ?_⟩
      rw [Engine.after_succ_next (step_again hs hc), Engine.after_add_next hj, hk]

/-- What a list of blocks does, one after the other. -/
def ExecutesAll : List (Block Prim) → World → World → Prop
  | [], s, s' => s' = s
  | b :: rest, s, s' => ∃ t, Executes b s t ∧ ExecutesAll rest t s'

theorem executesAll_halted (h : s.halted = true) (todo : List (Block Prim)) :
    ExecutesAll todo s s := by
  induction todo with
  | nil => rfl
  | cons b rest ih => exact ⟨s, .halted h, ih⟩

/-- One step takes nothing away from what is done in all. -/
theorem executesAll_of_next {c c' : Config} (hc : engine.step c = .next c')
    (h : ExecutesAll c'.todo c'.world s') : ExecutesAll c.todo c.world s' := by
  obtain ⟨s, todo⟩ := c
  cases hs : s.halted with
  | true => rw [step_halted hs] at hc; contradiction
  | false =>
    match todo with
    | [] => rw [step_empty] at hc; contradiction
    | .nil :: rest =>
      rw [step_nil hs] at hc
      cases hc
      exact ⟨s, .nil, h⟩
    | .cons p b :: rest =>
      rw [step_cons hs] at hc
      cases hc
      obtain ⟨t, ht, hrest⟩ := h
      exact ⟨t, .cons hs ht, hrest⟩
    | .loop body b :: rest =>
      by_cases hz : s.cell = 0
      · rw [step_pass hs hz] at hc
        cases hc
        obtain ⟨t, ht, hrest⟩ := h
        exact ⟨t, .pass hs hz ht, hrest⟩
      · rw [step_again hs hz] at hc
        cases hc
        obtain ⟨t, ht, u, hu, hrest⟩ := h
        exact ⟨u, .again hs hz ht hu, hrest⟩

theorem executesAll_of_done {c : Config} (hc : engine.step c = .done s') :
    ExecutesAll c.todo c.world s' := by
  obtain ⟨rfl, hs | htodo⟩ := step_done hc
  · exact executesAll_halted hs c.todo
  · rw [htodo]
    rfl

theorem executesAll_of_after {k : Nat} {c : Config} (h : engine.after k c = .done s') :
    ExecutesAll c.todo c.world s' := by
  induction k generalizing c with
  | zero => contradiction
  | succ k ih =>
    cases hc : engine.step c with
    | next c' =>
      rw [Engine.after_succ_next hc] at h
      exact executesAll_of_next hc (ih h)
    | done r =>
      rw [Engine.after_succ_done hc] at h
      cases h
      exact executesAll_of_done hc

/-- A block does what its steps end with. -/
theorem executes_iff : Executes b s s' ↔ ∃ k, engine.after k ⟨s, [b]⟩ = .done s' := by
  constructor
  · intro h
    obtain ⟨k, hk⟩ := after_of_executes h []
    unfold settled at hk
    split at hk
    · exact ⟨k, hk⟩
    · exact ⟨k + 1, by rw [Engine.after_add_next hk, Engine.after_succ_done step_empty]⟩
  · rintro ⟨k, hk⟩
    obtain ⟨t, ht, hs'⟩ := executesAll_of_after hk
    cases hs'
    exact ht

end World

end TapeLang
