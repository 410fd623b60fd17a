import TapeLang.Proofs.MachineSteps
import TapeLang.Proofs.World

/-! A block is carried out in a world, on a growable tape, and on a machine, on a fixed one, step by
step alike until the pointer leaves the fixed tape. There, and only there, the machine overflows. -/

namespace TapeLang

/-- The machine `m` of capacity `C` holds what the world `s` holds, whose cells are all within the
capacity. -/
structure Mirrors (C : Nat) (s : World) (m : Machine) : Prop where
  pointer : m.pointer = s.tape.pointer
  reader : m.reader = s.reader
  writer : m.writer = s.writer
  capacity : m.capacity = C
  size : s.tape.cells.size ≤ C
  cells : ∀ i < C, m.cells.getD i 0 = s.tape.get i

namespace Mirrors

variable {C : Nat} {s : World} {m : Machine}

theorem start (hC : 1 ≤ C) (reader : Reader) (writer : Writer) :
    Mirrors C ⟨{}, reader, writer⟩ (Machine.start C reader writer) := by
  refine ⟨rfl, rfl, rfl, by simp [Machine.start, Machine.capacity], by simpa using hC, ?_⟩
  intro i hi
  cases i <;> simp [Machine.start, Tape.get, hi]

theorem safe (h : Mirrors C s m) (hs : s.halted = false) (hC : s.tape.pointer < C) : m.Safe := by
  refine ⟨?_, ?_⟩
  · rw [h.pointer]
    exact World.not_halted_iff.mp hs
  · rw [h.pointer, h.capacity]
    exact hC

theorem cell (h : Mirrors C s m) (hs : s.halted = false) (hC : s.tape.pointer < C) :
    m.cell = s.cell := by
  have hlow := World.not_halted_iff.mp hs
  rw [Machine.cell, World.cell, h.pointer]
  exact h.cells _ (by omega)

theorem setCell (h : Mirrors C s m) (hs : s.halted = false) (hC : s.tape.pointer < C) (c : Cell) :
    Mirrors C (s.setCell c) (m.setCell c) := by
  have hlow := World.not_halted_iff.mp hs
  have hsize : m.cells.size = C := h.capacity
  refine ⟨h.pointer, h.reader, h.writer, by rw [Machine.capacity_setCell, h.capacity], ?_, ?_⟩
  · have := h.size
    simp only [World.setCell, Tape.size_put]
    omega
  · intro i hi
    have hcells := h.cells i hi
    simp only [World.setCell, Machine.setCell, Tape.get_put, h.pointer]
    rw [Array.getD_eq_getD_getElem?, Array.getElem?_setIfInBounds]
    by_cases hip : s.tape.pointer.toNat = i
    · rw [if_pos hip, if_pos (by omega), if_pos hip.symm, Option.getD_some]
    · rw [if_neg hip, if_neg (Ne.symm hip), ← hcells, Array.getD_eq_getD_getElem?]

theorem move (h : Mirrors C s m) {delta : Int} (hC : s.tape.pointer + delta < C) :
    Mirrors C (s.move delta) { m with pointer := m.pointer + delta } := by
  refine ⟨?_, h.reader, h.writer, h.capacity, ?_, ?_⟩
  · simp only [World.move, Tape.pointer_move, h.pointer]
  · have := h.size
    simp only [World.move, Tape.size_move]
    split <;> omega
  · intro i hi
    simp only [World.move, Tape.get_move]
    exact h.cells i hi

/-- A primitive keeps the machine a mirror of the world while the pointer is within the capacity. -/
theorem act (h : Mirrors C s m) (hs : s.halted = false) (hC : s.tape.pointer < C) {p : Prim}
    (hp : (s.perform p).tape.pointer < C) : Mirrors C (s.perform p) (m.act p) := by
  have hcell := h.cell hs hC
  cases p with
  | increment =>
    rw [Machine.act, hcell]
    exact h.setCell hs hC _
  | decrement =>
    rw [Machine.act, hcell]
    exact h.setCell hs hC _
  | right => exact h.move (by simpa [World.perform, World.move] using hp)
  | left => exact h.move (by simpa [World.perform, World.move] using hp)
  | output =>
    rw [Machine.act, hcell]
    exact ⟨h.pointer, h.reader, congrArg (·.write s.cell) h.writer, h.capacity, h.size, h.cells⟩
  | input =>
    rw [Machine.act, h.reader]
    have hset := h.setCell hs hC s.reader.read.1
    exact ⟨hset.pointer, rfl, hset.writer, hset.capacity, hset.size, hset.cells⟩

/-- A primitive that takes the pointer out of the capacity is a move to the position right behind
it, and does nothing else. -/
theorem act_of_le (h : Mirrors C s m) (hC : s.tape.pointer < C) {p : Prim}
    (hp : (C : Int) ≤ (s.perform p).tape.pointer) :
    (s.perform p).tape.pointer = C ∧ (m.act p).pointer = C ∧
      (m.act p).reader = (s.perform p).reader ∧ (m.act p).writer = (s.perform p).writer := by
  cases p with
  | right =>
    simp only [World.perform, World.move, Tape.pointer_move] at hp ⊢
    refine ⟨by omega, ?_, h.reader, h.writer⟩
    show m.pointer + 1 = C
    rw [h.pointer]
    omega
  | left =>
    simp only [World.perform, World.move, Tape.pointer_move] at hp
    omega
  | increment =>
    simp only [World.perform, World.pointer_setCell] at hp
    omega
  | decrement =>
    simp only [World.perform, World.pointer_setCell] at hp
    omega
  | output =>
    simp only [World.perform] at hp
    omega
  | input =>
    simp only [World.perform, World.pointer_setCell] at hp
    omega

end Mirrors

/-! ### A block in a world and on a machine -/

/-- The moments of two runs of the same blocks, in a world and on a machine of capacity `C`. A
machine ends with the move that halts it, one step before the world is seen to be halted. -/
inductive Together (C : Nat) : Step World.Config World → Step Machine.Config Machine.Ended → Prop
  | running {s : World} {m : Machine} {todo : List (Block Prim)} :
      Mirrors C s m → s.halted = false → Together C (.next ⟨s, todo⟩) (.next ⟨m, todo⟩)
  | completed {s : World} {m : Machine} :
      Mirrors C s m → s.halted = false → Together C (.done s) (.done ⟨m, .completed⟩)
  | halting {s : World} {m : Machine} {todo : List (Block Prim)} :
      Mirrors C s m → s.halted = true → Together C (.next ⟨s, todo⟩) (.done ⟨m, .halted⟩)
  | halted {s : World} {m : Machine} :
      Mirrors C s m → s.halted = true → Together C (.done s) (.done ⟨m, .halted⟩)

namespace Together

variable {C : Nat} {s : World} {m : Machine} {todo : List (Block Prim)} {t : World.Config}
  {c : Machine.Config} {k : Nat}

theorem mirrors {o : Step World.Config World} {o' : Step Machine.Config Machine.Ended}
    (h : Together C o o') : Mirrors C (World.engine.look o) (Machine.engine.look o') := by
  cases h <;> assumption

theorem acts_eq (hs : s.halted = false) :
    Machine.engine.acts ⟨m, todo⟩ = World.engine.acts ⟨s, todo⟩ := by
  match todo with
  | [] => rfl
  | .nil :: _ => rfl
  | .cons _ _ :: _ => exact (World.acts_cons hs).symm
  | .loop _ _ :: _ => rfl

theorem step (h : Mirrors C s m) (hs : s.halted = false) (hC : s.tape.pointer < C)
    (hnext : (World.engine.look (World.engine.step ⟨s, todo⟩)).tape.pointer < C) :
    Together C (World.engine.step ⟨s, todo⟩) (Machine.engine.step ⟨m, todo⟩) := by
  have hsafe := h.safe hs hC
  have hcell := h.cell hs hC
  match todo with
  | [] =>
    rw [World.step_empty, Machine.step_empty]
    exact .completed h hs
  | .nil :: rest =>
    rw [World.step_nil hs, Machine.step_nil]
    exact .running h hs
  | .cons p b :: rest =>
    rw [World.step_cons hs] at hnext ⊢
    have hact := h.act hs hC hnext
    cases hp : (s.perform p).halted with
    | true =>
      have hneg : (m.act p).pointer < 0 := by
        rw [hact.pointer]
        exact World.halted_iff.mp hp
      rw [Machine.step_halt hsafe hneg]
      exact .halting hact hp
    | false =>
      rw [Machine.step_next hsafe (hact.safe hp hnext)]
      exact .running hact hp
  | .loop body b :: rest =>
    by_cases hz : s.cell = 0
    · rw [World.step_pass hs hz, Machine.step_pass hsafe (hcell.trans hz)]
      exact .running h hs
    · rw [World.step_again hs hz, Machine.step_again hsafe (hcell ▸ hz)]
      exact .running h hs

/-- The step of a machine that takes the pointer out of the capacity. -/
theorem step_overflow (h : Mirrors C s m) (hs : s.halted = false) (hC : s.tape.pointer < C)
    (hnext : (C : Int) ≤ (World.engine.look (World.engine.step ⟨s, todo⟩)).tape.pointer) :
    ∃ m', Machine.engine.step ⟨m, todo⟩ = .done ⟨m', .overflow C C⟩ ∧
      (World.engine.look (World.engine.step ⟨s, todo⟩)).tape.pointer = C ∧
      m'.reader = (World.engine.look (World.engine.step ⟨s, todo⟩)).reader ∧
      m'.writer = (World.engine.look (World.engine.step ⟨s, todo⟩)).writer := by
  have hquiet : World.engine.look (World.engine.step ⟨s, todo⟩) = s → False := by
    intro hlook
    rw [hlook] at hnext
    omega
  match todo with
  | [] => exact (hquiet (by rw [World.step_empty]; rfl)).elim
  | .nil :: rest => exact (hquiet (by rw [World.step_nil hs]; rfl)).elim
  | .loop body b :: rest =>
    by_cases hz : s.cell = 0
    · exact (hquiet (by rw [World.step_pass hs hz]; rfl)).elim
    · exact (hquiet (by rw [World.step_again hs hz]; rfl)).elim
  | .cons p b :: rest =>
    rw [World.step_cons hs] at hnext ⊢
    obtain ⟨hpointer, hmachine, hreader, hwriter⟩ := h.act_of_le hC hnext
    refine ⟨m.act p, ?_, hpointer, hreader, hwriter⟩
    have hle : (m.capacity : Int) ≤ (m.act p).pointer :=
      Int.le_of_eq (by rw [h.capacity, hmachine])
    rw [Machine.step_overflow (h.safe hs hC) hle, hmachine, h.capacity]

/-- The pointer is within the capacity at all the first moments of a run. -/
def Within (C : Nat) (t : World.Config) (k : Nat) : Prop :=
  ∀ j ≤ k, (World.engine.look (World.engine.after j t)).tape.pointer < C

theorem Within.mono {j : Nat} (h : Within C t k) (hjk : j ≤ k) : Within C t j :=
  fun i hi => h i (Nat.le_trans hi hjk)

/-- Both runs are together, and have acted as often, at every moment up to which the pointer has
stayed within the capacity. -/
theorem after (h : Together C (.next t) (.next c)) (hw : Within C t k) :
    Together C (World.engine.after k t) (Machine.engine.after k c) ∧
      Machine.engine.acted k c = World.engine.acted k t := by
  induction k with
  | zero => exact ⟨h, rfl⟩
  | succ k ih =>
    obtain ⟨htogether, hacted⟩ := ih (hw.mono (Nat.le_succ k))
    have hhere := hw k (Nat.le_succ k)
    have hnext := hw (k + 1) (Nat.le_refl _)
    rw [Engine.after_add] at hnext
    rw [Engine.after_add, Engine.after_add, Engine.acted_add, Engine.acted_add, hacted]
    generalize World.engine.after k t = o at htogether hhere hnext
    generalize Machine.engine.after k c = o' at htogether
    cases htogether with
    | running hm hs =>
      simp only [Engine.afterFrom, Engine.actedFrom, Engine.after_one, Engine.acted_one] at hnext ⊢
      exact ⟨step hm hs hhere hnext, by rw [acts_eq hs]⟩
    | completed hm hs => exact ⟨.completed hm hs, rfl⟩
    | halting hm hs =>
      simp only [Engine.afterFrom, Engine.actedFrom, Engine.after_one, Engine.acted_one]
      rw [World.step_halted hs, World.acts_halted hs]
      exact ⟨.halted hm hs, rfl⟩
    | halted hm hs => exact ⟨.halted hm hs, rfl⟩

/-- Either the pointer stays within the capacity, or there is a first step that takes it out. -/
theorem within_or_leaves (h0 : Within C t 0) (k : Nat) :
    Within C t k ∨ ∃ i < k, Within C t i ∧
      (C : Int) ≤ (World.engine.look (World.engine.after (i + 1) t)).tape.pointer := by
  induction k with
  | zero => exact .inl h0
  | succ k ih =>
    rcases ih with hw | ⟨i, hi, hw, hout⟩
    · by_cases hnext : (World.engine.look (World.engine.after (k + 1) t)).tape.pointer < C
      · left
        intro j hj
        rcases Nat.le_succ_iff.mp hj with hle | rfl
        · exact hw j hle
        · exact hnext
      · exact .inr ⟨k, Nat.lt_succ_self k, hw, Int.not_lt.mp hnext⟩
    · exact .inr ⟨i, Nat.lt_succ_of_lt hi, hw, hout⟩

theorem after_overflow (h : Together C (.next t) (.next c)) (hw : Within C t k)
    (hout : (C : Int) ≤ (World.engine.look (World.engine.after (k + 1) t)).tape.pointer) :
    ∃ m', Machine.engine.after (k + 1) c = .done ⟨m', .overflow C C⟩ ∧
      Machine.engine.acted (k + 1) c = World.engine.acted (k + 1) t ∧
      (World.engine.look (World.engine.after (k + 1) t)).tape.pointer = C ∧
      m'.reader = (World.engine.look (World.engine.after (k + 1) t)).reader ∧
      m'.writer = (World.engine.look (World.engine.after (k + 1) t)).writer := by
  obtain ⟨htogether, hacted⟩ := after h hw
  have hhere := hw k (Nat.le_refl k)
  rw [Engine.after_add] at hout ⊢
  rw [Engine.after_add, Engine.acted_add, Engine.acted_add, hacted]
  generalize World.engine.after k t = o at htogether hhere hout
  generalize Machine.engine.after k c = o' at htogether
  cases htogether with
  | running hm hs =>
    simp only [Engine.afterFrom, Engine.actedFrom, Engine.after_one, Engine.acted_one] at hout ⊢
    obtain ⟨m', hm', hrest⟩ := step_overflow hm hs hhere hout
    exact ⟨m', hm', by rw [acts_eq hs], hrest⟩
  | completed hm hs => exact absurd hhere (Int.not_lt.mpr hout)
  | halting hm hs =>
    simp only [Engine.afterFrom, Engine.after_one] at hout
    rw [World.step_halted hs] at hout
    exact absurd hhere (Int.not_lt.mpr hout)
  | halted hm hs => exact absurd hhere (Int.not_lt.mpr hout)

/-! ### After a number of actions -/

variable {n : Nat}

theorem within_of_shows {j : Nat}
    (hB : ∀ k ≤ n, ∀ s, World.engine.Shows t k s → s.tape.pointer < C)
    (hj : World.engine.acted j t ≤ n) : Within C t j := fun i hi =>
  hB _ (Nat.le_trans (Engine.acted_mono hi t) hj) _ ⟨_, ⟨i, rfl, rfl⟩, rfl⟩

/-- Up to the action that takes the pointer out, the world and the machine act as often. -/
theorem exists_shows_iff (h : Together C (.next t) (.next c))
    (hB : ∀ k ≤ n, ∀ s, World.engine.Shows t k s → s.tape.pointer < C) :
    (∃ s, World.engine.Shows t n s) ↔ ∃ m, Machine.engine.Shows c n m := by
  constructor
  · rintro ⟨_, _, ⟨j, rfl, hj⟩, rfl⟩
    obtain ⟨-, hacted⟩ := after h (within_of_shows hB (Nat.le_of_eq hj))
    exact ⟨_, _, ⟨j, rfl, hacted.trans hj⟩, rfl⟩
  · rintro ⟨_, _, ⟨j, rfl, hj⟩, rfl⟩
    rcases within_or_leaves (within_of_shows hB (Nat.zero_le n)) j with hw | ⟨i, hij, hw, hout⟩
    · exact ⟨_, _, ⟨j, rfl, (after h hw).2.symm.trans hj⟩, rfl⟩
    · obtain ⟨m', hm', hacted, -⟩ := after_overflow h hw hout
      obtain ⟨d, rfl⟩ := Nat.exists_eq_add_of_le hij
      rw [Engine.acted_add_done hm'] at hj
      have hlt := within_of_shows hB (Nat.le_of_eq (hacted.symm.trans hj)) _ (Nat.le_refl _)
      exact absurd hlt (Int.not_lt.mpr hout)

theorem shows_mirrors (h : Together C (.next t) (.next c))
    (hB : ∀ k ≤ n, ∀ s, World.engine.Shows t k s → s.tape.pointer < C)
    (hs : World.engine.Shows t n s) (hm : Machine.engine.Shows c n m) : Mirrors C s m := by
  obtain ⟨_, ⟨j, rfl, hj⟩, rfl⟩ := hs
  obtain ⟨htogether, hacted⟩ := after h (within_of_shows hB (Nat.le_of_eq hj))
  have hshows : Machine.engine.Shows c n (Machine.engine.look (Machine.engine.after j c)) :=
    ⟨_, ⟨j, rfl, hacted.trans hj⟩, rfl⟩
  rw [Machine.engine_quiet.shows_unique hm hshows]
  exact htogether.mirrors

/-- The action that first takes the pointer out of the capacity overflows the machine. -/
theorem overflow_of_shows (h : Together C (.next t) (.next c)) (h0 : Within C t 0)
    (hs : World.engine.Shows t n s) (hpointer : s.tape.pointer = C)
    (hfirst : ∀ k < n, ∀ s', World.engine.Shows t k s' → s'.tape.pointer < C) :
    ∃ k m', Machine.engine.after k c = .done ⟨m', .overflow C C⟩ ∧ m'.reader = s.reader ∧
      m'.writer = s.writer := by
  obtain ⟨_, ⟨j, rfl, hj⟩, hlook⟩ := id hs
  rcases within_or_leaves h0 j with hw | ⟨i, hij, hw, hout⟩
  · have hlt := hw j (Nat.le_refl j)
    rw [hlook] at hlt
    omega
  · obtain ⟨m', hm', -, -, hreader, hwriter⟩ := after_overflow h hw hout
    have hshows : World.engine.Shows t (World.engine.acted (i + 1) t)
        (World.engine.look (World.engine.after (i + 1) t)) := ⟨_, ⟨i + 1, rfl, rfl⟩, rfl⟩
    have hle : World.engine.acted (i + 1) t ≤ n := hj ▸ Engine.acted_mono hij t
    rcases Nat.lt_or_eq_of_le hle with hlt | heq
    · exact absurd (hfirst _ hlt _ hshows) (Int.not_lt.mpr hout)
    · rw [heq] at hshows
      rw [World.engine_quiet.shows_unique hs hshows]
      exact ⟨i + 1, m', hm', hreader, hwriter⟩

/-- A machine overflows only with the action that first takes the pointer out. -/
theorem shows_of_overflow (h : Together C (.next t) (.next c)) (h0 : Within C t 0)
    {position : Int} {capacity : Nat}
    (hk : Machine.engine.after k c = .done ⟨m, .overflow position capacity⟩) :
    position = C ∧ capacity = C ∧ ∃ n s, World.engine.Shows t n s ∧ s.tape.pointer = C ∧
      (∀ k < n, ∀ s', World.engine.Shows t k s' → s'.tape.pointer < C) ∧
      m.reader = s.reader ∧ m.writer = s.writer := by
  rcases within_or_leaves h0 k with hw | ⟨i, hik, hw, hout⟩
  · obtain ⟨htogether, -⟩ := after h hw
    rw [hk] at htogether
    generalize World.engine.after k t = o at htogether
    cases htogether
  · obtain ⟨m', hm', -, hpointer, hreader, hwriter⟩ := after_overflow h hw hout
    cases Engine.done_unique hk hm'
    refine ⟨rfl, rfl, _, _, ⟨_, ⟨i + 1, rfl, rfl⟩, rfl⟩, hpointer, ?_, hreader, hwriter⟩
    rintro n hn _ ⟨_, ⟨j, rfl, rfl⟩, rfl⟩
    apply hw
    -- A moment with fewer actions is an earlier one.
    apply Nat.le_of_not_lt
    intro hlt
    exact absurd hn (Nat.not_lt.mpr (Engine.acted_mono hlt t))

/-! ### The end of a run -/

def endingOf (s : World) : Machine.Ending := if s.halted then .halted else .completed

theorem machine_done (h : Together C (.next t) (.next c)) (hw : Within C t k)
    (hk : World.engine.after k t = .done s) :
    ∃ m, Machine.engine.after k c = .done ⟨m, endingOf s⟩ ∧ Mirrors C s m := by
  obtain ⟨htogether, -⟩ := after h hw
  rw [hk] at htogether
  generalize Machine.engine.after k c = o at htogether ⊢
  cases htogether with
  | completed hm hs =>
    rw [endingOf, hs]
    exact ⟨_, rfl, hm⟩
  | halted hm hs =>
    rw [endingOf, hs]
    exact ⟨_, rfl, hm⟩

theorem world_done (h : Together C (.next t) (.next c)) (hw : Within C t k)
    {e : Machine.Ended} (hk : Machine.engine.after k c = .done e) :
    ∃ s, World.engine.after (k + 1) t = .done s ∧ e.ending = endingOf s ∧
      Mirrors C s e.machine := by
  obtain ⟨htogether, -⟩ := after h hw
  rw [hk] at htogether
  rw [Engine.after_add]
  generalize World.engine.after k t = o at htogether ⊢
  cases htogether with
  | completed hm hs => exact ⟨_, rfl, by rw [endingOf, hs]; rfl, hm⟩
  | halting hm hs =>
    refine ⟨_, ?_, by rw [endingOf, hs]; rfl, hm⟩
    rw [Engine.afterFrom, Engine.after_one, World.step_halted hs]
  | halted hm hs => exact ⟨_, rfl, by rw [endingOf, hs]; rfl, hm⟩

end Together

end TapeLang
