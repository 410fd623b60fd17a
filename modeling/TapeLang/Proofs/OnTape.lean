import TapeLang.Proofs.ScriptMachine

/-! The pointer of a machine is on the tape whenever a cell is used. A step moves it by one cell at
most, and a move off the tape is the last thing that a run does: one to the left of the first cell
is a halt, and one to the right of the last cell an overflow. -/

namespace TapeLang

theorem Cell.value_range (c : Cell) : 0 ≤ c.value ∧ c.value ≤ 255 := by
  have := c.toNat_lt
  unfold value
  omega

namespace Machine

variable {C : Nat} {m : Machine} {b : Block Prim} {todo : List (Block Prim)} {c c' : Config}
  {e : Ended}

/-- A machine with `C` cells, whose pointer is on one of them. -/
structure OnTape (C : Nat) (m : Machine) : Prop extends m.Safe where
  capacity : m.capacity = C

theorem OnTape.start (hC : 1 ≤ C) (reader : Reader) (writer : Writer) :
    OnTape C (start C reader writer) := by
  have hsize : (Machine.start C reader writer).capacity = C := Array.size_replicate
  refine ⟨⟨Int.le_refl 0, ?_⟩, hsize⟩
  rw [hsize]
  exact Int.ofNat_lt.mpr hC

/-- A step that goes on leaves the pointer on the tape. -/
theorem OnTape.next (h : OnTape C c.machine) (hstep : engine.step c = .next c') :
    OnTape C c'.machine := by
  obtain ⟨m, todo⟩ := c
  match todo with
  | [] => contradiction
  | .nil :: rest =>
    cases hstep
    exact h
  | .cons p b :: rest =>
    rcases step_cons_cases h.toSafe p b rest with ⟨hsafe, hnext⟩ | ⟨-, hend⟩ | ⟨-, hend⟩
    · cases hnext.symm.trans hstep
      exact ⟨hsafe, (capacity_act m p).trans h.capacity⟩
    · cases hend.symm.trans hstep
    · cases hend.symm.trans hstep
  | .loop body b :: rest =>
    by_cases hz : m.cell = 0
    · cases (step_pass h.toSafe hz).symm.trans hstep
      exact h
    · cases (step_again h.toSafe hz).symm.trans hstep
      exact h

/-- The three ways in which a run can end, each with its last step: nothing is left to do, the
pointer moves to the left of the first cell, or it moves to the right of the last one. -/
inductive Ends (C : Nat) : Config → Ended → Prop
  | completed {m : Machine} : OnTape C m → Ends C ⟨m, []⟩ ⟨m, .completed⟩
  | halted {m : Machine} {b : Block Prim} {rest : List (Block Prim)} :
      OnTape C m → m.pointer = 0 →
      Ends C ⟨m, .cons .left b :: rest⟩ ⟨{ m with pointer := -1 }, .halted⟩
  | overflow {m : Machine} {b : Block Prim} {rest : List (Block Prim)} :
      OnTape C m → m.pointer + 1 = C →
      Ends C ⟨m, .cons .right b :: rest⟩ ⟨{ m with pointer := C }, .overflow C C⟩

theorem OnTape.done (h : OnTape C c.machine) (hstep : engine.step c = .done e) : Ends C c e := by
  obtain ⟨m, todo⟩ := c
  have hlow : 0 ≤ m.pointer := h.low
  have hhigh : m.pointer < C := h.capacity ▸ h.high
  match todo with
  | [] =>
    cases hstep
    exact .completed h
  | .nil :: rest => contradiction
  | .cons p b :: rest =>
    rcases step_cons_cases h.toSafe p b rest with ⟨-, hnext⟩ | ⟨hneg, hend⟩ | ⟨hfull, hend⟩
    · cases hnext.symm.trans hstep
    · obtain rfl := Script.eq_left h.toSafe hneg
      cases hend.symm.trans hstep
      replace hneg : m.pointer - 1 < 0 := hneg
      have hpointer : m.pointer - 1 = -1 := by omega
      show Ends C _ ⟨{ m with pointer := m.pointer - 1 }, .halted⟩
      rw [hpointer]
      exact .halted h (by omega)
    · obtain rfl := Script.eq_right h.toSafe hfull
      cases hend.symm.trans hstep
      replace hfull : (m.capacity : Int) ≤ m.pointer + 1 := hfull
      rw [h.capacity] at hfull
      have hpointer : m.pointer + 1 = C := by omega
      show Ends C _ ⟨{ m with pointer := m.pointer + 1 }, .overflow (m.pointer + 1) m.capacity⟩
      rw [hpointer, h.capacity]
      exact .overflow h hpointer
  | .loop body b :: rest =>
    by_cases hz : m.cell = 0
    · cases (step_pass h.toSafe hz).symm.trans hstep
    · cases (step_again h.toSafe hz).symm.trans hstep

theorem OnTape.after {n : Nat} (h : OnTape C c.machine) (hn : engine.after n c = .next c') :
    OnTape C c'.machine :=
  Engine.after_next_of_step (P := fun c => OnTape C c.machine) OnTape.next h hn

/-- A run that starts on the tape ends in one of the three ways. -/
theorem OnTape.exists_ends {k : Nat} (h : OnTape C c.machine) (hk : engine.after k c = .done e) :
    ∃ n t, engine.after n c = .next t ∧ engine.step t = .done e ∧ Ends C t e := by
  obtain ⟨n, t, hn, ht⟩ := Engine.exists_last_step hk
  exact ⟨n, t, hn, ht, (h.after hn).done ht⟩

/-- After the step that ends a run nothing is done any more, whatever blocks were left. -/
theorem after_last {n : Nat} {t : Config} (hn : engine.after n c = .next t)
    (ht : engine.step t = .done e) (k : Nat) :
    engine.after (n + 1 + k) c = .done e ∧
      engine.acted (n + 1 + k) c = engine.acted n c + (engine.acts t).toNat := by
  have hdone : engine.after (n + 1) c = .done e := by
    rw [Engine.after_add_next hn, Engine.after_one, ht]
  refine ⟨Engine.after_add_done hdone, ?_⟩
  rw [Engine.acted_add_done hdone, Engine.acted_add_next hn, Engine.acted_one]

/-- A machine never uses a cell off its tape. Its run ends with the block carried out; with the
pointer at -1, by a move from the first cell, behind which nothing more is done; or with an overflow
at the position that is the capacity. -/
theorem machine_stays_on_tape (b : Block Op) (hC : 1 ≤ C) (reader : Reader) (writer : Writer) :
    (∀ n c, engine.after n ⟨start C reader writer, [b.map Op.prim]⟩ = .next c →
      0 ≤ c.machine.pointer ∧ c.machine.pointer < C ∧ c.machine.cells.size = C ∧
      (∃ v, c.machine.current? = some v) ∧
      ∀ v ∈ c.machine.cells, 0 ≤ v.value ∧ v.value ≤ 255) ∧
    (∀ fuel e, run fuel (b.map Op.prim) (start C reader writer) = some e →
      (e.ending = .completed ∧ 0 ≤ e.machine.pointer ∧ e.machine.pointer < C) ∨
      (e.ending = .halted ∧ e.machine.pointer = -1 ∧
        ∃ n m block rest,
          engine.after n ⟨start C reader writer, [b.map Op.prim]⟩ =
            .next ⟨m, .cons .left block :: rest⟩ ∧ m.pointer = 0 ∧
          e = finish ⟨{ m with pointer := -1 }, .halted⟩ ∧
          ∀ k, engine.after (n + 1 + k) ⟨start C reader writer, [b.map Op.prim]⟩ =
              .done ⟨{ m with pointer := -1 }, .halted⟩ ∧
            engine.acted (n + 1 + k) ⟨start C reader writer, [b.map Op.prim]⟩ =
              engine.acted n ⟨start C reader writer, [b.map Op.prim]⟩ + 1) ∨
      (e.ending = .overflow C C ∧ e.machine.pointer = C)) := by
  have hstart : OnTape C (start C reader writer) := .start hC reader writer
  refine ⟨fun n c hn => ?_, fun fuel e hrun => ?_⟩
  · have hc := hstart.after (c := ⟨start C reader writer, [b.map Op.prim]⟩) hn
    have hhigh := hc.high
    rw [hc.capacity] at hhigh
    exact ⟨hc.low, hhigh, hc.capacity, ⟨_, current?_eq hc.toSafe⟩, fun v _ => v.value_range⟩
  · obtain ⟨e, he, rfl⟩ := Option.map_eq_some_iff.mp hrun
    obtain ⟨n, t, hn, ht, hends⟩ := hstart.exists_ends
      (c := ⟨start C reader writer, [b.map Op.prim]⟩) (engine.runFor_eq_some_iff.mp he)
    have hlast := after_last hn ht
    cases hends with
    | completed h => exact .inl ⟨rfl, h.low, h.capacity ▸ h.high⟩
    | halted h hpointer =>
      exact .inr (.inl ⟨rfl, rfl, n, _, _, _, hn, hpointer, rfl, hlast⟩)
    | overflow h hpointer => exact .inr (.inr ⟨rfl, rfl⟩)

/-- A block with deltas of any size, which halts inside two loops and leaves what stands behind
them. -/
theorem machine_stays_on_tape_halt :
    ∃ e, run 12 ((Block.cons (.add 7) (.loop (.loop (.cons (.move (-3)) (.cons .output .nil))
        (.cons .output .nil)) (.cons .output .nil))).map Op.prim) (start 1 {} {}) = some e ∧
      e.ending = .halted ∧ e.machine.pointer = -1 ∧ e.machine.writer.output = #[] := by
  have hrun : run 12 ((Block.cons (.add 7) (.loop (.loop (.cons (.move (-3)) (.cons .output .nil))
        (.cons .output .nil)) (.cons .output .nil))).map Op.prim) (start 1 {} {}) =
      some ⟨⟨#[1], -1, {}, ⟨#[], 1, false⟩⟩, .halted⟩ := by decide
  refine ⟨_, hrun, rfl, ?_, rfl⟩
  rcases (machine_stays_on_tape _ (Nat.le_refl 1) {} {}).2 _ _ hrun with ⟨hending, -⟩ |
    ⟨-, hpointer, -⟩ | ⟨hending, -⟩
  · contradiction
  · exact hpointer
  · contradiction

end Machine

end TapeLang
