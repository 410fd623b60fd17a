import TapeLang.Proofs.Blame
import TapeLang.Proofs.Flushing
import TapeLang.Proofs.OnTape

/-! Tapes of different capacity. A machine with more cells behind its tape does the same as the
machine without them, as long as that does not overflow: no step looks at a cell behind the pointer,
so the further cells stay zero. At the move that overflows the smaller tape both have taken the same
input and written the same output, and from there on the larger one only adds to it. -/

namespace TapeLang

namespace Machine

variable {C extra k : Nat} {m : Machine} {p : Prim} {b : Block Prim} {rest : List (Block Prim)}
  {c : Config} {reader : Reader} {writer : Writer}

/-! ### What a run adds to -/

/-- From `m` to `m'` bytes were only added to the output and taken from the input. -/
structure Carries (m m' : Machine) : Prop where
  output : m.writer.output.toList <+: m'.writer.output.toList
  unread : m'.reader.unread <:+ m.reader.unread

theorem Carries.refl (m : Machine) : Carries m m := ⟨List.prefix_refl _, List.suffix_refl _⟩

theorem Carries.trans {m₁ m₂ m₃ : Machine} (h : Carries m₁ m₂) (h' : Carries m₂ m₃) :
    Carries m₁ m₃ :=
  ⟨h.output.trans h'.output, h'.unread.trans h.unread⟩

theorem reader_step (c : Config) :
    (engine.look (engine.step c)).reader = (Reader.readMany c.reads.toNat c.machine.reader).2 :=
  intake.reader_step Machine.reader (fun _ _ => rfl) (fun _ _ => rfl) (fun _ => rfl) c

theorem carries_step (c : Config) : Carries c.machine (engine.look (engine.step c)) where
  output := by
    rw [writer_step, Writer.output_foldl_write, Array.toList_append]
    exact List.prefix_append _ _
  unread := by
    rw [reader_step]
    cases c.reads with
    | false => exact List.suffix_refl _
    | true => exact c.machine.reader.unread_read_isSuffix

theorem carries_after {j : Nat} (hjk : j ≤ k) (c : Config) :
    Carries (engine.look (engine.after j c)) (engine.look (engine.after k c)) :=
  Engine.look_after_mono Carries.refl Carries.trans carries_step hjk c

/-! ### More cells behind the tape -/

/-- The machine with more zero cells behind its tape. -/
def widen (extra : Nat) (m : Machine) : Machine :=
  { m with cells := m.cells ++ Array.replicate extra 0 }

def Config.widen (extra : Nat) (c : Config) : Config :=
  { c with machine := c.machine.widen extra }

def Ended.widen (extra : Nat) (e : Ended) : Ended := { e with machine := e.machine.widen extra }

theorem widen_start (C extra : Nat) (reader : Reader) (writer : Writer) :
    (start C reader writer).widen extra = start (C + extra) reader writer := by
  simp only [widen, start, Array.replicate_append_replicate]

@[simp] theorem capacity_widen (extra : Nat) (m : Machine) :
    (m.widen extra).capacity = m.capacity + extra := by
  simp [widen, capacity]

theorem Safe.widen (h : m.Safe) (extra : Nat) : (m.widen extra).Safe := by
  refine ⟨h.low, ?_⟩
  have hhigh := h.high
  rw [capacity_widen]
  show m.pointer < _
  omega

theorem cell_widen (h : m.Safe) (extra : Nat) : (m.widen extra).cell = m.cell := by
  show (m.cells ++ Array.replicate extra 0).getD m.pointer.toNat 0 = m.cells.getD m.pointer.toNat 0
  rw [Array.getD_eq_getD_getElem?, Array.getElem?_append_left h.lt_size,
    ← Array.getD_eq_getD_getElem?]

theorem setCell_widen (h : m.Safe) (extra : Nat) (v : Cell) :
    (m.widen extra).setCell v = (m.setCell v).widen extra := by
  have hcells : (m.cells ++ Array.replicate extra 0).setIfInBounds m.pointer.toNat v =
      m.cells.setIfInBounds m.pointer.toNat v ++ Array.replicate extra 0 :=
    Array.setIfInBounds_append_left h.lt_size
  simp only [setCell, widen, hcells]

theorem act_widen (h : m.Safe) (extra : Nat) (p : Prim) :
    (m.widen extra).act p = (m.act p).widen extra := by
  cases p with
  | increment => rw [act, cell_widen h, setCell_widen h, act]
  | decrement => rw [act, cell_widen h, setCell_widen h, act]
  | right => rfl
  | left => rfl
  | output =>
    rw [act, cell_widen h, act]
    rfl
  | input =>
    rw [act, setCell_widen h, act]
    rfl

theorem look_step_cons (h : m.Safe) :
    engine.look (engine.step ⟨m, .cons p b :: rest⟩) = m.act p := by
  rcases step_cons_cases h p b rest with ⟨-, hstep⟩ | ⟨-, hstep⟩ | ⟨-, hstep⟩ <;> rw [hstep] <;> rfl

/-- A run has overflowed, with what `v` has read and written. -/
def OverflowsLike (o : Step Config Ended) (v : Machine) : Prop :=
  ∃ m position capacity, o = .done ⟨m, .overflow position capacity⟩ ∧ v.reader = m.reader ∧
    v.writer = m.writer

/-- With more cells a step does the same, unless it overflows without them. -/
theorem step_widen (h : c.machine.Safe) (extra : Nat) :
    engine.step (c.widen extra) =
      (engine.step c).map (Config.widen extra) (Ended.widen extra) ∨
    OverflowsLike (engine.step c) (engine.look (engine.step (c.widen extra))) := by
  obtain ⟨m, todo⟩ := c
  have hwide : (m.widen extra).Safe := h.widen extra
  match todo with
  | [] => exact .inl rfl
  | .nil :: rest => exact .inl rfl
  | .cons p b :: rest =>
    have hact := act_widen h extra p
    rcases step_cons_cases h p b rest with ⟨hsafe, hstep⟩ | ⟨hneg, hstep⟩ | ⟨-, hstep⟩
    · left
      rw [hstep]
      refine (step_next hwide (hact ▸ hsafe.widen extra)).trans ?_
      rw [hact]
      rfl
    · left
      rw [hstep]
      refine (step_halt hwide (by rw [hact]; exact hneg)).trans ?_
      rw [hact]
      rfl
    · right
      have hlook : engine.look (engine.step ⟨m.widen extra, .cons p b :: rest⟩) =
          (m.act p).widen extra := (look_step_cons hwide).trans hact
      refine ⟨_, _, _, hstep, ?_⟩
      show (engine.look (engine.step ⟨m.widen extra, _⟩)).reader = _ ∧
        (engine.look (engine.step ⟨m.widen extra, _⟩)).writer = _
      rw [hlook]
      exact ⟨rfl, rfl⟩
  | .loop body b :: rest =>
    left
    by_cases hz : m.cell = 0
    · rw [step_pass h hz]
      exact step_pass hwide ((cell_widen h extra).trans hz)
    · rw [step_again h hz]
      exact step_again hwide ((cell_widen h extra).symm ▸ hz)

/-- With more cells a run is at the same moment, unless it has overflowed without them. -/
theorem after_widen (h : OnTape C c.machine) (extra k : Nat) :
    engine.after k (c.widen extra) =
      (engine.after k c).map (Config.widen extra) (Ended.widen extra) ∨
    ∃ i, OverflowsLike (engine.after i c) (engine.look (engine.after i (c.widen extra))) := by
  -- Before the run without them overflows, the two are always in the same configuration but for the
  -- further cells, so `step_widen` applies to each step.
  induction k generalizing c with
  | zero => exact .inl rfl
  | succ k ih =>
    rcases step_widen h.toSafe extra with hsame | hover
    · cases hs : engine.step c with
      | next t =>
        rw [hs] at hsame
        have hi : ∀ i, engine.after (i + 1) c = engine.after i t := fun i =>
          Engine.after_succ_next hs
        have hi' : ∀ i, engine.after (i + 1) (c.widen extra) = engine.after i (t.widen extra) :=
          fun i => Engine.after_succ_next hsame
        rcases ih (h.next hs) with hk | ⟨i, hover⟩
        · left
          rw [hi, hi', hk]
        · right
          refine ⟨i + 1, ?_⟩
          rw [hi, hi']
          exact hover
      | done e =>
        rw [hs] at hsame
        left
        rw [Engine.after_succ_done hs, Engine.after_succ_done hsame]
        rfl
    · refine .inr ⟨1, ?_⟩
      rw [Engine.after_one, Engine.after_one]
      exact hover

theorem after_widen_of_done (h : OnTape C c.machine) (extra : Nat) {e : Ended}
    (hk : engine.after k c = .done e) (hend : e.ending = .completed ∨ e.ending = .halted) :
    engine.after k (c.widen extra) = .done (e.widen extra) := by
  rcases after_widen h extra k with hsame | ⟨i, m, position, capacity, hover, -⟩
  · rw [hsame, hk]
    rfl
  · cases Engine.done_unique hk hover
    rcases hend with hend | hend <;> contradiction

theorem exists_moment_of_overflow (h : OnTape C c.machine) (extra : Nat) {position : Int}
    {capacity : Nat} (hk : engine.after k c = .done ⟨m, .overflow position capacity⟩) :
    ∃ i, (engine.look (engine.after i (c.widen extra))).reader = m.reader ∧
      (engine.look (engine.after i (c.widen extra))).writer = m.writer := by
  rcases after_widen h extra k with hsame | ⟨i, m', position', capacity', hover, hlike⟩
  · refine ⟨k, ?_⟩
    rw [hsame, hk]
    exact ⟨rfl, rfl⟩
  · cases Engine.done_unique hk hover
    exact ⟨i, hlike⟩

theorem OnTape.overflow_eq (h : OnTape C c.machine) {position : Int} {capacity : Nat}
    (hk : engine.after k c = .done ⟨m, .overflow position capacity⟩) :
    position = C ∧ capacity = C := by
  obtain ⟨n, t, -, -, hends⟩ := h.exists_ends hk
  cases hends
  exact ⟨rfl, rfl⟩

theorem overflows_of_widen (h : OnTape C c.machine) (extra : Nat) {position : Int}
    {capacity : Nat}
    (hk : engine.after k (c.widen extra) = .done ⟨m, .overflow position capacity⟩) :
    ∃ i m', engine.after i c = .done ⟨m', .overflow C C⟩ := by
  rcases after_widen h extra k with hsame | ⟨i, m', position', capacity', hover, -⟩
  · rw [hk] at hsame
    cases hc : engine.after k c with
    | next t =>
      rw [hc] at hsame
      contradiction
    | done e =>
      rw [hc] at hsame
      obtain ⟨m', ending⟩ := e
      cases hsame
      obtain ⟨rfl, rfl⟩ := h.overflow_eq hc
      exact ⟨k, m', hc⟩
  · obtain ⟨rfl, rfl⟩ := h.overflow_eq hover
    exact ⟨i, m', hover⟩

end Machine

namespace Prepared

open Machine

/-- The machine of a prepared program on a new tape after a number of steps. After the end of the
run it is the last one. -/
def moment (p : Prepared) (reader : Reader) (writer : Writer) (steps : Nat) : Machine :=
  engine.look (engine.after steps ⟨start p.capacity reader writer, [p.code]⟩)

/-- The output of `m` is a prefix of that of `m'`, and what `m` has taken from the input is a prefix
of what `m'` has taken. -/
def Precedes (reader : Reader) (m m' : Machine) : Prop :=
  m.writer.output.toList <+: m'.writer.output.toList ∧
    ∃ taken more, reader.unread = taken ++ m.reader.unread ∧
      reader.unread = taken ++ more ++ m'.reader.unread

variable {program : Program} {C extra k : Nat} {m : Machine} {reader : Reader} {writer : Writer}

theorem config_widen (program : Program) (C extra : Nat) (reader : Reader) (writer : Writer) :
    Config.widen extra ⟨start C reader writer, [code ⟨program, C⟩]⟩ =
      ⟨start (C + extra) reader writer, [code ⟨program, C + extra⟩]⟩ := by
  rw [Config.widen, widen_start]
  rfl

/-- What a machine has read and written at some moment of a run precedes all that the run comes to
later. -/
theorem precedes_of_carries {p : Prepared} {m' : Machine}
    (hreader : (p.moment reader writer k).reader = m.reader)
    (houtput : (p.moment reader writer k).writer.output = m.writer.output)
    (h : Carries (p.moment reader writer k) m') : Precedes reader m m' := by
  have hstart : Carries (p.moment reader writer 0) (p.moment reader writer k) :=
    carries_after (Nat.zero_le k) _
  obtain ⟨taken, htaken⟩ := hstart.unread
  obtain ⟨more, hmore⟩ := h.unread
  refine ⟨houtput ▸ h.output, taken, more, ?_, ?_⟩
  · rw [← hreader]
    exact htaken.symm
  · rw [List.append_assoc, hmore]
    exact htaken.symm

theorem carries_of_endsWith {p : Prepared} {e : Ended} (h : p.EndsWith reader writer e) (k : Nat) :
    Carries (p.moment reader writer k) e.machine := by
  obtain ⟨n, e, hn, rfl⟩ := endsWith_iff_after.mp h
  have hcarries : Carries (p.moment reader writer k) (p.moment reader writer (k + n)) :=
    carries_after (Nat.le_add_right k n) _
  have hend : p.moment reader writer (k + n) = e.machine := by
    rw [moment, Nat.add_comm, Engine.after_add_done hn]
    rfl
  rw [hend] at hcarries
  exact ⟨hcarries.output, hcarries.unread⟩

section Wider

variable (hC : 1 ≤ C)
include hC

theorem endsWith_wider {e : Ended} (h : EndsWith ⟨program, C⟩ reader writer e)
    (hend : e.ending = .completed ∨ e.ending = .halted) (extra : Nat) :
    EndsWith ⟨program, C + extra⟩ reader writer (e.widen extra) := by
  obtain ⟨k, e, hk, rfl⟩ := endsWith_iff_after.mp h
  have hwide := after_widen_of_done (.start hC reader writer) extra hk hend
  rw [config_widen] at hwide
  exact endsWith_iff_after.mpr ⟨k, _, hwide, rfl⟩

theorem exists_same_moment {position : Int} {capacity : Nat}
    (h : EndsWith ⟨program, C⟩ reader writer ⟨m, .overflow position capacity⟩) (extra : Nat) :
    ∃ k, (moment ⟨program, C + extra⟩ reader writer k).reader = m.reader ∧
      (moment ⟨program, C + extra⟩ reader writer k).writer.output = m.writer.output := by
  obtain ⟨k, ⟨m', ending⟩, hk, hfinish⟩ := endsWith_iff_after.mp h
  cases hfinish
  obtain ⟨i, hreader, hwriter⟩ := exists_moment_of_overflow (.start hC reader writer) extra hk
  rw [config_widen] at hreader hwriter
  have houtput := congrArg Writer.output hwriter
  exact ⟨i, hreader, houtput⟩

theorem overflow_of_wider {position : Int} {capacity : Nat}
    (h : EndsWith ⟨program, C + extra⟩ reader writer ⟨m, .overflow position capacity⟩) :
    ∃ m', EndsWith ⟨program, C⟩ reader writer ⟨m', .overflow C C⟩ := by
  obtain ⟨k, ⟨m', ending⟩, hk, hfinish⟩ := endsWith_iff_after.mp h
  cases hfinish
  rw [← config_widen] at hk
  obtain ⟨i, m', hi⟩ := overflows_of_widen (.start hC reader writer) extra hk
  exact ⟨_, endsWith_iff_after.mpr ⟨i, _, hi, rfl⟩⟩

end Wider

end Prepared

/-- A run that completes or halts on a smaller tape does just the same on a larger one, with further
zeros behind its cells. One that overflows the smaller tape has written and taken until then what
the run on the larger tape starts with, and overflows the smaller one if it overflows the larger. -/
theorem larger_tape_same_run {text : List Char} (hb : Balanced text) {C₁ C₂ : Nat} (hC : 1 ≤ C₁)
    (hle : C₁ ≤ C₂) (reader : Reader) (writer : Writer) :
    ∃ program, Program.parse text = .ok program ∧
      (∀ e, Prepared.EndsWith ⟨program, C₁⟩ reader writer e →
        e.ending = .completed ∨ e.ending = .halted →
        Prepared.EndsWith ⟨program, C₂⟩ reader writer
          ⟨{ e.machine with cells := e.machine.cells ++ Array.replicate (C₂ - C₁) 0 },
            e.ending⟩) ∧
      (∀ m position capacity,
        Prepared.EndsWith ⟨program, C₁⟩ reader writer ⟨m, .overflow position capacity⟩ →
        (∃ k, ∀ j ≥ k,
          Prepared.Precedes reader m (Prepared.moment ⟨program, C₂⟩ reader writer j)) ∧
        ∀ e, Prepared.EndsWith ⟨program, C₂⟩ reader writer e →
          Prepared.Precedes reader m e.machine) ∧
      (∀ m position capacity,
        Prepared.EndsWith ⟨program, C₂⟩ reader writer ⟨m, .overflow position capacity⟩ →
        ∃ m', Prepared.EndsWith ⟨program, C₁⟩ reader writer ⟨m', .overflow C₁ C₁⟩) := by
  obtain ⟨program, hparse, -⟩ := hb.parse (shallow_length text)
  obtain ⟨extra, rfl⟩ := Nat.exists_eq_add_of_le hle
  rw [Nat.add_sub_cancel_left]
  refine ⟨program, hparse, fun e he hend => ?_, fun m position capacity hover => ?_,
    fun m position capacity hover => ?_⟩
  · exact Prepared.endsWith_wider hC he hend extra
  · obtain ⟨k, hreader, houtput⟩ := Prepared.exists_same_moment hC hover extra
    constructor
    · refine ⟨k, fun j hj => ?_⟩
      exact Prepared.precedes_of_carries hreader houtput (Machine.carries_after hj _)
    · intro e he
      exact Prepared.precedes_of_carries hreader houtput (Prepared.carries_of_endsWith he k)
  · exact Prepared.overflow_of_wider hC hover

/-- A program that moves to the right as long as it reads no zero, on tapes of two and of three
cells: with one input it completes on both, and with the other it overflows both. -/
theorem larger_tape_same_run_reading :
    ∃ program, Program.parse ",[.>,]".toList = .ok program ∧
      Prepared.EndsWith ⟨program, 3⟩ (.ofBytes [1, 0]) {}
        ⟨⟨#[1, 0, 0], 1, .ofBytes [], ⟨#[1], 1, false⟩⟩, .completed⟩ ∧
      Prepared.EndsWith ⟨program, 2⟩ (.ofBytes [1, 2, 3]) {}
        ⟨⟨#[1, 2], 2, .ofBytes [3], ⟨#[1, 2], 1, false⟩⟩, .overflow 2 2⟩ ∧
      (∃ k, ∀ j ≥ k, Prepared.Precedes (.ofBytes [1, 2, 3])
        ⟨#[1, 2], 2, .ofBytes [3], ⟨#[1, 2], 1, false⟩⟩
        (Prepared.moment ⟨program, 3⟩ (.ofBytes [1, 2, 3]) {} j)) := by
  have hbalanced : Balanced ",[.>,]".toList := by decide
  have hparse : Program.parse ",[.>,]".toList = .ok ⟨.cons .input
      (.loop (.cons .output (.cons (.move 1) (.cons .input .nil))) .nil), 1, 6⟩ := rfl
  obtain ⟨program, hprogram, hfits, -, -⟩ :=
    larger_tape_same_run hbalanced (by decide : 1 ≤ 2) (by decide : 2 ≤ 3) (.ofBytes [1, 0]) {}
  obtain ⟨program', hprogram', -, hover, -⟩ :=
    larger_tape_same_run hbalanced (by decide : 1 ≤ 2) (by decide : 2 ≤ 3) (.ofBytes [1, 2, 3]) {}
  cases hparse.symm.trans hprogram
  cases hparse.symm.trans hprogram'
  have hcompleted : Prepared.EndsWith ⟨⟨.cons .input
      (.loop (.cons .output (.cons (.move 1) (.cons .input .nil))) .nil), 1, 6⟩, 2⟩
      (.ofBytes [1, 0]) {} ⟨⟨#[1, 0], 1, .ofBytes [], ⟨#[1], 1, false⟩⟩, .completed⟩ :=
    ⟨20, by decide⟩
  have hoverflow : Prepared.EndsWith ⟨⟨.cons .input
      (.loop (.cons .output (.cons (.move 1) (.cons .input .nil))) .nil), 1, 6⟩, 2⟩
      (.ofBytes [1, 2, 3]) {}
      ⟨⟨#[1, 2], 2, .ofBytes [3], ⟨#[1, 2], 1, false⟩⟩, .overflow 2 2⟩ := ⟨20, by decide⟩
  exact ⟨_, hparse, hfits _ hcompleted (.inl rfl), hoverflow, (hover _ _ _ hoverflow).1⟩

end TapeLang
