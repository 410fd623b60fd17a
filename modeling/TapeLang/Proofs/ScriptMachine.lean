import TapeLang.Proofs.MachineSteps
import TapeLang.Proofs.Parsing
import TapeLang.Proofs.ScriptLayout
import TapeLang.Proofs.Simulation

/-! The script of a program does what the program does on a machine. A script has no other way to
stop than a return or a raise of its own, with a flush before it, so the check behind a move must do
what the machine does by itself, in however many loops it stands. Each step of the machine is
matched by the statements of the primitive or of the loop at hand. -/

namespace TapeLang

/-- Whether a statement is that of a primitive. -/
def Statement.acts : Statement → Bool
  | .increment | .decrement | .right | .left | .write | .read => true
  | .flush | .raise | .giveBack | .pass => false

namespace Script

def Config.acts (c : Config) : Bool :=
  match c.todo with
  | .line s _ :: _ => s.acts
  | _ => false

def engine : Engine Config Ended Machine where
  step := Config.step
  acts := Config.acts
  view := Config.machine
  viewEnd := Ended.machine

/-- The statements at the end of every script. -/
def lastLines : Suite := .line .flush (.line .giveBack .nil)

/-- The statements below the check for an overflow. -/
def raiseLines : Suite := .line .flush (.line .raise .nil)

/-- Suites to be carried out in turn, with the end of the script behind the last of them. -/
def closed : List Suite → List Suite
  | [] => [lastLines]
  | [s] => [s.append lastLines]
  | s :: t :: rest => s :: closed (t :: rest)

variable {m m' : Machine} {st : Statement} {s body : Suite} {rest : List Suite} {p : Prim}

/-! ### Single steps -/

theorem step_line (h : execute m st = .next m') :
    engine.step ⟨m, .line st s :: rest⟩ = .next ⟨m', s :: rest⟩ := by
  simp only [engine, Config.step, h]

theorem step_line_done {e : Ended} (h : execute m st = .done e) :
    engine.step ⟨m, .line st s :: rest⟩ = .done e := by
  simp only [engine, Config.step, h]

theorem step_closed_line (h : execute m st = .next m') :
    engine.step ⟨m, closed (.line st s :: rest)⟩ = .next ⟨m', closed (s :: rest)⟩ := by
  cases rest with
  | nil => exact step_line h
  | cons t rest => exact step_line h

theorem acts_closed_line : engine.acts ⟨m, closed (.line st s :: rest)⟩ = st.acts := by
  cases rest <;> rfl

theorem acts_closed_nested {h : Header} :
    engine.acts ⟨m, closed (.nested h body s :: rest)⟩ = false := by
  cases rest <;> rfl

theorem step_closed_pass (h : m.Safe) (hz : m.cell = 0) :
    engine.step ⟨m, closed (.nested .whileNonzero body s :: rest)⟩ =
      .next ⟨m, closed (s :: rest)⟩ := by
  cases rest <;> simp [engine, Config.step, closed, Suite.append, Machine.current?_eq h, hz]

theorem step_closed_again (h : m.Safe) (hz : m.cell ≠ 0) :
    engine.step ⟨m, closed (.nested .whileNonzero body s :: rest)⟩ =
      .next ⟨m, closed (body :: .nested .whileNonzero body s :: rest)⟩ := by
  cases rest <;> simp [engine, Config.step, closed, Suite.append, Machine.current?_eq h, hz]

theorem step_closed_full (h : (m.capacity : Int) ≤ m.pointer) :
    engine.step ⟨m, closed (.nested .ifFull body s :: rest)⟩ =
      .next ⟨m, body :: closed (s :: rest)⟩ := by
  cases rest <;> simp [engine, Config.step, closed, Suite.append, h]

theorem step_closed_not_full (h : ¬ (m.capacity : Int) ≤ m.pointer) :
    engine.step ⟨m, closed (.nested .ifFull body s :: rest)⟩ = .next ⟨m, closed (s :: rest)⟩ := by
  cases rest <;> simp [engine, Config.step, closed, Suite.append, h]

theorem step_closed_below (h : m.pointer < 0) :
    engine.step ⟨m, closed (.nested .ifBelow body s :: rest)⟩ =
      .next ⟨m, body :: closed (s :: rest)⟩ := by
  cases rest <;> simp [engine, Config.step, closed, Suite.append, h]

theorem step_closed_not_below (h : ¬ m.pointer < 0) :
    engine.step ⟨m, closed (.nested .ifBelow body s :: rest)⟩ = .next ⟨m, closed (s :: rest)⟩ := by
  cases rest <;> simp [engine, Config.step, closed, Suite.append, h]

/-- The `pass` that stands for an empty suite is passed. -/
theorem arrives_orPass :
    engine.Arrives ⟨m, closed (s.orPass :: rest)⟩ 0 (.next ⟨m, closed (s :: rest)⟩) := by
  cases s with
  | nil => exact .of_quiet_step (step_closed_line rfl) acts_closed_line
  | line => exact .refl engine _
  | nested => exact .refl engine _

theorem arrives_last {e : Ended} (hst : st.acts = false)
    (h : execute { m with writer := m.writer.flush } st = .done e) :
    engine.Arrives ⟨m, .line .flush (.line st s) :: rest⟩ 0 (.done e) := by
  have hflush : engine.Arrives ⟨m, .line .flush (.line st s) :: rest⟩ 0
      (.next ⟨{ m with writer := m.writer.flush }, .line st s :: rest⟩) :=
    .of_quiet_step (step_line rfl) rfl
  exact hflush.quiet (.of_quiet_step (step_line_done h) hst)

/-! ### Primitives -/

theorem change_eq (h : m.Safe) (f : Cell → Cell) : change m f = .next (m.setCell (f m.cell)) := by
  rw [change, Machine.update_eq h]

/-- The statements of a primitive that leaves the pointer on the tape. -/
theorem advances_prim (h : m.Safe) (hp : (m.act p).Safe) :
    engine.Advances ⟨m, closed (Suite.ofPrim s p :: rest)⟩ 1 ⟨m.act p, closed (s :: rest)⟩ := by
  have hlow := hp.low
  have hhigh := hp.high
  cases p with
  | increment => exact .of_action (step_closed_line (change_eq h _)) acts_closed_line
  | decrement => exact .of_action (step_closed_line (change_eq h _)) acts_closed_line
  | right =>
    have hmove : engine.Advances ⟨m, closed (Suite.ofPrim s .right :: rest)⟩ 1
        ⟨m.act .right, closed (.nested .ifFull raiseLines s :: rest)⟩ :=
      .of_action (step_closed_line rfl) acts_closed_line
    exact hmove.quiet (.of_quiet_step (step_closed_not_full (by omega)) acts_closed_nested)
  | left =>
    have hmove : engine.Advances ⟨m, closed (Suite.ofPrim s .left :: rest)⟩ 1
        ⟨m.act .left, closed (.nested .ifBelow lastLines s :: rest)⟩ :=
      .of_action (step_closed_line rfl) acts_closed_line
    exact hmove.quiet (.of_quiet_step (step_closed_not_below (by omega)) acts_closed_nested)
  | output =>
    have hwrite : execute m .write = .next (m.act .output) := by
      simp only [execute, Machine.current?_eq h, Machine.act]
    exact .of_action (step_closed_line hwrite) acts_closed_line
  | input =>
    have hread : ({ m with reader := m.reader.read.2 } : Machine).Safe := ⟨h.low, h.high⟩
    exact .of_action (step_closed_line (change_eq hread fun _ => m.reader.read.1)) acts_closed_line

theorem eq_left (h : m.Safe) (hp : (m.act p).pointer < 0) : p = .left := by
  have hlow := h.low
  cases p with
  | left => rfl
  | right =>
    replace hp : m.pointer + 1 < 0 := hp
    omega
  | increment => exact absurd hlow (Int.not_le.mpr hp)
  | decrement => exact absurd hlow (Int.not_le.mpr hp)
  | output => exact absurd hlow (Int.not_le.mpr hp)
  | input => exact absurd hlow (Int.not_le.mpr hp)

theorem eq_right (h : m.Safe) (hp : (m.capacity : Int) ≤ (m.act p).pointer) : p = .right := by
  have hhigh := h.high
  cases p with
  | right => rfl
  | left =>
    replace hp : (m.capacity : Int) ≤ m.pointer - 1 := hp
    omega
  | increment => exact absurd hhigh (Int.not_lt.mpr hp)
  | decrement => exact absurd hhigh (Int.not_lt.mpr hp)
  | output => exact absurd hhigh (Int.not_lt.mpr hp)
  | input => exact absurd hhigh (Int.not_lt.mpr hp)

/-- How a script ends that does what a machine with this ending does. -/
def endingOf : Machine.Ending → Ending
  | .completed => .returned
  | .halted => .returned
  | .overflow position capacity => .overflow position capacity
  | .strayed position => .strayed position

/-- The end of a script that does what a machine does that ends with `e`. -/
def outcome (e : Machine.Ended) : Ended := ⟨e.machine, endingOf e.ending⟩

theorem arrives_halted (h : m.Safe) (hp : (m.act p).pointer < 0) :
    engine.Arrives ⟨m, closed (Suite.ofPrim s p :: rest)⟩ 1
      (.done (outcome (Machine.finish ⟨m.act p, .halted⟩))) := by
  obtain rfl := eq_left h hp
  have hmove : engine.Arrives ⟨m, closed (Suite.ofPrim s .left :: rest)⟩ 1
      (.next ⟨m.act .left, closed (.nested .ifBelow lastLines s :: rest)⟩) :=
    (Engine.Advances.of_action (step_closed_line rfl) acts_closed_line).arrives
  have hcheck : engine.Arrives ⟨m.act .left, closed (.nested .ifBelow lastLines s :: rest)⟩ 0
      (.next ⟨m.act .left, lastLines :: closed (s :: rest)⟩) :=
    .of_quiet_step (step_closed_below hp) acts_closed_nested
  exact hmove.trans (hcheck.quiet (arrives_last rfl rfl))

theorem arrives_overflow (h : m.Safe) (hp : (m.capacity : Int) ≤ (m.act p).pointer) :
    engine.Arrives ⟨m, closed (Suite.ofPrim s p :: rest)⟩ 1
      (.done (outcome (Machine.finish ⟨m.act p, .overflow (m.act p).pointer m.capacity⟩))) := by
  obtain rfl := eq_right h hp
  have hmove : engine.Arrives ⟨m, closed (Suite.ofPrim s .right :: rest)⟩ 1
      (.next ⟨m.act .right, closed (.nested .ifFull raiseLines s :: rest)⟩) :=
    (Engine.Advances.of_action (step_closed_line rfl) acts_closed_line).arrives
  have hcheck : engine.Arrives ⟨m.act .right, closed (.nested .ifFull raiseLines s :: rest)⟩ 0
      (.next ⟨m.act .right, raiseLines :: closed (s :: rest)⟩) :=
    .of_quiet_step (step_closed_full hp) acts_closed_nested
  exact hmove.trans (hcheck.quiet (arrives_last rfl rfl))

/-! ### Whole runs -/

/-- A script and a machine in the same run: what is left of the script is written from the blocks
that the machine has still to carry out. -/
structure Follows (c : Config) (t : Machine.Config) : Prop where
  machine : c.machine = t.machine
  safe : t.machine.Safe
  written : ∃ ops : List (Block Op), t.todo = ops.map (Block.map Op.prim) ∧
    c.todo = closed (ops.map Suite.statements)

/-- A script has ended as the machine has, which was on the tape all the time. -/
def Ends (o : Step Config Ended) (e : Machine.Ended) : Prop :=
  o = .done (outcome (Machine.finish e)) ∧ ∀ position, e.ending ≠ .strayed position

variable {c : Config} {t t' : Machine.Config}

/-- Each step of the machine is matched by the script. Only the end of the outermost block is none
for the script, whose last lines stand right behind it. -/
theorem Follows.next (h : Follows c t) (hstep : Machine.engine.step t = .next t') :
    (∃ c', engine.Advances c (Machine.engine.acts t).toNat c' ∧ Follows c' t') ∨
      Machine.engine.acts t = false ∧ t'.todo.length < t.todo.length ∧ Follows c t' := by
  obtain ⟨m, todo⟩ := c
  obtain ⟨_, _⟩ := t
  obtain ⟨rfl, hsafe, ops, rfl, rfl⟩ := h
  dsimp only at hsafe hstep ⊢
  match ops with
  | [] => contradiction
  | .nil :: ops =>
    cases hstep
    match ops with
    | [] => exact .inr ⟨rfl, Nat.lt_succ_self _, rfl, hsafe, [], rfl, rfl⟩
    | b :: ops => exact .inl ⟨_, .of_quiet_step rfl rfl, rfl, hsafe, b :: ops, rfl, rfl⟩
  | .cons o b :: ops =>
    rcases Machine.step_cons_cases hsafe o.prim (b.map Op.prim) (ops.map (Block.map Op.prim)) with
      ⟨hact, hnext⟩ | ⟨-, hend⟩ | ⟨-, hend⟩
    · cases hnext.symm.trans hstep
      exact .inl ⟨_, advances_prim hsafe hact, rfl, hact, b :: ops, rfl, rfl⟩
    · cases hend.symm.trans hstep
    · cases hend.symm.trans hstep
  | .loop body b :: ops =>
    by_cases hz : m.cell = 0
    · cases (Machine.step_pass hsafe hz).symm.trans hstep
      exact .inl ⟨_, .of_quiet_step (step_closed_pass hsafe hz) acts_closed_nested, rfl, hsafe,
        b :: ops, rfl, rfl⟩
    · cases (Machine.step_again hsafe hz).symm.trans hstep
      have hagain : engine.Advances ⟨m, closed ((.loop body b :: ops).map Suite.statements)⟩ 0
          ⟨m, closed ((Suite.statements body).orPass ::
            (.loop body b :: ops).map Suite.statements)⟩ :=
        .of_quiet_step (step_closed_again hsafe hz) acts_closed_nested
      exact .inl ⟨_, hagain.quiet arrives_orPass, rfl, hsafe, body :: .loop body b :: ops, rfl,
        rfl⟩

/-- Where the machine ends, the script returns or raises. -/
theorem Follows.done {e : Machine.Ended} (h : Follows c t)
    (hstep : Machine.engine.step t = .done e) :
    ∃ o, engine.Arrives c (Machine.engine.acts t).toNat o ∧ Ends o e := by
  obtain ⟨m, todo⟩ := c
  obtain ⟨_, _⟩ := t
  obtain ⟨rfl, hsafe, ops, rfl, rfl⟩ := h
  dsimp only at hsafe hstep ⊢
  match ops with
  | [] =>
    cases hstep
    exact ⟨_, arrives_last rfl rfl, rfl, nofun⟩
  | .nil :: ops => contradiction
  | .cons o b :: ops =>
    rcases Machine.step_cons_cases hsafe o.prim (b.map Op.prim) (ops.map (Block.map Op.prim)) with
      ⟨-, hnext⟩ | ⟨hneg, hend⟩ | ⟨hfull, hend⟩
    · cases hnext.symm.trans hstep
    · cases hend.symm.trans hstep
      exact ⟨_, arrives_halted hsafe hneg, rfl, nofun⟩
    · cases hend.symm.trans hstep
      exact ⟨_, arrives_overflow hsafe hfull, rfl, nofun⟩
  | .loop body b :: ops =>
    by_cases hz : m.cell = 0
    · cases (Machine.step_pass hsafe hz).symm.trans hstep
    · cases (Machine.step_again hsafe hz).symm.trans hstep

theorem simulation : Simulation engine Machine.engine Follows Ends fun t => t.todo.length where
  next := Follows.next
  done := Follows.done

/-- The lines of a block, run on a new tape of a capacity, end with `e`. -/
def EndsWith (capacity : Nat) (b : Block Op) (reader : Reader) (writer : Writer) (e : Ended) :
    Prop :=
  ∃ fuel, runLines fuel (programLines b) (Machine.start capacity reader writer) = some e

section Programs

variable {text : List Char} {program : Program} {C : Nat} {b : Block Op} {reader : Reader}
  {writer : Writer} {e : Ended}

/-- Where there is a tape, the lines are run on it. -/
theorem runProgram_eq {memory : Memory} (h : memory.HasTape C) (fuel : Nat) (program : Program)
    (reader : Reader) (writer : Writer) : runProgram memory fuel C program reader writer =
      .ok (runLines fuel (programLines program.block) (Machine.start C reader writer)) := by
  rw [runProgram, Machine.start?_of_hasTape h]
  rfl

theorem endsWith_iff_run {memory : Memory} (h : memory.HasTape C) :
    EndsWith C program.block reader writer e ↔
      ∃ fuel, runProgram memory fuel C program reader writer = .ok (some e) := by
  refine exists_congr fun fuel => ?_
  rw [runProgram_eq h]
  exact Except.ok.injEq _ _ ▸ Iff.rfl

theorem endsWith_iff_after : EndsWith C b reader writer e ↔
    ∃ k, engine.after k ⟨Machine.start C reader writer, closed [Suite.statements b]⟩ = .done e := by
  have hstart : engine.Arrives ⟨Machine.start C reader writer, [Suite.ofProgram b]⟩ 0
      (.next ⟨Machine.start C reader writer, closed [Suite.statements b]⟩) := by
    show engine.Arrives ⟨_, closed [(Suite.statements b).orPass]⟩ 0 _
    exact arrives_orPass
  rw [← hstart.done_iff]
  refine exists_congr fun fuel => ?_
  rw [runLines, Suite.ofLines?_programLines, Option.bind_some]
  exact engine.runFor_eq_some_iff

theorem follows_start (hC : 1 ≤ C) (b : Block Op) (reader : Reader) (writer : Writer) :
    Follows ⟨Machine.start C reader writer, closed [Suite.statements b]⟩
      ⟨Machine.start C reader writer, [b.map Op.prim]⟩ where
  machine := rfl
  safe := by
    refine ⟨Int.le_refl 0, ?_⟩
    simp only [Machine.start, Machine.capacity, Array.size_replicate]
    omega
  written := ⟨[b], rfl, rfl⟩

theorem endsWith_of_prepared (hC : 1 ≤ C) {e : Machine.Ended}
    (h : Prepared.EndsWith ⟨program, C⟩ reader writer e) :
    EndsWith C program.block reader writer (outcome e) ∧
      ∀ position, e.ending ≠ .strayed position := by
  obtain ⟨k, e, hk, rfl⟩ := Prepared.endsWith_iff_after.mp h
  obtain ⟨n, e', hn, hends, hstay⟩ := simulation.exists_done (fun _ _ h => ⟨_, h.1⟩)
    (follows_start hC program.block reader writer) hk
  cases hends
  exact ⟨endsWith_iff_after.mpr ⟨n, hn⟩, hstay⟩

theorem prepared_of_endsWith (hC : 1 ≤ C) (h : EndsWith C program.block reader writer e) :
    ∃ e', Prepared.EndsWith ⟨program, C⟩ reader writer e' ∧ e = outcome e' := by
  obtain ⟨n, hn⟩ := endsWith_iff_after.mp h
  obtain ⟨k, e', hk, hends, -⟩ := simulation.done_matched (fun _ _ h => ⟨_, h.1⟩)
    (follows_start hC program.block reader writer) hn
  cases hends
  exact ⟨_, Prepared.endsWith_iff_after.mpr ⟨k, e', hk, rfl⟩, rfl⟩

end Programs

end Script

/-! ### Tapes of the host -/

/-- On a host, a program is run on a machine that starts with a tape of a capacity, both when it is
prepared and when it is written as a script. -/
structure Program.RunsOnTape (memory : Memory) (capacity : Nat) (program : Program) : Prop where
  prepared : ∀ fuel reader writer, Prepared.run memory fuel ⟨program, capacity⟩ reader writer =
    .ok (Machine.run fuel (Prepared.code ⟨program, capacity⟩)
      (Machine.start capacity reader writer))
  script : ∀ fuel reader writer, Script.runProgram memory fuel capacity program reader writer =
    .ok (Script.runLines fuel (Script.programLines program.block)
      (Machine.start capacity reader writer))

theorem Memory.HasTape.runs {memory : Memory} {capacity : Nat} (h : memory.HasTape capacity)
    (program : Program) : program.RunsOnTape memory capacity where
  prepared := Prepared.run_eq (p := ⟨program, capacity⟩) h
  script fuel := Script.runProgram_eq h fuel program

end TapeLang
