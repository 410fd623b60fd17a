import TapeLang.Proofs.InputRead

/-! What a run leaves in its sink. The bytes that a run writes are collected step by step, from the
cell under the pointer at each output primitive; the sink then holds just these bytes, in order. A
run flushes once, at its end, besides the flushes of a writer that flushes each byte. A walk and a
machine are flushed from outside when they have ended in whatever way, and a script by the last of
its own statements, which is always one of three. -/

namespace TapeLang

namespace Writer

variable (w : Writer) (bytes : List UInt8)

theorem output_foldl_write : (bytes.foldl write w).output = w.output ++ bytes.toArray := by
  induction bytes generalizing w with
  | nil => simp
  | cons b bytes ih =>
    rw [List.foldl_cons, ih, output_write, Array.push_eq_append, Array.append_assoc,
      ← List.toArray_cons]

theorem autoflush_foldl_write : (bytes.foldl write w).autoflush = w.autoflush := by
  induction bytes generalizing w with
  | nil => rfl
  | cons b bytes ih => rw [List.foldl_cons, ih, autoflush_write]

theorem flushes_foldl_write :
    (bytes.foldl write w).flushes = w.flushes + if w.autoflush then bytes.length else 0 := by
  induction bytes generalizing w with
  | nil => simp
  | cons b bytes ih =>
    rw [List.foldl_cons, ih, flushes_write, autoflush_write, List.length_cons]
    split <;> omega

/-- The writer `w` after a run that found it as `w₀` and wrote `bytes`. -/
structure Settled (w₀ : Writer) (bytes : List UInt8) (w : Writer) : Prop where
  output : w.output = w₀.output ++ bytes.toArray
  flushes : w.flushes = w₀.flushes + (1 + if w₀.autoflush then bytes.length else 0)
  autoflush : w.autoflush = w₀.autoflush

theorem settled_flush : w.Settled bytes (bytes.foldl write w).flush where
  output := output_foldl_write w bytes
  flushes := by
    rw [flushes_flush, flushes_foldl_write]
    omega
  autoflush := autoflush_foldl_write w bytes

/-- The bytes of a run can be read off its output. -/
theorem Settled.bytes_eq {w₀ w : Writer} {bytes bytes' : List UInt8} (h : w₀.Settled bytes w)
    (h' : w.output = w₀.output ++ bytes'.toArray) : bytes' = bytes := by
  rw [h.output, Array.append_right_inj] at h'
  exact congrArg Array.toList h'.symm

end Writer

namespace Engine

variable {σ ρ ω α β : Type} {E : Engine σ ρ ω} {emits : σ → List α} {s : σ}

/-- What the first steps of a run emit, when a step from `s` emits `emits s`. -/
def trace (E : Engine σ ρ ω) (emits : σ → List α) : Nat → σ → List α
  | 0, _ => []
  | k + 1, s =>
    emits s ++
      match E.step s with
      | .next t => trace E emits k t
      | .done _ => []

/-- When each step puts what it emits to what is seen, a run puts all that it emits. -/
theorem look_after_eq_foldl {f : ω → β} {put : β → α → β}
    (hstep : ∀ s, f (E.look (E.step s)) = (emits s).foldl put (f (E.view s))) (k : Nat) (s : σ) :
    f (E.look (E.after k s)) = (E.trace emits k s).foldl put (f (E.view s)) := by
  induction k generalizing s with
  | zero => rfl
  | succ k ih =>
    have hs := hstep s
    cases hk : E.step s with
    | next t =>
      rw [hk] at hs
      rw [after_succ_next hk, ih t, trace, hk, List.foldl_append]
      exact congrArg (fun v => (E.trace emits k t).foldl put v) hs
    | done r =>
      rw [hk] at hs
      rw [after_succ_done hk, trace, hk, List.append_nil]
      exact hs

end Engine

/-- What a step leads to, also when it ends the run. -/
def Step.reached {σ ρ : Type} (last : ρ → σ) : Step σ ρ → σ
  | .next s => s
  | .done r => last r

namespace Walk

variable {memory : Memory} {w : Walk} {frames : List Frame} {room : Nat} {c : Config}

/-- The byte that the next step of a walk writes, if it performs an output primitive. -/
def Config.emits (c : Config) : List UInt8 :=
  match c.walk.code[c.walk.position]?.bind Symbol.ofChar? with
  | some (.prim .output) => if c.skip || c.walk.world.halted then [] else [c.walk.world.cell]
  | _ => []

theorem of_acts (h : (engine memory).acts c = true) :
    c.walk.world.halted = false ∧ c.skip = false ∧
      ∃ p : Prim, c.walk.code[c.walk.position]? = some p.toChar := by
  simp only [engine, Config.acts] at h
  split at h
  · rename_i p hp
    obtain ⟨ch, hc, hs⟩ := Option.bind_eq_some_iff.mp hp
    obtain rfl := Symbol.toChar_of_ofChar? hs
    simp only [Bool.and_eq_true, Bool.not_eq_true'] at h
    exact ⟨h.2, h.1, p, hc⟩
  · contradiction

theorem writer_update (f : Cell → Cell) : (w.update memory f).1.writer = w.writer := by
  unfold update
  dsimp only
  split
  · rfl
  · split <;> rfl

theorem writer_perform (hh : w.world.halted = false) (p : Prim) :
    (w.perform memory p).1.writer =
      if p = .output then w.writer.write w.world.cell else w.writer := by
  cases p with
  | increment => exact writer_update _
  | decrement => exact writer_update _
  | right => rfl
  | left => rfl
  | output =>
    simp only [perform, current_of_not_halted hh]
    rfl
  | input => exact writer_update (w := { w with reader := w.reader.read.2 }) _

theorem writer_performed (e : Walk × Option Tape.Fault) :
    ((engine memory).look (Config.performed frames room e)).writer = e.1.writer := by
  obtain ⟨w, _ | e⟩ := e <;> rfl

theorem emits_of_quiet (h : (engine memory).acts c = false) : c.emits = [] := by
  unfold Config.emits
  split
  · rename_i hp
    simp only [engine, Config.acts, hp] at h
    rw [if_pos]
    cases hs : c.skip <;> cases hh : c.walk.world.halted <;> simp_all
  · rfl

theorem emits_prim (hh : w.world.halted = false) {p : Prim}
    (hc : w.code[w.position]? = some p.toChar) :
    Config.emits ⟨w, false, frames, room⟩ = if p = .output then [w.world.cell] else [] := by
  have hp : Symbol.ofChar? p.toChar = some (.prim p) := Symbol.ofChar?_toChar (.prim p)
  simp only [Config.emits, hc, Option.bind_some, hp, hh]
  cases p <;> rfl

/-- A step writes what it emits, also when it ends the walk. -/
theorem writer_step (c : Config) :
    ((engine memory).look ((engine memory).step c)).writer =
      c.emits.foldl Writer.write c.walk.writer := by
  cases hacts : (engine memory).acts c with
  | false =>
    rw [engine_quiet c hacts, emits_of_quiet hacts]
    rfl
  | true =>
    obtain ⟨w, skip, frames, room⟩ := c
    obtain ⟨hh, rfl, p, hc⟩ := of_acts hacts
    rw [step_performed hh hc, writer_performed, writer_perform hh, emits_prim hh hc]
    split <;> rfl

/-- The bytes that the walk of a text writes in a number of steps. -/
def written (memory : Memory) (text : List Char) (room : Nat) (reader : Reader) (writer : Writer)
    (steps : Nat) : List UInt8 :=
  (engine memory).trace Config.emits steps ⟨start text reader writer, false, [], room⟩

theorem writer_finish (o : Outcome) : (finish o).1.writer = o.walk.writer.flush := by
  obtain ⟨w, result⟩ := o
  cases result <;> rfl

theorem settled_run {text : List Char} {reader : Reader} {writer : Writer} {fuel : Nat}
    {fault : Option Fault}
    (h : (start text reader writer).run memory room fuel = some (w, fault)) :
    writer.Settled (written memory text room reader writer fuel) w.writer := by
  obtain ⟨o, ho, hfinish⟩ := run_eq_some_iff.mp h
  have hwriter := Engine.look_after_eq_foldl (E := engine memory) (f := World.writer) writer_step
    fuel ⟨start text reader writer, false, [], room⟩
  rw [ho] at hwriter
  obtain rfl : w = (finish o).1 := by rw [hfinish]
  rw [writer_finish, show o.walk.writer = _ from hwriter]
  exact writer.settled_flush _

end Walk

namespace Machine

variable {m : Machine} {todo : List (Block Prim)}

/-- The byte that the next step of a machine writes, if it performs an output primitive. -/
def Config.emits (c : Config) : List UInt8 :=
  match c.todo with
  | .cons .output _ :: _ => c.machine.current?.toList
  | _ => []

theorem look_performed (o : Step Machine Ended) :
    engine.look (Config.performed todo o) = o.reached Ended.machine := by
  cases o <;> rfl

theorem writer_update (f : Cell → Cell) :
    ((m.update f).reached Ended.machine).writer = m.writer := by
  unfold update
  dsimp only
  split
  · rfl
  · split <;> rfl

theorem writer_perform (p : Prim) (b : Block Prim) (rest : List (Block Prim)) :
    ((m.perform p).reached Ended.machine).writer =
      (Config.emits ⟨m, .cons p b :: rest⟩).foldl Writer.write m.writer := by
  cases p with
  | increment => exact writer_update (· + 1)
  | decrement => exact writer_update (· - 1)
  | right =>
    simp only [perform]
    split <;> rfl
  | left =>
    simp only [perform]
    split <;> rfl
  | output =>
    simp only [perform, Config.emits]
    cases m.current? <;> rfl
  | input =>
    exact writer_update (m := { m with reader := m.reader.read.2 }) fun _ => m.reader.read.1

theorem writer_step (c : Config) :
    (engine.look (engine.step c)).writer = c.emits.foldl Writer.write c.machine.writer := by
  obtain ⟨m, todo⟩ := c
  match todo with
  | [] => rfl
  | .nil :: rest => rfl
  | .cons p b :: rest =>
    rw [step_performed, look_performed]
    exact writer_perform p b rest
  | .loop body b :: rest => rw [engine_quiet _ rfl]; rfl

end Machine

/-- The bytes that a prepared program writes on a new tape in a number of steps. -/
def Prepared.written (p : Prepared) (reader : Reader) (writer : Writer) (steps : Nat) :
    List UInt8 :=
  Machine.engine.trace Machine.Config.emits steps
    ⟨Machine.start p.capacity reader writer, [p.code]⟩

theorem Machine.settled_run {p : Prepared} {reader : Reader} {writer : Writer} {fuel : Nat}
    {e : Ended} (h : run fuel p.code (start p.capacity reader writer) = some e) :
    writer.Settled (p.written reader writer fuel) e.machine.writer := by
  obtain ⟨e, he, rfl⟩ := Option.map_eq_some_iff.mp h
  have hwriter := Engine.look_after_eq_foldl (f := Machine.writer) writer_step fuel
    ⟨start p.capacity reader writer, [p.code]⟩
  rw [engine.runFor_eq_some_iff.mp he] at hwriter
  show writer.Settled _ e.machine.writer.flush
  rw [show e.machine.writer = _ from hwriter]
  exact writer.settled_flush _

namespace Script

variable {m : Machine} {todo : List Suite}

/-- The byte that the next step of a script writes, if it is a statement that writes. -/
def Config.emits (c : Config) : List UInt8 :=
  match c.todo with
  | .line .write _ :: _ => c.machine.current?.toList
  | _ => []

theorem look_executed (o : Step Machine Ended) :
    engine.look (Config.executed todo o) = o.reached Ended.machine := by
  cases o <;> rfl

theorem writer_change (f : Cell → Cell) :
    ((change m f).reached Ended.machine).writer = m.writer := by
  have hwriter := Machine.writer_update (m := m) f
  unfold change
  cases hm : m.update f with
  | next m' =>
    rw [hm] at hwriter
    exact hwriter
  | done e =>
    rw [hm] at hwriter
    exact hwriter

theorem output_execute (st : Statement) (s : Suite) (rest : List Suite) :
    ((execute m st).reached Ended.machine).writer.output =
      (Config.emits ⟨m, .line st s :: rest⟩).foldl Array.push m.writer.output := by
  cases st with
  | increment => exact congrArg Writer.output (writer_change (· + 1))
  | decrement => exact congrArg Writer.output (writer_change (· - 1))
  | write =>
    simp only [execute, Config.emits]
    cases m.current? <;> rfl
  | read =>
    exact congrArg Writer.output
      (writer_change (m := { m with reader := m.reader.read.2 }) fun _ => m.reader.read.1)
  | right | left | flush | raise | giveBack | pass => rfl

/-- A step adds what it emits to the output. The flushes of a script are steps as well, so nothing
is said of them here. -/
theorem output_step (c : Config) :
    (engine.look (engine.step c)).writer.output =
      c.emits.foldl Array.push c.machine.writer.output := by
  obtain ⟨m, todo⟩ := c
  match todo with
  | [] => rfl
  | .nil :: rest => rfl
  | .line st s :: rest =>
    rw [step_executed, look_executed]
    exact output_execute st s rest
  | .nested .whileNonzero body s :: rest =>
    simp only [engine, Config.step]
    split
    · rfl
    · split <;> rfl
  | .nested .ifFull body s :: rest =>
    simp only [engine, Config.step]
    split <;> rfl
  | .nested .ifBelow body s :: rest =>
    simp only [engine, Config.step]
    split <;> rfl

/-- The bytes that the lines of a program write on a new tape in a number of steps. -/
def written (capacity : Nat) (program : Program) (reader : Reader) (writer : Writer) (steps : Nat) :
    List UInt8 :=
  engine.trace Config.emits steps
    ⟨Machine.start capacity reader writer, [Suite.ofProgram program.block]⟩

/-- The lines of a program leave the writer as its machine does, so they have flushed once. -/
theorem settled_run {capacity : Nat} {program : Program} {reader : Reader} {writer : Writer}
    {fuel : Nat} {e : Ended} (hC : 1 ≤ capacity)
    (h : runLines fuel (programLines program.block) (Machine.start capacity reader writer) =
      some e) :
    writer.Settled (written capacity program reader writer fuel) e.machine.writer := by
  obtain ⟨e', ⟨n, hn⟩, rfl⟩ := prepared_of_endsWith hC ⟨fuel, h⟩
  have hsettled := Machine.settled_run hn
  have hafter : engine.after fuel
      ⟨Machine.start capacity reader writer, [Suite.ofProgram program.block]⟩ =
        .done (outcome e') := by
    rw [runLines, Suite.ofLines?_programLines, Option.bind_some] at h
    exact engine.runFor_eq_some_iff.mp h
  have houtput := Engine.look_after_eq_foldl (f := fun m : Machine => m.writer.output) output_step
    fuel ⟨Machine.start capacity reader writer, [Suite.ofProgram program.block]⟩
  rw [hafter] at houtput
  have hbytes : written capacity program reader writer fuel =
      Prepared.written ⟨program, capacity⟩ reader writer n := by
    apply hsettled.bytes_eq
    rw [← List.foldl_push_eq_append']
    exact houtput
  rw [hbytes]
  exact hsettled

end Script

/-- Whatever writer a run finds, and in whatever way it ends, the sink then holds behind what it
held before just the bytes that the run has written, in their order, and the run has flushed once,
and once more for each of the bytes if the writer does so. -/
theorem run_flushes_once (memory : Memory) (sink : Sink) (autoflush : Bool) (reader : Reader) :
    (∀ writer, sink = .writer writer → sink.open autoflush = writer) ∧
    (sink = .new → sink.open autoflush = { autoflush }) ∧
    (∀ text room fuel w fault,
      (Walk.start text reader (sink.open autoflush)).run memory room fuel = some (w, fault) →
      (sink.open autoflush).Settled
        (Walk.written memory text room reader (sink.open autoflush) fuel) w.writer) ∧
    (∀ program capacity fuel e,
      Machine.run fuel (Prepared.code ⟨program, capacity⟩)
        (Machine.start capacity reader (sink.open autoflush)) = some e →
      (sink.open autoflush).Settled
        (Prepared.written ⟨program, capacity⟩ reader (sink.open autoflush) fuel)
        e.machine.writer) ∧
    (∀ program capacity fuel e, 1 ≤ capacity →
      Script.runLines fuel (Script.programLines program.block)
        (Machine.start capacity reader (sink.open autoflush)) = some e →
      (sink.open autoflush).Settled
        (Script.written capacity program reader (sink.open autoflush) fuel) e.machine.writer) ∧
    ∀ program capacity, memory.HasTape capacity →
      Program.RunsOnTape memory capacity program := by
  refine ⟨?_, ?_, ?_, ?_, ?_, fun program _ h => h.runs program⟩
  · rintro writer rfl
    rfl
  · rintro rfl
    rfl
  · intro text room fuel w fault hrun
    exact Walk.settled_run hrun
  · intro program capacity fuel e hrun
    exact Machine.settled_run (p := ⟨program, capacity⟩) hrun
  · intro program capacity fuel e hC hrun
    exact Script.settled_run hC hrun

/-- A walk that finds no room for its second loop, and a prepared program and its script that
overflow inside a loop, with a writer that flushes each byte although it is not asked to. -/
theorem run_flushes_once_fault :
    (∃ w, (Walk.start "+.[.[".toList {} ((Sink.writer ⟨#[7], 3, true⟩).open false)).run
        (.below 2) 1 20 = some (w, some .tooDeep) ∧
      w.writer = ⟨#[7, 1, 1], 6, true⟩ ∧ Writer.Settled ⟨#[7], 3, true⟩ [1, 1] w.writer) ∧
    (∃ e, Prepared.run (.below 2) 20
        ⟨⟨.cons (.add 1) (.loop (.cons .output (.cons (.move 1) .nil)) .nil), 1, 5⟩, 1⟩ {}
        ((Sink.writer ⟨#[7], 3, true⟩).open false) = .ok (some e) ∧
      e.ending = .overflow 1 1 ∧ Writer.Settled ⟨#[7], 3, true⟩ [1] e.machine.writer) ∧
    ∃ e, Script.runProgram (.below 2) 20 1
        ⟨.cons (.add 1) (.loop (.cons .output (.cons (.move 1) .nil)) .nil), 1, 5⟩ {}
        ((Sink.writer ⟨#[7], 3, true⟩).open false) = .ok (some e) ∧
      e.ending = .overflow 1 1 ∧ Writer.Settled ⟨#[7], 3, true⟩ [1] e.machine.writer := by
  have hwalk : (Walk.start "+.[.[".toList {} ((Sink.writer ⟨#[7], 3, true⟩).open false)).run
      (.below 2) 1 20 =
        some (⟨"+.[.[".toList.toArray, 5, 2, 2, ⟨#[1], 0⟩, {}, ⟨#[7, 1, 1], 6, true⟩, []⟩,
          some .tooDeep) := rfl
  have hmachine : Machine.run 20
      (Prepared.code
        ⟨⟨.cons (.add 1) (.loop (.cons .output (.cons (.move 1) .nil)) .nil), 1, 5⟩, 1⟩)
      (Machine.start 1 {} ((Sink.writer ⟨#[7], 3, true⟩).open false)) =
        some ⟨⟨#[1], 1, {}, ⟨#[7, 1], 5, true⟩⟩, .overflow 1 1⟩ := rfl
  have hscript : Script.runLines 20
      (Script.programLines (.cons (.add 1) (.loop (.cons .output (.cons (.move 1) .nil)) .nil)))
      (Machine.start 1 {} ((Sink.writer ⟨#[7], 3, true⟩).open false)) =
        some ⟨⟨#[1], 1, {}, ⟨#[7, 1], 5, true⟩⟩, .overflow 1 1⟩ := rfl
  obtain ⟨-, -, walks, machines, scripts, hruns⟩ :=
    run_flushes_once (.below 2) (.writer ⟨#[7], 3, true⟩) false {}
  have hrun := hruns ⟨.cons (.add 1) (.loop (.cons .output (.cons (.move 1) .nil)) .nil), 1, 5⟩ 1
    (by decide)
  exact ⟨⟨_, hwalk, rfl, walks _ _ _ _ _ hwalk⟩,
    ⟨_, (hrun.prepared ..).trans (congrArg Except.ok hmachine), rfl, machines _ _ _ _ hmachine⟩,
    _, (hrun.script ..).trans (congrArg Except.ok hscript), rfl,
    scripts ⟨_, 1, 5⟩ _ _ _ (Nat.le_refl 1) hscript⟩

end TapeLang
