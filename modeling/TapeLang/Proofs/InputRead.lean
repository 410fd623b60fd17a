import TapeLang.Proofs.Intake
import TapeLang.Proofs.ScriptMachine
import TapeLang.Proofs.WalkRuns

/-! A run depends on the bytes it has read and on nothing else of its input. That holds of walks, of
machines and of scripts for the same reason: in each of them one kind of step reads a byte, and no
other step looks at the reader. -/

namespace TapeLang

namespace Walk

/-! ### Walks -/

/-- The next step performs an input primitive. -/
def Config.reads (c : Config) : Bool :=
  match c.walk.code[c.walk.position]?.bind Symbol.ofChar? with
  | some (.prim .input) => !c.skip && !c.walk.world.halted
  | _ => false

/-- Walks whose input primitives are counted. -/
def reading (memory : Memory) : Engine Config Outcome World :=
  { engine memory with acts := Config.reads }

/-- Replaces the reader. -/
def give (r : Reader) (w : Walk) : Walk := { w with reader := r }

def Config.give (r : Reader) (c : Config) : Config := { c with walk := c.walk.give r }

def Outcome.give (r : Reader) (o : Outcome) : Outcome := { o with walk := o.walk.give r }

variable {memory : Memory} {w : Walk} {skip : Bool} {frames : List Frame} {room : Nat} {r : Reader}

theorem current_give : (w.give r).tape.current = w.tape.current := rfl

theorem enter_give : Config.enter (w.give r) frames room =
    (Config.enter w frames room).map (Config.give r) (Outcome.give r) := by
  unfold Config.enter
  rw [current_give]
  cases w.tape.current <;> rfl

theorem leave_give (again : Bool) : Config.leave again (w.give r) frames room =
    (Config.leave again w frames room).map (Config.give r) (Outcome.give r) := by
  cases frames with
  | nil => rfl
  | cons frame frames =>
    cases again with
    | true => exact enter_give (w := { w with position := frame.bodyStart })
    | false => rfl

theorem update_give (f : Cell → Cell) :
    (w.give r).update memory f = ((w.update memory f).1.give r, (w.update memory f).2) := by
  unfold update give
  dsimp only
  split
  · rfl
  · split <;> rfl

theorem perform_give {p : Prim} (hp : p ≠ .input) :
    (w.give r).perform memory p = ((w.perform memory p).1.give r, (w.perform memory p).2) := by
  cases p with
  | increment => rw [perform, perform, update_give]
  | decrement => rw [perform, perform, update_give]
  | right => rfl
  | left => rfl
  | output =>
    simp only [perform, current_give]
    cases w.tape.current <;> rfl
  | input => contradiction

theorem perform_input : (w.give r).perform memory .input =
    ((w.update memory fun _ => r.read.1).1.give r.read.2,
      (w.update memory fun _ => r.read.1).2) :=
  update_give (w := w) (r := r.read.2) fun _ => r.read.1

theorem performed_give (e : Walk × Option Tape.Fault) :
    Config.performed frames room (e.1.give r, e.2) =
      (Config.performed frames room e).map (Config.give r) (Outcome.give r) := by
  obtain ⟨w, _ | e⟩ := e <;> rfl

theorem reads_prim (hh : w.world.halted = false) {p : Prim}
    (hc : w.code[w.position]? = some p.toChar) :
    Config.reads ⟨w, skip, frames, room⟩ = (decide (p = .input) && !skip) := by
  have hp : Symbol.ofChar? p.toChar = some (.prim p) := Symbol.ofChar?_toChar (.prim p)
  simp only [Config.reads, hc, Option.bind_some, hp, hh]
  cases p <;> simp

theorem Stepped.give {c : Config} {o : Step Config Outcome} (h : Stepped memory c o)
    (hreads : c.reads = false) (r : Reader) :
    Stepped memory (c.give r) (o.map (Config.give r) (Outcome.give r)) := by
  cases h with
  | stuck hstuck =>
    rw [← leave_give]
    exact .stuck hstuck
  | inert hh hc hs => exact .inert hh hc hs
  | skipped hh hc => exact .skipped hh hc
  | @performed _ _ _ p hh hc =>
    have hp : p ≠ .input := by
      rw [reads_prim hh hc] at hreads
      simpa using hreads
    rw [← performed_give, ← perform_give hp]
    exact .performed hh hc
  | entered hh hc => exact .entered hh hc
  | full hh hc => exact .full hh hc
  | closing hh hc =>
    rw [← leave_give]
    exact .closing hh hc

theorem step_idle {c : Config} (h : c.reads = false) :
    (engine memory).step (c.give r) =
      ((engine memory).step c).map (Config.give r) (Outcome.give r) :=
  ((stepped _ c).give h r).eq

theorem of_reads (h : Config.reads ⟨w, skip, frames, room⟩ = true) :
    w.world.halted = false ∧ skip = false ∧ w.code[w.position]? = some Prim.input.toChar := by
  unfold Config.reads at h
  split at h
  · rename_i hinput
    obtain ⟨ch, hc, hs⟩ := Option.bind_eq_some_iff.mp hinput
    obtain rfl := Symbol.toChar_of_ofChar? hs
    simp only [Bool.and_eq_true, Bool.not_eq_true'] at h
    exact ⟨h.2, h.1, hc⟩
  · contradiction

def intake (memory : Memory) : Intake (reading memory) where
  give := Config.give
  giveEnd := Outcome.give
  acts_give _ _ := rfl
  giveEnd_giveEnd _ _ _ := rfl
  step_idle _ _ h := step_idle h
  step_reads := by
    rintro ⟨w, skip, frames, room⟩ h
    obtain ⟨hh, rfl, hc⟩ := of_reads h
    refine ⟨fun b => Config.performed frames room (w.update memory fun _ => b), fun r => ?_⟩
    show (engine memory).step ⟨w.give r, false, frames, room⟩ = _
    rw [step_performed (w := w.give r) hh hc, perform_input]
    exact performed_give _

theorem finish_give (o : Outcome) : finish (o.give r) = ((finish o).1.give r, (finish o).2) := by
  obtain ⟨w, result⟩ := o
  cases result <;> rfl

/-- The walk of a text on an input, with room for a number of nested loops, performs `k` input
primitives and ends with `w`, and with a fault if there was one. -/
def EndsReading (memory : Memory) (text : List Char) (room : Nat) (writer : Writer)
    (x : List UInt8) (k : Nat) (w : Walk) (fault : Option Fault) : Prop :=
  ∃ fuel, (start text (.ofBytes x) writer).run memory room fuel = some (w, fault) ∧
    (reading memory).acted fuel ⟨start text (.ofBytes x) writer, false, [], room⟩ = k

theorem run_eq_some_iff_reading {fuel : Nat} {e : Walk × Option Fault} :
    w.run memory room fuel = some e ↔
      ∃ o, (reading memory).after fuel ⟨w, false, [], room⟩ = .done o ∧ finish o = e := by
  rw [run, body, Option.map_eq_some_iff]
  exact exists_congr fun o => and_congr_left fun _ => (reading memory).runFor_eq_some_iff

theorem EndsReading.spec {text : List Char} {writer : Writer} {x : List UInt8} {k : Nat}
    {fault : Option Fault} (h : EndsReading memory text room writer x k w fault) :
    w.reader.Took x k ∧
    ∀ y, SameFor k x y → ∃ r, EndsReading memory text room writer y k (w.give r) fault := by
  obtain ⟨fuel, hrun, hk⟩ := h
  obtain ⟨o, ho, hfinish⟩ := run_eq_some_iff_reading.mp hrun
  obtain ⟨hreader, hsame⟩ :=
    (intake memory).after_done_ofBytes (s := ⟨start text {} writer, false, [], room⟩) ho hk
  have hw : ∀ r, finish (o.give r) = (w.give r, fault) := by
    intro r
    rw [finish_give, hfinish]
  refine ⟨?_, fun y hy => ?_⟩
  · obtain ⟨r, htook, ho⟩ := hreader
    have hgiven := hw r
    rw [show o.give r = o from ho.symm, hfinish] at hgiven
    rw [(Prod.mk.inj hgiven).1]
    exact htook
  · obtain ⟨r, hafter, hacted⟩ := hsame y hy
    exact ⟨r, fuel, run_eq_some_iff_reading.mpr ⟨_, hafter, hw r⟩, hacted⟩

end Walk

namespace Machine

/-! ### Machines -/

def Config.reads (c : Config) : Bool :=
  match c.todo with
  | .cons .input _ :: _ => true
  | _ => false

def reading : Engine Config Ended Machine := { engine with acts := Config.reads }

def give (r : Reader) (m : Machine) : Machine := { m with reader := r }

def Config.give (r : Reader) (c : Config) : Config := { c with machine := c.machine.give r }

def Ended.give (r : Reader) (e : Ended) : Ended := { e with machine := e.machine.give r }

def Config.performed (todo : List (Block Prim)) : Step Machine Ended → Step Config Ended
  | .next m => .next ⟨m, todo⟩
  | .done e => .done e

variable {m : Machine} {r : Reader} {todo : List (Block Prim)}

theorem current?_give : (m.give r).current? = m.current? := rfl

theorem update_give (f : Cell → Cell) :
    (m.give r).update f = (m.update f).map (give r) (Ended.give r) := by
  unfold update give
  dsimp only
  split
  · rfl
  · split <;> rfl

theorem perform_give {p : Prim} (hp : p ≠ .input) :
    (m.give r).perform p = (m.perform p).map (give r) (Ended.give r) := by
  cases p with
  | increment => rw [perform, perform, update_give]
  | decrement => rw [perform, perform, update_give]
  | right =>
    unfold perform
    rw [apply_ite (Step.map _ _)]
    rfl
  | left =>
    unfold perform
    rw [apply_ite (Step.map _ _)]
    rfl
  | output =>
    simp only [perform, current?_give]
    cases m.current? <;> rfl
  | input => contradiction

theorem perform_input : (m.give r).perform .input =
    (m.update fun _ => r.read.1).map (give r.read.2) (Ended.give r.read.2) :=
  update_give (m := m) (r := r.read.2) fun _ => r.read.1

theorem performed_give (o : Step Machine Ended) :
    Config.performed todo (o.map (give r) (Ended.give r)) =
      (Config.performed todo o).map (Config.give r) (Ended.give r) := by
  cases o <;> rfl

theorem step_performed {p : Prim} {b : Block Prim} :
    engine.step ⟨m, .cons p b :: todo⟩ = Config.performed (b :: todo) (m.perform p) := by
  show (match m.perform p with | .next m => _ | .done e => _) = _
  cases m.perform p <;> rfl

theorem step_idle {c : Config} (h : c.reads = false) :
    engine.step (c.give r) = (engine.step c).map (Config.give r) (Ended.give r) := by
  obtain ⟨m, todo⟩ := c
  show engine.step ⟨m.give r, todo⟩ = _
  cases todo with
  | nil => rfl
  | cons b todo =>
    cases b with
    | nil => rfl
    | cons p b =>
      have hp : p ≠ .input := by
        rintro rfl
        exact Bool.noConfusion h
      rw [step_performed, step_performed, perform_give hp, performed_give]
    | loop body b =>
      simp only [engine, Config.step, current?_give]
      cases m.current? with
      | none => rfl
      | some c =>
        rw [apply_ite (Step.map _ _)]
        rfl

theorem of_reads (h : Config.reads ⟨m, todo⟩ = true) : ∃ b rest, todo = .cons .input b :: rest := by
  unfold Config.reads at h
  split at h
  · rename_i b rest heq
    exact ⟨b, rest, heq⟩
  · contradiction

def intake : Intake reading where
  give := Config.give
  giveEnd := Ended.give
  acts_give _ _ := rfl
  giveEnd_giveEnd _ _ _ := rfl
  step_idle _ _ h := step_idle h
  step_reads := by
    rintro ⟨m, todo⟩ h
    obtain ⟨b, todo, rfl⟩ := of_reads h
    refine ⟨fun c => Config.performed (b :: todo) (m.update fun _ => c), fun r => ?_⟩
    show engine.step ⟨m.give r, .cons .input b :: todo⟩ = _
    rw [step_performed, perform_input]
    exact performed_give _

end Machine

namespace Prepared

/-- A prepared program on a new tape and an input performs `k` input primitives and ends with
`e`. -/
def EndsReading (p : Prepared) (writer : Writer) (x : List UInt8) (k : Nat) (e : Machine.Ended) :
    Prop :=
  ∃ fuel, Machine.run fuel p.code (Machine.start p.capacity (.ofBytes x) writer) = some e ∧
    Machine.reading.acted fuel ⟨Machine.start p.capacity (.ofBytes x) writer, [p.code]⟩ = k

theorem EndsReading.spec {p : Prepared} {writer : Writer} {x : List UInt8} {k : Nat}
    {e : Machine.Ended} (h : p.EndsReading writer x k e) :
    e.machine.reader.Took x k ∧
    ∀ y, SameFor k x y → ∃ r, p.EndsReading writer y k (e.give r) := by
  obtain ⟨fuel, hrun, hk⟩ := h
  obtain ⟨e, he, rfl⟩ := Option.map_eq_some_iff.mp hrun
  obtain ⟨hreader, hsame⟩ := Machine.intake.after_done_ofBytes
    (s := ⟨Machine.start p.capacity {} writer, [p.code]⟩)
    (Machine.reading.runFor_eq_some_iff.mp he) hk
  refine ⟨?_, fun y hy => ?_⟩
  · obtain ⟨r, htook, he⟩ := hreader
    rw [he]
    exact htook
  · obtain ⟨r, hafter, hacted⟩ := hsame y hy
    refine ⟨r, fuel, ?_, hacted⟩
    exact Option.map_eq_some_iff.mpr ⟨_, Machine.reading.runFor_eq_some_iff.mpr hafter, rfl⟩

end Prepared

namespace Script

/-! ### Scripts -/

def Config.reads (c : Config) : Bool :=
  match c.todo with
  | .line .read _ :: _ => true
  | _ => false

def reading : Engine Config Ended Machine := { engine with acts := Config.reads }

def Config.give (r : Reader) (c : Config) : Config := { c with machine := c.machine.give r }

def Ended.give (r : Reader) (e : Ended) : Ended := { e with machine := e.machine.give r }

def Config.executed (todo : List Suite) : Step Machine Ended → Step Config Ended
  | .next m => .next ⟨m, todo⟩
  | .done e => .done e

variable {m : Machine} {r : Reader} {todo : List Suite}

theorem change_give (f : Cell → Cell) :
    change (m.give r) f = (change m f).map (Machine.give r) (Ended.give r) := by
  unfold change
  rw [Machine.update_give]
  cases m.update f <;> rfl

theorem execute_give {st : Statement} (hst : st ≠ .read) :
    execute (m.give r) st = (execute m st).map (Machine.give r) (Ended.give r) := by
  cases st with
  | increment => rw [execute, execute, change_give]
  | decrement => rw [execute, execute, change_give]
  | write =>
    simp only [execute, Machine.current?_give]
    cases m.current? <;> rfl
  | read => contradiction
  | right | left | flush | raise | giveBack | pass => rfl

theorem execute_read : execute (m.give r) .read =
    (change m fun _ => r.read.1).map (Machine.give r.read.2) (Ended.give r.read.2) :=
  change_give (m := m) (r := r.read.2) fun _ => r.read.1

theorem executed_give (o : Step Machine Ended) :
    Config.executed todo (o.map (Machine.give r) (Ended.give r)) =
      (Config.executed todo o).map (Config.give r) (Ended.give r) := by
  cases o <;> rfl

theorem step_executed {st : Statement} {s : Suite} :
    engine.step ⟨m, .line st s :: todo⟩ = Config.executed (s :: todo) (execute m st) := by
  show (match execute m st with | .next m => _ | .done e => _) = _
  cases execute m st <;> rfl

theorem step_idle {c : Config} (h : c.reads = false) :
    engine.step (c.give r) = (engine.step c).map (Config.give r) (Ended.give r) := by
  obtain ⟨m, todo⟩ := c
  show engine.step ⟨m.give r, todo⟩ = _
  cases todo with
  | nil => rfl
  | cons s todo =>
    cases s with
    | nil => rfl
    | line st s =>
      have hst : st ≠ .read := by
        rintro rfl
        exact Bool.noConfusion h
      rw [step_executed, step_executed, execute_give hst, executed_give]
    | nested header body s =>
      cases header with
      | whileNonzero =>
        simp only [engine, Config.step, Machine.current?_give]
        cases m.current? with
        | none => rfl
        | some c =>
          rw [apply_ite (Step.map _ _)]
          rfl
      | ifFull =>
        simp only [engine, Config.step]
        rw [apply_ite (Step.map _ _)]
        rfl
      | ifBelow =>
        simp only [engine, Config.step]
        rw [apply_ite (Step.map _ _)]
        rfl

theorem of_reads (h : Config.reads ⟨m, todo⟩ = true) : ∃ s rest, todo = .line .read s :: rest := by
  unfold Config.reads at h
  split at h
  · rename_i s rest heq
    exact ⟨s, rest, heq⟩
  · contradiction

def intake : Intake reading where
  give := Config.give
  giveEnd := Ended.give
  acts_give _ _ := rfl
  giveEnd_giveEnd _ _ _ := rfl
  step_idle _ _ h := step_idle h
  step_reads := by
    rintro ⟨m, todo⟩ h
    obtain ⟨s, todo, rfl⟩ := of_reads h
    refine ⟨fun b => Config.executed (s :: todo) (change m fun _ => b), fun r => ?_⟩
    show engine.step ⟨m.give r, .line .read s :: todo⟩ = _
    rw [step_executed, execute_read]
    exact executed_give _

/-- The lines of a program on a new tape and an input read `k` times and end with `e`. -/
def EndsReading (capacity : Nat) (program : Program) (writer : Writer) (x : List UInt8) (k : Nat)
    (e : Ended) : Prop :=
  ∃ fuel, runLines fuel (programLines program.block)
      (Machine.start capacity (.ofBytes x) writer) = some e ∧
    reading.acted fuel
      ⟨Machine.start capacity (.ofBytes x) writer, [Suite.ofProgram program.block]⟩ = k

theorem runLines_eq_some_iff {fuel : Nat} {b : Block Op} {e : Ended} :
    runLines fuel (programLines b) m = some e ↔
      reading.after fuel ⟨m, [Suite.ofProgram b]⟩ = .done e := by
  rw [runLines, Suite.ofLines?_programLines, Option.bind_some]
  exact reading.runFor_eq_some_iff

theorem EndsReading.spec {capacity : Nat} {program : Program} {writer : Writer} {x : List UInt8}
    {k : Nat} {e : Ended} (h : EndsReading capacity program writer x k e) :
    e.machine.reader.Took x k ∧
    ∀ y, SameFor k x y → ∃ r, EndsReading capacity program writer y k (e.give r) := by
  obtain ⟨fuel, hrun, hk⟩ := h
  obtain ⟨hreader, hsame⟩ := intake.after_done_ofBytes
    (s := ⟨Machine.start capacity {} writer, [Suite.ofProgram program.block]⟩)
    (runLines_eq_some_iff.mp hrun) hk
  refine ⟨?_, fun y hy => ?_⟩
  · obtain ⟨r, htook, he⟩ := hreader
    rw [he]
    exact htook
  · obtain ⟨r, hafter, hacted⟩ := hsame y hy
    exact ⟨r, fuel, runLines_eq_some_iff.mpr hafter, hacted⟩

end Script

/-- A run depends on the input it has read, and the end of the input is the same to it as an endless
stream of 255. That holds of a walk of any text, and of a prepared program and the lines of a
program on a tape of any capacity, as they are run where there is such a tape. -/
theorem input_read_determines_run (memory : Memory) (x : List UInt8) (k : Nat) (writer : Writer) :
    (∀ text room w fault, Walk.EndsReading memory text room writer x k w fault →
      w.reader.Took x k ∧ ∀ y, SameFor k x y →
        ∃ r, Walk.EndsReading memory text room writer y k { w with reader := r } fault) ∧
    (∀ program capacity machine ending,
      Prepared.EndsReading ⟨program, capacity⟩ writer x k ⟨machine, ending⟩ →
      machine.reader.Took x k ∧ ∀ y, SameFor k x y →
        ∃ r, Prepared.EndsReading ⟨program, capacity⟩ writer y k
          ⟨{ machine with reader := r }, ending⟩) ∧
    (∀ program capacity machine ending,
      Script.EndsReading capacity program writer x k ⟨machine, ending⟩ →
      machine.reader.Took x k ∧ ∀ y, SameFor k x y →
        ∃ r, Script.EndsReading capacity program writer y k
          ⟨{ machine with reader := r }, ending⟩) ∧
    ∀ program capacity, memory.HasTape capacity → Program.RunsOnTape memory capacity program :=
  ⟨fun _ _ _ _ h => h.spec, fun _ _ _ _ h => h.spec, fun _ _ _ _ h => h.spec,
    fun program _ h => h.runs program⟩

/-- A program that reads the last byte, which is 255, does what it does when there is none. -/
theorem input_read_determines_run_last :
    SameFor 1 [255] [] ∧
    (∃ w, Walk.EndsReading (.below 2) ",.".toList 0 {} [255] 1 w none ∧
      w.writer.output = #[255] ∧ ∃ r,
        Walk.EndsReading (.below 2) ",.".toList 0 {} [] 1 { w with reader := r } none) ∧
    (∃ machine, Prepared.EndsReading ⟨⟨.cons .input (.cons .output .nil), 0, 2⟩, 1⟩ {} [255] 1
        ⟨machine, .completed⟩ ∧ machine.writer.output = #[255] ∧
      ∃ r, Prepared.EndsReading ⟨⟨.cons .input (.cons .output .nil), 0, 2⟩, 1⟩ {} [] 1
        ⟨{ machine with reader := r }, .completed⟩) ∧
    (∃ machine, Script.EndsReading 1 ⟨.cons .input (.cons .output .nil), 0, 2⟩ {} [255] 1
        ⟨machine, .returned⟩ ∧ machine.writer.output = #[255] ∧
      ∃ r, Script.EndsReading 1 ⟨.cons .input (.cons .output .nil), 0, 2⟩ {} [] 1
        ⟨{ machine with reader := r }, .returned⟩) ∧
    ∃ fuel machine, Prepared.run (.below 2) fuel
      ⟨⟨.cons .input (.cons .output .nil), 0, 2⟩, 1⟩ {} {} = .ok (some ⟨machine, .completed⟩) := by
  have hsame : SameFor 1 [255] [] := by
    intro i hi
    obtain rfl : i = 0 := by omega
    rfl
  have hwalk : Walk.EndsReading (.below 2) ",.".toList 0 {} [255] 1
      ⟨",.".toList.toArray, 2, 0, 0, ⟨#[255], 0⟩, ⟨[], false⟩, ⟨#[255], 1, false⟩, []⟩ none :=
    ⟨3, rfl, rfl⟩
  have hprepared : Prepared.EndsReading ⟨⟨.cons .input (.cons .output .nil), 0, 2⟩, 1⟩ {} [255] 1
      ⟨⟨#[255], 0, ⟨[], false⟩, ⟨#[255], 1, false⟩⟩, .completed⟩ := ⟨5, rfl, rfl⟩
  have hscript : Script.EndsReading 1 ⟨.cons .input (.cons .output .nil), 0, 2⟩ {} [255] 1
      ⟨⟨#[255], 0, ⟨[], false⟩, ⟨#[255], 1, false⟩⟩, .returned⟩ := ⟨5, rfl, rfl⟩
  obtain ⟨walks, machines, scripts, hruns⟩ :=
    input_read_determines_run (.below 2) [255] 1 {}
  have hrun := (hruns ⟨.cons .input (.cons .output .nil), 0, 2⟩ 1 (by decide)).prepared 5 {} {}
  exact ⟨hsame, ⟨_, hwalk, rfl, (walks _ _ _ _ hwalk).2 [] hsame⟩,
    ⟨_, hprepared, rfl, (machines _ _ _ _ hprepared).2 [] hsame⟩,
    ⟨_, hscript, rfl, (scripts _ _ _ _ hscript).2 [] hsame⟩, 5, _, hrun⟩

end TapeLang
