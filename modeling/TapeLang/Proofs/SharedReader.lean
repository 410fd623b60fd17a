import TapeLang.Proofs.Flushing

/-! One reader that goes on being read: directly, by walks, by machines and by scripts, while bytes
arrive at its input in between. All that happens to it is kept as a history of arrivals and
deliveries, from which it can be told what the reader must hold. -/

namespace TapeLang

/-! ### The bytes that a run receives -/

namespace Engine

variable {σ ρ ω : Type} {E : Engine σ ρ ω} {reader : ω → Reader} {s : σ}

/-- The byte that the next step takes from its reader, when the actions of the engine are its
reads. -/
def received (E : Engine σ ρ ω) (reader : ω → Reader) (s : σ) : List UInt8 :=
  if E.acts s then [(reader (E.view s)).read.1] else []

theorem received_eq (s : σ) :
    E.received reader s = (Reader.readMany (E.acts s).toNat (reader (E.view s))).1 := by
  unfold received
  cases E.acts s <;> rfl

/-- When each step leaves the reader alone or reads once, a run reads as often as it acts. -/
theorem readMany_after (reader : ω → Reader)
    (hstep : ∀ s, reader (E.look (E.step s)) =
      (Reader.readMany (E.acts s).toNat (reader (E.view s))).2) (n : Nat) (s : σ) :
    Reader.readMany (E.acted n s) (reader (E.view s)) =
      (E.trace (E.received reader) n s, reader (E.look (E.after n s))) := by
  induction n generalizing s with
  | zero => rfl
  | succ n ih =>
    have hs := hstep s
    cases hnext : E.step s with
    | next t =>
      rw [hnext] at hs
      have ht := ih t
      rw [show reader (E.view t) = _ from hs] at ht
      apply Prod.ext
      · rw [acted_succ_next hnext, Reader.readMany_add_fst, ht, trace, hnext, received_eq]
      · rw [acted_succ_next hnext, Reader.readMany_add, ht, after_succ_next hnext]
    | done r =>
      rw [hnext] at hs
      apply Prod.ext
      · rw [acted_succ_done hnext, trace, hnext, received_eq, List.append_nil]
      · rw [acted_succ_done hnext, after_succ_done hnext, hs]

end Engine

/-- A program and the way it is run: a text that is walked with room for a number of nested loops, a
prepared program, or the lines of a program on a tape of some capacity. -/
inductive Job where
  | walk (memory : Memory) (text : List Char) (room : Nat)
  | prepared (p : Prepared)
  | script (capacity : Nat) (program : Program)

namespace Job

variable {job : Job} {reader reader' : Reader} {writer : Writer} {steps : Nat}

/-- The bytes that a run receives in a number of steps. -/
def received (reader : Reader) (writer : Writer) (steps : Nat) : Job → List UInt8
  | .walk memory text room =>
    (Walk.reading memory).trace ((Walk.reading memory).received World.reader) steps
      ⟨Walk.start text reader writer, false, [], room⟩
  | .prepared p =>
    Machine.reading.trace (Machine.reading.received Machine.reader) steps
      ⟨Machine.start p.capacity reader writer, [p.code]⟩
  | .script capacity program =>
    Script.reading.trace (Script.reading.received Machine.reader) steps
      ⟨Machine.start capacity reader writer, [Suite.ofProgram program.block]⟩

/-- The reader after a number of steps of a run, whether the run has ended by then or not. -/
def readerAfter (reader : Reader) (writer : Writer) (steps : Nat) : Job → Reader
  | .walk memory text room =>
    ((Walk.reading memory).look ((Walk.reading memory).after steps
      ⟨Walk.start text reader writer, false, [], room⟩)).reader
  | .prepared p =>
    (Machine.reading.look (Machine.reading.after steps
      ⟨Machine.start p.capacity reader writer, [p.code]⟩)).reader
  | .script capacity program =>
    (Script.reading.look (Script.reading.after steps
      ⟨Machine.start capacity reader writer, [Suite.ofProgram program.block]⟩)).reader

/-- The run ends within a number of steps, in whatever way, and leaves `reader'`. -/
def Leaves (reader : Reader) (writer : Writer) (steps : Nat) (reader' : Reader) : Job → Prop
  | .walk memory text room => ∃ w fault,
    (Walk.start text reader writer).run memory room steps = some (w, fault) ∧ w.reader = reader'
  | .prepared p => ∃ e,
    Machine.run steps p.code (Machine.start p.capacity reader writer) = some e ∧
      e.machine.reader = reader'
  | .script capacity program => ∃ e,
    Script.runLines steps (Script.programLines program.block)
        (Machine.start capacity reader writer) = some e ∧
      e.machine.reader = reader'

theorem exists_readMany (job : Job) (reader : Reader) (writer : Writer) (steps : Nat) :
    ∃ k, reader.readMany k =
      (job.received reader writer steps, job.readerAfter reader writer steps) := by
  cases job with
  | walk memory text room =>
    exact ⟨_, Engine.readMany_after World.reader
      ((Walk.intake memory).reader_step _ (fun _ _ => rfl) (fun _ _ => rfl) fun _ => rfl) steps
      ⟨Walk.start text reader writer, false, [], room⟩⟩
  | prepared p =>
    exact ⟨_, Engine.readMany_after Machine.reader
      (Machine.intake.reader_step _ (fun _ _ => rfl) (fun _ _ => rfl) fun _ => rfl) steps
      ⟨Machine.start p.capacity reader writer, [p.code]⟩⟩
  | script capacity program =>
    exact ⟨_, Engine.readMany_after Machine.reader
      (Script.intake.reader_step _ (fun _ _ => rfl) (fun _ _ => rfl) fun _ => rfl) steps
      ⟨Machine.start capacity reader writer, [Suite.ofProgram program.block]⟩⟩

theorem Leaves.eq (h : job.Leaves reader writer steps reader') :
    reader' = job.readerAfter reader writer steps := by
  cases job with
  | walk memory text room =>
    obtain ⟨w, fault, hrun, rfl⟩ := h
    obtain ⟨⟨w', result⟩, ho, hfinish⟩ := Walk.run_eq_some_iff_reading.mp hrun
    obtain rfl : w = (Walk.finish ⟨w', result⟩).1 := by rw [hfinish]
    rw [readerAfter, ho]
    cases result <;> rfl
  | prepared p =>
    obtain ⟨e, hrun, rfl⟩ := h
    obtain ⟨e, he, rfl⟩ := Option.map_eq_some_iff.mp hrun
    rw [readerAfter, Machine.reading.runFor_eq_some_iff.mp he]
    rfl
  | script capacity program =>
    obtain ⟨e, hrun, rfl⟩ := h
    rw [readerAfter, Script.runLines_eq_some_iff.mp hrun]
    rfl

end Job

/-! ### Histories -/

/-- What can happen to a reader: bytes arrive at the end of its input, or a read delivers one. -/
inductive Happening where
  | arrival (bytes : List UInt8)
  | delivery (b : UInt8)
deriving Repr, DecidableEq

namespace Happening

def arrived : Happening → List UInt8
  | .arrival bytes => bytes
  | .delivery _ => []

def delivered : Happening → List UInt8
  | .arrival _ => []
  | .delivery b => [b]

end Happening

namespace Reader

/-- All bytes that have arrived. -/
def arrived (history : List Happening) : List UInt8 := history.flatMap Happening.arrived

/-- All that was delivered, in order. -/
def delivered (history : List Happening) : List UInt8 := history.flatMap Happening.delivered

/-- Each read found a byte: fewer had been delivered before it than had arrived. -/
def Supplied (history : List Happening) : Prop :=
  ∀ before b after, history = before ++ .delivery b :: after →
    (delivered before).length < (arrived before).length

/-- What a reader is after a history in which nothing is lost, repeated or reordered. -/
inductive InOrder : List Happening → Reader → Prop
  /-- As long as each read finds a byte, what was delivered and what is unread are together what
  has arrived. -/
  | supplied {history : List Happening} {unread : List UInt8} : Supplied history →
      arrived history = delivered history ++ unread → InOrder history ⟨unread, false⟩
  /-- The first read that finds none comes when all that has arrived was delivered. That read and
  all later ones deliver 255, and what arrives later stays unread. -/
  | ended {before after : List Happening} : Supplied before → delivered before = arrived before →
      (∀ b ∈ delivered after, b = 255) →
      InOrder (before ++ .delivery 255 :: after) ⟨arrived after, true⟩

variable {history history' : List Happening} {r : Reader}

@[simp] theorem arrived_append :
    arrived (history ++ history') = arrived history ++ arrived history' := List.flatMap_append

@[simp] theorem delivered_append :
    delivered (history ++ history') = delivered history ++ delivered history' :=
  List.flatMap_append

theorem Supplied.concat {x : Happening} (h : Supplied history)
    (hx : ∀ b, x = .delivery b → (delivered history).length < (arrived history).length) :
    Supplied (history ++ [x]) := by
  intro before b after heq
  rcases List.eq_nil_or_concat after with rfl | ⟨rest, y, rfl⟩
  · obtain ⟨rfl, hlast⟩ := List.append_inj' heq rfl
    exact hx b (List.cons.inj hlast).1
  · rw [List.concat_eq_append, ← List.cons_append, ← List.append_assoc] at heq
    exact h before b rest (List.append_inj' heq rfl).1

namespace InOrder

theorem new (bytes : List UInt8) : InOrder [.arrival bytes] (.ofBytes bytes) := by
  apply supplied
  · intro before b after heq
    rcases List.cons_eq_append_iff.mp heq with ⟨rfl, h⟩ | ⟨rest, -, h⟩
    · simp at h
    · simp at h
  · simp [arrived, delivered, Happening.arrived, Happening.delivered]

theorem ended_concat {before after : List Happening} {x : Happening} (hs : Supplied before)
    (heq : delivered before = arrived before) (hlater : ∀ b ∈ delivered after, b = 255)
    (hx : ∀ b ∈ x.delivered, b = 255) :
    InOrder (before ++ .delivery 255 :: after ++ [x]) ⟨arrived after ++ x.arrived, true⟩ := by
  have harrived : arrived after ++ x.arrived = arrived (after ++ [x]) := by
    rw [arrived_append]
    simp [arrived]
  rw [harrived, List.append_assoc, List.cons_append]
  apply ended hs heq
  intro b hb
  rw [delivered_append, List.mem_append] at hb
  rcases hb with hb | hb
  · exact hlater b hb
  · exact hx b (by simpa [delivered] using hb)

theorem feed (h : InOrder history r) (bytes : List UInt8) :
    InOrder (history ++ [.arrival bytes]) (r.feed bytes) := by
  cases h with
  | @supplied _ unread hs heq =>
    refine supplied (hs.concat fun b hb => by contradiction) ?_
    rw [arrived_append, delivered_append, heq]
    simp [arrived, delivered, Happening.arrived, Happening.delivered]
  | ended hs heq hlater =>
    apply ended_concat hs heq hlater
    intro b hb
    contradiction

theorem read (h : InOrder history r) :
    InOrder (history ++ [.delivery r.read.1]) r.read.2 := by
  cases h with
  | @supplied _ unread hs heq =>
    cases unread with
    | nil =>
      rw [List.append_nil] at heq
      exact @ended _ [] hs heq.symm fun b hb => by contradiction
    | cons b rest =>
      refine supplied (hs.concat fun _ _ => ?_) ?_
      · rw [heq]
        simp
      · rw [arrived_append, delivered_append, heq]
        simp [arrived, delivered, Happening.arrived, Happening.delivered, Reader.read]
  | @ended before after hs heq hlater =>
    have hread := ended_concat (x := .delivery 255) hs heq hlater fun b => List.mem_singleton.mp
    rwa [Happening.arrived, List.append_nil] at hread

theorem readMany (h : InOrder history r) (k : Nat) :
    InOrder (history ++ (r.readMany k).1.map .delivery) (r.readMany k).2 := by
  induction k generalizing history r with
  | zero =>
    rw [show (r.readMany 0) = ([], r) from rfl, List.map_nil, List.append_nil]
    exact h
  | succ k ih =>
    have hrest := ih h.read
    rw [List.append_assoc] at hrest
    exact hrest

end InOrder

/-! ### Sessions -/

/-- A reader in use, with all that has happened to it: it is made for given bytes and then read,
fed, or handed to runs, each of which ends. -/
inductive Session : List Happening → Reader → Prop
  | new (bytes : List UInt8) : Session [.arrival bytes] (.ofBytes bytes)
  | read {history : List Happening} {r : Reader} :
      Session history r → Session (history ++ [.delivery r.read.1]) r.read.2
  | feed {history : List Happening} {r : Reader} (bytes : List UInt8) :
      Session history r → Session (history ++ [.arrival bytes]) (r.feed bytes)
  | run {history : List Happening} {r r' : Reader} (job : Job) (writer : Writer) (steps : Nat) :
      Session history r → job.Leaves (Source.reader r).open writer steps r' →
      Session
        (history ++ (job.received (Source.reader r).open writer steps).map .delivery) r'

theorem InOrder.received (h : InOrder history r) (job : Job) (writer : Writer) (steps : Nat) :
    InOrder (history ++ (job.received r writer steps).map .delivery)
      (job.readerAfter r writer steps) := by
  obtain ⟨k, hk⟩ := job.exists_readMany r writer steps
  have hmany := h.readMany k
  rw [hk] at hmany
  exact hmany

theorem Session.inOrder (h : Session history r) : InOrder history r := by
  induction h with
  | new bytes => exact .new bytes
  | read _ ih => exact ih.read
  | feed bytes _ ih => exact ih.feed bytes
  | run job writer steps _ hleaves ih =>
    rw [hleaves.eq]
    exact ih.received job writer steps

/-- A shared reader delivers its input once and in order, and the end of the input is final: at
every moment of a session, also in the course of a run, the reader is in order. The runs on machines
are those of the host wherever it has a tape of their capacity. -/
theorem input_delivered_once (h : Session history r) :
    InOrder history r ∧
    (∀ (job : Job) writer steps,
      InOrder (history ++ (job.received (Source.reader r).open writer steps).map .delivery)
        (job.readerAfter (Source.reader r).open writer steps)) ∧
    ∀ memory program capacity, Memory.HasTape memory capacity →
      Program.RunsOnTape memory capacity program :=
  ⟨h.inOrder, fun job writer steps => h.inOrder.received job writer steps,
    fun _ program _ htape => htape.runs program⟩

/-- The last byte is read by a walk and the end of the input is met by a script, so that a byte that
comes later is not seen by a prepared program. -/
theorem input_delivered_once_late :
    Session [.arrival [7], .delivery 7] ⟨[], false⟩ ∧
    InOrder [.arrival [7], .delivery 7] ⟨[], false⟩ ∧
    Session [.arrival [7], .delivery 7, .delivery 255, .arrival [9], .delivery 255]
      ⟨[9], true⟩ ∧
    InOrder [.arrival [7], .delivery 7, .delivery 255, .arrival [9], .delivery 255]
      ⟨[9], true⟩ := by
  have hwalk : Session [.arrival [7], .delivery 7] ⟨[], false⟩ :=
    .run (.walk (.below 2) "[-],".toList 1) {} 10 (.new [7]) ⟨_, _, rfl, rfl⟩
  have hscript : Session [.arrival [7], .delivery 7, .delivery 255] ⟨[], true⟩ :=
    .run (.script 1 ⟨.cons .input .nil, 0, 1⟩) {} 10 hwalk ⟨_, rfl, rfl⟩
  have hprepared : Session [.arrival [7], .delivery 7, .delivery 255, .arrival [9], .delivery 255]
      ⟨[9], true⟩ :=
    .run (.prepared ⟨⟨.cons .input (.cons (.move 1) .nil), 0, 2⟩, 1⟩) {} 10 (.feed [9] hscript)
      ⟨_, rfl, rfl⟩
  exact ⟨hwalk, (input_delivered_once hwalk).1, hprepared, (input_delivered_once hprepared).1⟩

end Reader

end TapeLang
