import TapeLang.Proofs.LockStep
import TapeLang.Proofs.WalkRuns

/-! The walk of a text and the run of its program on a fixed tape agree. Both carry out the block of
the program, the walk by reading the text again and again and the machine by going through the
block, so both are compared with the world in which the block is carried out: they show the same
after every primitive until the pointer would leave the fixed tape, and end alike. -/

namespace TapeLang

/-! ### Cells that are not zero -/

namespace nonzeroCells

variable {a b : Array Cell} {n m : Nat}

theorem below_congr (h : ∀ i < n, a.getD i 0 = b.getD i 0) (found : List (Nat × Cell)) :
    below a n found = below b n found := by
  induction n generalizing found with
  | zero => rfl
  | succ n ih =>
    simp only [below]
    rw [h n (Nat.lt_succ_self n), ih fun i hi => h i (Nat.lt_succ_of_lt hi)]

theorem below_of_zeros (h : ∀ i, n ≤ i → a.getD i 0 = 0) (hnm : n ≤ m) (found : List (Nat × Cell)) :
    below a m found = below a n found := by
  obtain ⟨d, rfl⟩ := Nat.exists_eq_add_of_le hnm
  induction d with
  | zero => rfl
  | succ d ih =>
    rw [← Nat.add_assoc]
    simp only [below]
    rw [h (n + d) (Nat.le_add_right n d), if_pos rfl, ih (Nat.le_add_right n d)]

end nonzeroCells

theorem getD_of_size_le {a : Array Cell} {i : Nat} (h : a.size ≤ i) : a.getD i 0 = 0 := by
  rw [Array.getD_eq_getD_getElem?, Array.getElem?_eq_none h, Option.getD_none]

/-- Arrays that hold the same, read as endless ones, have the same cells that are not zero. -/
theorem nonzeroCells_congr {a b : Array Cell} (h : ∀ i, a.getD i 0 = b.getD i 0) :
    nonzeroCells a = nonzeroCells b := by
  have ha := nonzeroCells.below_of_zeros (a := a) (fun i => getD_of_size_le)
    (Nat.le_max_left a.size b.size) []
  have hb := nonzeroCells.below_of_zeros (a := b) (fun i => getD_of_size_le)
    (Nat.le_max_right a.size b.size) []
  rw [nonzeroCells, nonzeroCells, ← ha, ← hb]
  exact nonzeroCells.below_congr (fun i _ => h i) []

theorem Mirrors.nonzero {C : Nat} {s : World} {m : Machine} (h : Mirrors C s m) :
    s.tape.nonzero = nonzeroCells m.cells := by
  apply nonzeroCells_congr
  intro i
  by_cases hi : i < C
  · exact (h.cells i hi).symm
  · have hsize := h.size
    have hcap : m.cells.size = C := h.capacity
    rw [getD_of_size_le (a := s.tape.cells) (by omega), getD_of_size_le (by omega)]

/-! ### Both runs of a program -/

/-- A prepared program on a new tape shows the machine `m` after `n` primitives. -/
def Prepared.Shows (p : Prepared) (reader : Reader) (writer : Writer) (n : Nat) (m : Machine) :
    Prop :=
  Machine.engine.Shows ⟨Machine.start p.capacity reader writer, [p.code]⟩ n m

/-- The walk of a text shows the world `s` after `n` primitives. -/
def Walk.Shows (memory : Memory) (text : List Char) (room : Nat) (reader : Reader)
    (writer : Writer) (n : Nat) (s : World) : Prop :=
  (engine memory).Shows ⟨start text reader writer, false, [], room⟩ n s

section Programs

variable {memory : Memory} {text : List Char} {p : Program} {room C n : Nat} {reader : Reader}
  {writer : Writer} {s : World}

theorem Together.start (hC : 1 ≤ C) (b : Block Prim) (reader : Reader) (writer : Writer) :
    Together C (.next ⟨⟨{}, reader, writer⟩, [b]⟩) (.next ⟨Machine.start C reader writer, [b]⟩) :=
  .running (.start hC reader writer) rfl

theorem Together.within_start (hC : 1 ≤ C) {todo : List (Block Prim)} :
    Within C ⟨⟨{}, reader, writer⟩, todo⟩ 0 := by
  intro j hj
  obtain rfl := Nat.le_zero.mp hj
  show (0 : Int) < C
  omega

theorem Walk.follows_start (hp : Program.parse text = .ok p) (hroom : p.depth ≤ room)
    (reader : Reader) (writer : Writer) :
    Follows text.toArray (0 + text.length) [] room ⟨start text reader writer, false, [], room⟩
      ⟨⟨{}, reader, writer⟩, [p.block.map Op.prim]⟩ :=
  follows_text (w := start text reader writer) (List.append_nil text).symm hp hroom
    (sound_start text reader writer) []

theorem Walk.simulation_of_text :
    Simulation (engine memory) World.engine (Follows text.toArray (0 + text.length) [] room)
      Finished fun t => t.todo.length :=
  simulation_to_end (Nat.zero_add _)

/-- What a walk shows is what carrying out the block of the text shows. -/
theorem Walk.shows_iff (hp : Program.parse text = .ok p) (hroom : p.depth ≤ room) :
    Walk.Shows memory text room reader writer n s ↔
      World.engine.Shows ⟨⟨{}, reader, writer⟩, [p.block.map Op.prim]⟩ n s := by
  refine simulation_of_text.shows_iff engine_quiet (fun _ _ h => h.world) ?_
    (follows_start hp hroom reader writer)
  rintro _ s ⟨w, again, rfl, hw⟩
  exact ⟨_, rfl, hw⟩

theorem Walk.endsWith_iff_after (hp : Program.parse text = .ok p) (hroom : p.depth ≤ room) :
    Walk.EndsWith memory text room reader writer s ↔
      ∃ k s', World.engine.after k ⟨⟨{}, reader, writer⟩, [p.block.map Op.prim]⟩ = .done s' ∧
        s = s'.flushed := by
  rw [(Does.of_simulation simulation_of_text (follows_start hp hroom reader writer)).endsWith_iff]
  constructor
  · rintro ⟨s', hs', rfl⟩
    obtain ⟨k, hk⟩ := World.executes_iff.mp hs'
    exact ⟨k, s', hk, rfl⟩
  · rintro ⟨k, s', hk, rfl⟩
    exact ⟨s', World.executes_iff.mpr ⟨k, hk⟩, rfl⟩

theorem Mirrors.finish {m : Machine} {ending : Machine.Ending} (h : Mirrors C s m) :
    Mirrors C s.flushed (Machine.finish ⟨m, ending⟩).machine :=
  ⟨h.pointer, h.reader, congrArg Writer.flush h.writer, h.capacity, h.size, h.cells⟩

section WithinCapacity

variable (hp : Program.parse text = .ok p) (hroom : p.depth ≤ room) (hC : 1 ≤ C)
  (hB : ∀ n s, Walk.Shows memory text room reader writer n s → s.tape.pointer < C)
include hp hroom hB

theorem Walk.within (k : Nat) :
    Together.Within C ⟨⟨{}, reader, writer⟩, [p.block.map Op.prim]⟩ k :=
  Together.within_of_shows (fun n _ s hs => hB n s ((Walk.shows_iff hp hroom).mpr hs))
    (Nat.le_refl _)

include hC

/-- Where the pointer never reaches the capacity, the machine ends as the walk does. -/
theorem Prepared.ends_of_walk (h : Walk.EndsWith memory text room reader writer s) :
    ∃ m, Prepared.EndsWith ⟨p, C⟩ reader writer ⟨m, Together.endingOf s⟩ ∧ Mirrors C s m := by
  obtain ⟨k, s', hk, rfl⟩ := (Walk.endsWith_iff_after hp hroom).mp h
  obtain ⟨m, hm, hmirrors⟩ :=
    (Together.start hC (p.block.map Op.prim) reader writer).machine_done
      (Walk.within hp hroom hB k) hk
  exact ⟨_, Prepared.endsWith_iff_after.mpr ⟨k, _, hm, rfl⟩, hmirrors.finish⟩

theorem Walk.ends_of_prepared {e : Machine.Ended}
    (h : Prepared.EndsWith ⟨p, C⟩ reader writer e) :
    ∃ s, Walk.EndsWith memory text room reader writer s ∧ e.ending = Together.endingOf s ∧
      Mirrors C s e.machine := by
  obtain ⟨k, e', hk, rfl⟩ := Prepared.endsWith_iff_after.mp h
  obtain ⟨s, hs, hending, hmirrors⟩ :=
    (Together.start hC (p.block.map Op.prim) reader writer).world_done
      (Walk.within hp hroom hB k) hk
  exact ⟨_, (Walk.endsWith_iff_after hp hroom).mpr ⟨k + 1, s, hs, rfl⟩, hending, hmirrors.finish⟩

/-- Walk and machine halt both, complete both, or go on for ever both. -/
theorem Walk.ends_iff_prepared (halted : Bool) :
    (∃ s, Walk.EndsWith memory text room reader writer s ∧ s.halted = halted) ↔
      ∃ m, Prepared.EndsWith ⟨p, C⟩ reader writer
        ⟨m, if halted then .halted else .completed⟩ := by
  constructor
  · rintro ⟨s, hs, rfl⟩
    obtain ⟨m, hm, -⟩ := Prepared.ends_of_walk hp hroom hC hB hs
    exact ⟨m, hm⟩
  · rintro ⟨m, hm⟩
    obtain ⟨s, hs, hending, -⟩ := Walk.ends_of_prepared hp hroom hC hB hm
    refine ⟨s, hs, ?_⟩
    cases hh : s.halted <;> cases halted <;> simp [Together.endingOf, hh] at hending ⊢

theorem Walk.ends_mirror {e : Machine.Ended} (hs : Walk.EndsWith memory text room reader writer s)
    (he : Prepared.EndsWith ⟨p, C⟩ reader writer e) : Mirrors C s e.machine := by
  obtain ⟨m, hm, hmirrors⟩ := Prepared.ends_of_walk hp hroom hC hB hs
  rw [he.unique hm]
  exact hmirrors

end WithinCapacity

/-- A machine that has completed had room for its program, so the walk ends with the same. -/
theorem Walk.endsWith_of_completed (hp : Program.parse text = .ok p) (hroom : p.depth ≤ room)
    (hC : 1 ≤ C) {m : Machine} (h : Prepared.EndsWith ⟨p, C⟩ reader writer ⟨m, .completed⟩) :
    ∃ s, Walk.EndsWith memory text room reader writer s ∧ s.halted = false ∧ Mirrors C s m := by
  obtain ⟨k, ⟨m', ending⟩, hk, he⟩ := Prepared.endsWith_iff_after.mp h
  cases he
  have htogether := Together.start hC (p.block.map Op.prim) reader writer
  rcases Together.within_or_leaves (Together.within_start hC) k with hw | ⟨i, -, hw, hout⟩
  · obtain ⟨s, hs, hending, hmirrors⟩ := htogether.world_done hw hk
    refine ⟨s.flushed, (Walk.endsWith_iff_after hp hroom).mpr ⟨k + 1, s, hs, rfl⟩, ?_,
      hmirrors.finish⟩
    cases hhalted : s.halted with
    | false => exact hhalted
    | true =>
      rw [Together.endingOf, hhalted] at hending
      contradiction
  · obtain ⟨m'', hoverflow, -⟩ := htogether.after_overflow hw hout
    cases Engine.done_unique hoverflow hk

/-- The first moment at which the pointer of a walk has left a capacity. -/
def Walk.FirstOut (memory : Memory) (text : List Char) (room C : Nat) (reader : Reader)
    (writer : Writer) (n : Nat) (s : World) : Prop :=
  Walk.Shows memory text room reader writer n s ∧ s.tape.pointer = C ∧
    ∀ k < n, ∀ s', Walk.Shows memory text room reader writer k s' → s'.tape.pointer < C

/-- The machine overflows with the primitive that first takes the pointer of the walk out. -/
theorem Prepared.overflow_of_firstOut (hp : Program.parse text = .ok p) (hroom : p.depth ≤ room)
    (hC : 1 ≤ C) (h : Walk.FirstOut memory text room C reader writer n s) :
    ∃ m, Prepared.EndsWith ⟨p, C⟩ reader writer ⟨m, .overflow C C⟩ ∧ m.reader = s.reader ∧
      m.writer.output = s.writer.output := by
  obtain ⟨hs, hpointer, hfirst⟩ := h
  obtain ⟨k, m, hk, hreader, hwriter⟩ :=
    (Together.start hC (p.block.map Op.prim) reader writer).overflow_of_shows
      (Together.within_start hC) ((Walk.shows_iff hp hroom).mp hs) hpointer
      fun j hj s' hs' => hfirst j hj s' ((Walk.shows_iff hp hroom).mpr hs')
  refine ⟨_, Prepared.endsWith_iff_after.mpr ⟨k, _, hk, rfl⟩, hreader, ?_⟩
  show m.writer.output = s.writer.output
  rw [hwriter]

/-- The machine overflows only there. -/
theorem Walk.firstOut_of_overflow (hp : Program.parse text = .ok p) (hroom : p.depth ≤ room)
    (hC : 1 ≤ C) {m : Machine} {position : Int} {capacity : Nat}
    (h : Prepared.EndsWith ⟨p, C⟩ reader writer ⟨m, .overflow position capacity⟩) :
    position = C ∧ capacity = C ∧ ∃ n s, Walk.FirstOut memory text room C reader writer n s ∧
      m.reader = s.reader ∧ m.writer.output = s.writer.output := by
  obtain ⟨k, ⟨m', ending⟩, hk, he⟩ := Prepared.endsWith_iff_after.mp h
  cases he
  obtain ⟨hposition, hcapacity, n, s, hs, hpointer, hfirst, hreader, hwriter⟩ :=
    (Together.start hC (p.block.map Op.prim) reader writer).shows_of_overflow
      (Together.within_start hC) hk
  refine ⟨hposition, hcapacity, n, s, ⟨(Walk.shows_iff hp hroom).mpr hs, hpointer, ?_⟩, hreader, ?_⟩
  · exact fun j hj s' hs' => hfirst j hj s' ((Walk.shows_iff hp hroom).mp hs')
  · show m'.writer.output = s.writer.output
    rw [hwriter]

/-- A text on a growable tape and its program on a tape of capacity `C` run in lock step, as long as
the pointer stays below `C`: they come equally far, show the same and end alike. The machine
overflows at the first moment at which the pointer of the walk is `C`, and at no other. -/
theorem walk_machine_lockstep (memory : Memory) (hp : Program.parse text = .ok p)
    (hroom : p.depth ≤ room) (hC : 1 ≤ C) (reader : Reader) (writer : Writer) :
    (∀ n, (∀ k ≤ n, ∀ s, Walk.Shows memory text room reader writer k s → s.tape.pointer < C) →
      ((∃ s, Walk.Shows memory text room reader writer n s) ↔
        ∃ m, Prepared.Shows ⟨p, C⟩ reader writer n m) ∧
      ∀ s m, Walk.Shows memory text room reader writer n s →
        Prepared.Shows ⟨p, C⟩ reader writer n m → Mirrors C s m) ∧
    ((∀ n s, Walk.Shows memory text room reader writer n s → s.tape.pointer < C) →
      ((∃ s, Walk.EndsWith memory text room reader writer s ∧ s.halted = false) ↔
        ∃ m, Prepared.EndsWith ⟨p, C⟩ reader writer ⟨m, .completed⟩) ∧
      ((∃ s, Walk.EndsWith memory text room reader writer s ∧ s.halted = true) ↔
        ∃ m, Prepared.EndsWith ⟨p, C⟩ reader writer ⟨m, .halted⟩) ∧
      ∀ s e, Walk.EndsWith memory text room reader writer s →
        Prepared.EndsWith ⟨p, C⟩ reader writer e →
        Mirrors C s e.machine ∧ s.tape.nonzero = nonzeroCells e.machine.cells) ∧
    (∀ n s, Walk.FirstOut memory text room C reader writer n s →
      ∃ m, Prepared.EndsWith ⟨p, C⟩ reader writer ⟨m, .overflow C C⟩ ∧ m.reader = s.reader ∧
        m.writer.output = s.writer.output) ∧
    (∀ m position capacity,
      Prepared.EndsWith ⟨p, C⟩ reader writer ⟨m, .overflow position capacity⟩ →
      position = C ∧ capacity = C ∧ ∃ n s, Walk.FirstOut memory text room C reader writer n s ∧
        m.reader = s.reader ∧ m.writer.output = s.writer.output) := by
  have htogether := Together.start hC (p.block.map Op.prim) reader writer
  refine ⟨fun n hB => ?_, fun hB => ?_, fun n s => Prepared.overflow_of_firstOut hp hroom hC,
    fun m position capacity => Walk.firstOut_of_overflow hp hroom hC⟩
  · simp only [Walk.shows_iff hp hroom] at hB ⊢
    exact ⟨htogether.exists_shows_iff hB, fun s m => htogether.shows_mirrors hB⟩
  · refine ⟨Walk.ends_iff_prepared hp hroom hC hB false, Walk.ends_iff_prepared hp hroom hC hB true,
      fun s e hs he => ?_⟩
    have hmirrors := Walk.ends_mirror hp hroom hC hB hs he
    exact ⟨hmirrors, hmirrors.nonzero⟩

/-- A loop that moves to the right for ever leaves a tape of two cells, and until then both tapes
hold the same. -/
theorem walk_machine_lockstep_right :
    Program.parse "+[.>+]".toList = .ok ⟨.cons (.add 1)
      (.loop (.cons .output (.cons (.move 1) (.cons (.add 1) .nil))) .nil), 1, 6⟩ ∧
    ∃ n s, Walk.FirstOut (.below 2) "+[.>+]".toList 1 2 {} {} n s ∧
      s.writer.output = #[1, 1] := by
  have hp : Program.parse "+[.>+]".toList = .ok ⟨.cons (.add 1)
      (.loop (.cons .output (.cons (.move 1) (.cons (.add 1) .nil))) .nil), 1, 6⟩ := rfl
  have hend : Prepared.EndsWith ⟨⟨.cons (.add 1)
      (.loop (.cons .output (.cons (.move 1) (.cons (.add 1) .nil))) .nil), 1, 6⟩, 2⟩ {} {}
      ⟨⟨#[1, 1], 2, {}, ⟨#[1, 1], 1, false⟩⟩, .overflow 2 2⟩ := ⟨20, by decide⟩
  obtain ⟨-, -, n, s, hout, -, houtput⟩ :=
    (walk_machine_lockstep _ hp (Nat.le_refl 1) (by decide : 1 ≤ 2) {} {}).2.2.2 _ _ _ hend
  exact ⟨hp, n, s, hout, houtput.symm⟩

end Programs

end TapeLang
