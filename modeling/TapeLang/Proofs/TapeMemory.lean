import TapeLang.Proofs.WalkMachine

/-! A growable tape serves as an unbounded memory of zeros, as far as it can grow. A `Record` keeps
of a sequence of requests only what was written and which positions were reached, and says from that
what every cell holds and how long the tape is. A request for which the tape would have to grow is
refused when the further cells are too many to be counted, or when the host refuses them at that
moment; a refused move leaves the pointer beyond the cells. -/

namespace TapeLang

/-! ### Cells that are not zero -/

namespace nonzeroCells

variable {cells : Array Cell} {n i : Nat} {c : Cell} {found : List (Nat × Cell)}

theorem mem_below : (i, c) ∈ below cells n found ↔
    (i < n ∧ c ≠ 0 ∧ cells.getD i 0 = c) ∨ (i, c) ∈ found := by
  induction n generalizing found with
  | zero => simp [below]
  | succ n ih =>
    simp only [below]
    rw [ih]
    by_cases hz : cells.getD n 0 = 0
    · rw [if_pos hz]
      have hn : i = n → c ≠ 0 → cells.getD i 0 ≠ c := by
        rintro rfl hc
        rw [hz]
        exact hc.symm
      grind
    · rw [if_neg hz]
      grind

theorem pairwise_below (hfound : found.Pairwise (·.1 < ·.1)) (hn : ∀ p ∈ found, n ≤ p.1) :
    (below cells n found).Pairwise (·.1 < ·.1) := by
  induction n generalizing found with
  | zero => exact hfound
  | succ n ih =>
    simp only [below]
    split
    · exact ih hfound fun p hp => Nat.le_of_succ_le (hn p hp)
    · refine ih (List.pairwise_cons.mpr ⟨fun p hp => hn p hp, hfound⟩) fun p hp => ?_
      rcases List.mem_cons.mp hp with rfl | hp
      · exact Nat.le_refl _
      · exact Nat.le_of_succ_le (hn p hp)

end nonzeroCells

namespace Tape

theorem mem_nonzero {t : Tape} {i : Nat} {c : Cell} :
    (i, c) ∈ t.nonzero ↔ c ≠ 0 ∧ t.get i = c := by
  rw [nonzero, nonzeroCells, nonzeroCells.mem_below]
  constructor
  · rintro (⟨-, hc, hi⟩ | hnil)
    · exact ⟨hc, hi⟩
    · contradiction
  · rintro ⟨hc, hi⟩
    refine .inl ⟨?_, hc, hi⟩
    apply Nat.lt_of_not_le
    intro hle
    exact hc (hi.symm.trans (getD_of_size_le hle))

theorem pairwise_nonzero (t : Tape) : t.nonzero.Pairwise (·.1 < ·.1) :=
  nonzeroCells.pairwise_below .nil nofun

/-- Growth fails when the further cells are too many to be counted, or when they are refused. -/
theorem growthFault?_eq_none_iff {refusals : Nat → Nat → Bool} {t : Tape} {pos : Int} :
    t.growthFault? refusals pos = none ↔ (t.cells.size ≤ pos →
      pos + 1 - t.cells.size ≤ largestIndex - 33 ∧
        refusals t.cells.size (pos + 1 - t.cells.size).toNat = false) := by
  unfold growthFault? cellsFault? isIndex largestIndex
  split
  · simp only [true_iff]
    omega
  · have hcount : ((pos + 1 - t.cells.size).toNat : Int) = pos + 1 - t.cells.size := by omega
    rw [hcount]
    cases refusals t.cells.size (pos + 1 - t.cells.size).toNat <;> grind

/-- A refusal by the memory is told from cells that cannot be counted. -/
theorem growthFault?_eq_noMemory_iff {refusals : Nat → Nat → Bool} {t : Tape} {pos : Int}
    {e : SizeFault} (h : t.growthFault? refusals pos = some e) :
    e = .noMemory ↔ pos + 1 - t.cells.size ≤ largestIndex - 33 := by
  unfold growthFault? cellsFault? isIndex largestIndex at *
  split at h
  · contradiction
  · have hcount : ((pos + 1 - t.cells.size).toNat : Int) = pos + 1 - t.cells.size := by omega
    rw [hcount] at h
    grind

/-! ### Requests -/

/-- What can be asked of a tape. -/
inductive Request where
  | read (pos : Int)
  | write (pos value : Int)
  | move (delta : Int)
  /-- The cell under the pointer. -/
  | get
  /-- A write under the pointer. -/
  | set (value : Int)
  | array
  | nonzero
deriving Repr, DecidableEq

namespace Request

/-- The position of which a cell is read or written. -/
def accessed (pointer : Int) : Request → Option Int
  | .read pos | .write pos _ => some pos
  | .get | .set _ => some pointer
  | .move _ | .array | .nonzero => none

/-- The position up to which the tape has to grow. -/
def target (pointer : Int) : Request → Option Int
  | .write pos _ => some pos
  | .set _ => some pointer
  | .move delta => some (pointer + delta)
  | .read _ | .get | .array | .nonzero => none

end Request

/-- A request, and which further cells a tape with some cells is refused when it is made. -/
structure Demand where
  request : Request
  refusals : Nat → Nat → Bool

/-- A request for which no cells are refused. -/
def Demand.granted (r : Request) : Demand := ⟨r, fun _ _ => false⟩

/-- What a tape answers. -/
inductive Answer where
  | cell (c : Cell)
  | stored
  | moved (pointer : Int)
  | cells (cells : List Cell)
  | nonzero (cells : List (Nat × Cell))
deriving Repr, DecidableEq

/-- The answer to a read. -/
def seen (t : Tape) (r : Except BelowStart Cell) : Tape × Except Fault Answer :=
  (t, (r.map .cell).mapError .belowStart)

/-- The answer to a write, which leaves the tape as it is when it fails. -/
def stored (t : Tape) (r : Except Fault Tape) : Tape × Except Fault Answer :=
  match r with
  | .ok t' => (t', .ok .stored)
  | .error e => (t, .error e)

/-- Serves a request: the tape then, and the answer or the access that failed. -/
def serve (refusals : Nat → Nat → Bool) (t : Tape) : Request → Tape × Except Fault Answer
  | .read pos => t.seen (t.read pos)
  | .write pos value => t.stored (t.tryWrite refusals pos value)
  | .move delta =>
    match t.tryMove refusals delta with
    | (t', _, none) => (t', .ok (.moved t'.pointer))
    | (t', _, some e) => (t', .error (.growth e))
  | .get => t.seen t.current
  | .set value => t.stored (t.tryWrite refusals t.pointer value)
  | .array => (t, .ok (.cells t.cells.toList))
  | .nonzero => (t, .ok (.nonzero t.nonzero))

/-- A new tape after demands. -/
def after (demands : List Demand) : Tape :=
  demands.foldl (fun t d => (t.serve d.refusals d.request).1) {}

end Tape

/-! ### What is remembered of requests -/

/-- What a sequence of requests has written, last first, the positions it has written or moved to,
and where the pointer is. `beyond` says that the last move was refused. -/
structure Record where
  pointer : Int := 0
  writes : List (Int × Int) := []
  reached : List Int := []
  beyond : Bool := false

namespace Record

open Tape (Request Demand)

/-- The last value that was written at a position, 0 if none was. -/
def value (m : Record) (pos : Int) : Int := (m.writes.lookup pos).getD 0

/-- One more than the largest position reached that is not negative, or 1 if there is none. -/
def length (m : Record) : Nat := 1 + (m.reached.map Int.toNat).foldr max 0

/-- Whether a tape of this length cannot grow up to a position. -/
def refuses (refusals : Nat → Nat → Bool) (m : Record) (pos : Int) : Prop :=
  m.length ≤ pos ∧ (largestIndex - 33 < pos + 1 - m.length ∨
    refusals m.length (pos + 1 - m.length).toNat = true)

instance (refusals : Nat → Nat → Bool) (m : Record) (pos : Int) :
    Decidable (m.refuses refusals pos) :=
  inferInstanceAs (Decidable (_ ∧ (_ ∨ _)))

def store (refusals : Nat → Nat → Bool) (m : Record) (pos value : Int) : Record :=
  if pos < 0 ∨ m.refuses refusals pos then m
  else { m with writes := (pos, value) :: m.writes, reached := pos :: m.reached }

def move (refusals : Nat → Nat → Bool) (m : Record) (delta : Int) : Record :=
  let target := m.pointer + delta
  if m.refuses refusals target then { m with pointer := target, beyond := true }
  else { m with pointer := target, beyond := false, reached := target :: m.reached }

def note (refusals : Nat → Nat → Bool) (m : Record) : Request → Record
  | .write pos value => m.store refusals pos value
  | .set value => m.store refusals m.pointer value
  | .move delta => m.move refusals delta
  | .read _ | .get | .array | .nonzero => m

def after (demands : List Demand) : Record :=
  demands.foldl (fun m d => m.note d.refusals d.request) {}

theorem length_cons (m : Record) (pos : Int) (writes : List (Int × Int)) (pointer : Int)
    (beyond : Bool) :
    length ⟨pointer, writes, pos :: m.reached, beyond⟩ = max m.length (pos.toNat + 1) := by
  simp only [length, List.map_cons, List.foldr_cons]
  omega

theorem length_le_note (refusals : Nat → Nat → Bool) (m : Record) (r : Request) :
    m.length ≤ (m.note refusals r).length := by
  have hstore : ∀ pos value, m.length ≤ (m.store refusals pos value).length := by
    intro pos value
    unfold store
    split
    · exact Nat.le_refl _
    · rw [length_cons]
      exact Nat.le_max_left _ _
  cases r with
  | write pos value => exact hstore pos value
  | set value => exact hstore m.pointer value
  | move delta =>
    simp only [note, move]
    split
    · exact Nat.le_refl _
    · rw [length_cons]
      exact Nat.le_max_left _ _
  | read | get | array | nonzero => exact Nat.le_refl _

theorem value_cons (m : Record) (pos pos' value : Int) (pointer : Int) (reached : List Int)
    (beyond : Bool) :
    Record.value ⟨pointer, (pos, value) :: m.writes, reached, beyond⟩ pos' =
      if pos' = pos then value else m.value pos' := by
  simp only [Record.value, List.lookup_cons]
  by_cases h : pos' = pos
  · simp [h]
  · rw [if_neg h, beq_eq_false_iff_ne.mpr h]

end Record

/-- The tape `t` is as the record `m` says. -/
structure Recalls (m : Record) (t : Tape) : Prop where
  pointer : t.pointer = m.pointer
  length : t.cells.size = m.length
  cells : ∀ i : Nat, t.get i = Cell.wrap (m.value i)
  within : m.beyond = false → t.pointer < t.cells.size

/-! ### The ways a request can go -/

namespace Tape

variable {refusals : Nat → Nat → Bool} {m : Record} {t : Tape} {pos value delta : Int}

theorem growthFault?_of_not_refuses (h : Recalls m t) (hallowed : ¬ m.refuses refusals pos) :
    t.growthFault? refusals pos = none := by
  rw [growthFault?_eq_none_iff, h.length]
  intro hlong
  obtain ⟨hcount, hgranted⟩ := not_or.mp fun h => hallowed ⟨hlong, h⟩
  exact ⟨Int.not_lt.mp hcount, Bool.eq_false_iff.mpr hgranted⟩

theorem growthFault?_of_refuses (h : Recalls m t) (hrefused : m.refuses refusals pos) :
    ∃ e, t.growthFault? refusals pos = some e ∧
      (e = .noMemory ↔ pos + 1 - m.length ≤ largestIndex - 33) := by
  obtain ⟨hlong, hwhy⟩ := hrefused
  have hsome : t.growthFault? refusals pos ≠ none := by
    rw [ne_eq, growthFault?_eq_none_iff, h.length]
    intro hnone
    obtain ⟨hcount, hgranted⟩ := hnone hlong
    rcases hwhy with hwhy | hwhy
    · exact absurd hcount (Int.not_le.mpr hwhy)
    · exact Bool.false_ne_true (hgranted.symm.trans hwhy)
  obtain ⟨e, he⟩ := Option.ne_none_iff_exists'.mp hsome
  have hmemory := growthFault?_eq_noMemory_iff he
  rw [h.length] at hmemory
  exact ⟨e, he, hmemory⟩

theorem seen_below (hneg : pos < 0) : t.seen (t.read pos) = (t, .error (.belowStart ⟨pos⟩)) := by
  simp only [read, if_pos hneg]
  rfl

theorem seen_read (h : Recalls m t) (hpos : 0 ≤ pos) :
    t.seen (t.read pos) = (t, .ok (.cell (Cell.wrap (m.value pos)))) := by
  have hnat : ((pos.toNat : Nat) : Int) = pos := Int.toNat_of_nonneg hpos
  simp only [read, if_neg (Int.not_lt.mpr hpos), h.cells, hnat]
  rfl

theorem stored_below (hneg : pos < 0) :
    t.stored (t.tryWrite refusals pos value) = (t, .error (.belowStart ⟨pos⟩)) := by
  have hg : t.growthFault? refusals pos = none := by
    rw [growthFault?_eq_none_iff]
    omega
  simp only [tryWrite, hg, write, if_pos hneg]
  rfl

theorem stored_refused (h : Recalls m t) (hrefused : m.refuses refusals pos) (value : Int) :
    ∃ e, t.stored (t.tryWrite refusals pos value) = (t, .error (.growth e)) ∧
      (e = .noMemory ↔ pos + 1 - m.length ≤ largestIndex - 33) := by
  obtain ⟨e, he, hmemory⟩ := growthFault?_of_refuses h hrefused
  refine ⟨e, ?_, hmemory⟩
  simp only [tryWrite, he, stored]

theorem stored_put (h : Recalls m t) (hpos : 0 ≤ pos) (hallowed : ¬ m.refuses refusals pos) :
    t.stored (t.tryWrite refusals pos value) =
      (t.put pos.toNat (Cell.wrap value), .ok .stored) := by
  simp only [tryWrite, growthFault?_of_not_refuses h hallowed, write,
    if_neg (Int.not_lt.mpr hpos)]
  rfl

theorem moved_refused (h : Recalls m t) (hrefused : m.refuses refusals (t.pointer + delta)) :
    ∃ e, t.serve refusals (.move delta) =
        ({ t with pointer := t.pointer + delta }, .error (.growth e)) ∧
      (e = .noMemory ↔ t.pointer + delta + 1 - m.length ≤ largestIndex - 33) := by
  obtain ⟨e, he, hmemory⟩ := growthFault?_of_refuses h hrefused
  refine ⟨e, ?_, hmemory⟩
  simp only [serve, tryMove, he]

theorem moved (h : Recalls m t) (hallowed : ¬ m.refuses refusals (t.pointer + delta)) :
    t.serve refusals (.move delta) = ((t.move delta).1, .ok (.moved (t.pointer + delta))) := by
  simp only [serve, tryMove, growthFault?_of_not_refuses h hallowed, pointer_move]

end Tape

/-! ### Requests in turn -/

namespace Recalls

open Tape (Request Demand)

variable {refusals : Nat → Nat → Bool} {m : Record} {t : Tape}

theorem start : Recalls {} {} where
  pointer := rfl
  length := rfl
  cells i := by
    have hz : Cell.wrap (({} : Record).value i) = 0 := rfl
    rw [hz]
    cases i <;> rfl
  within _ := by decide

theorem put (h : Recalls m t) {pos : Int} (hpos : 0 ≤ pos) (value : Int) :
    Recalls { m with writes := (pos, value) :: m.writes, reached := pos :: m.reached }
      (t.put pos.toNat (Cell.wrap value)) where
  pointer := h.pointer
  length := by rw [Record.length_cons, ← h.length, Tape.size_put]
  cells i := by
    rw [Tape.get_put, Record.value_cons, h.cells]
    by_cases hi : i = pos.toNat
    · rw [if_pos hi, if_pos (by omega)]
    · rw [if_neg hi, if_neg (by omega)]
  within hb := by
    have hwithin := h.within hb
    rw [Tape.pointer_put, Tape.size_put]
    omega

theorem store (h : Recalls m t) (pos value : Int) :
    Recalls (m.store refusals pos value) (t.stored (t.tryWrite refusals pos value)).1 := by
  unfold Record.store
  split
  · rename_i hkept
    rcases hkept with hneg | hrefused
    · rw [Tape.stored_below hneg]
      exact h
    · obtain ⟨e, he, -⟩ := Tape.stored_refused h hrefused value
      rw [he]
      exact h
  · rename_i hstored
    obtain ⟨hpos, hallowed⟩ := not_or.mp hstored
    rw [Tape.stored_put h (Int.not_lt.mp hpos) hallowed]
    exact h.put (Int.not_lt.mp hpos) value

theorem move (h : Recalls m t) (delta : Int) :
    Recalls (m.move refusals delta) (t.serve refusals (.move delta)).1 := by
  simp only [Record.move, ← h.pointer]
  split
  · rename_i hrefused
    obtain ⟨e, he, -⟩ := Tape.moved_refused h hrefused
    rw [he]
    exact ⟨rfl, h.length, h.cells, nofun⟩
  · rename_i hallowed
    rw [Tape.moved h hallowed]
    have hpos : 0 < t.cells.size := by
      rw [h.length, Record.length]
      omega
    refine ⟨Tape.pointer_move t delta, ?_, fun i => ?_, fun _ => ?_⟩
    · rw [Record.length_cons, ← h.length, Tape.size_move]
      split <;> omega
    · rw [Tape.get_move, h.cells]
      rfl
    · rw [Tape.pointer_move, Tape.size_move]
      split <;> omega

/-- One request. -/
theorem serve (h : Recalls m t) (refusals : Nat → Nat → Bool) (r : Request) :
    Recalls (m.note refusals r) (t.serve refusals r).1 := by
  cases r with
  | write pos value => exact h.store pos value
  | set value =>
    show Recalls (m.store refusals m.pointer value)
      (t.stored (t.tryWrite refusals t.pointer value)).1
    rw [← h.pointer]
    exact h.store t.pointer value
  | move delta => exact h.move delta
  | read | get | array | nonzero => exact h

/-- All demands of a sequence. -/
theorem after (demands : List Demand) : Recalls (Record.after demands) (Tape.after demands) := by
  suffices hall : ∀ m t, Recalls m t →
      Recalls (demands.foldl (fun m d => m.note d.refusals d.request) m)
        (demands.foldl (fun t d => (t.serve d.refusals d.request).1) t) from
    hall {} {} start
  induction demands with
  | nil => exact fun m t h => h
  | cons d demands ih => exact fun m t h => ih _ _ (h.serve d.refusals d.request)

theorem size_le_serve (h : Recalls m t) (refusals : Nat → Nat → Bool) (r : Request) :
    t.cells.size ≤ (t.serve refusals r).1.cells.size := by
  rw [h.length, (h.serve refusals r).length]
  exact m.length_le_note refusals r

end Recalls

namespace Tape

/-- A tape that is as `m` says serves a request as it should, when `refusals` are refused. -/
structure Serves (refusals : Nat → Nat → Bool) (m : Record) (t : Tape) (r : Request) : Prop where
  below : ∀ pos, r.accessed t.pointer = some pos → pos < 0 →
    t.serve refusals r = (t, .error (.belowStart ⟨pos⟩))
  /-- A refusal changes no cell, and says whether the cells can be counted. -/
  refused : ∀ pos, r.target t.pointer = some pos → m.refuses refusals pos →
    ∃ e, (t.serve refusals r).2 = .error (.growth e) ∧ (t.serve refusals r).1.cells = t.cells ∧
      (e = .noMemory ↔ pos + 1 - m.length ≤ largestIndex - 33)
  succeeds : (∀ pos, r.accessed t.pointer = some pos → 0 ≤ pos) →
    (∀ pos, r.target t.pointer = some pos → ¬ m.refuses refusals pos) →
    ∃ a, (t.serve refusals r).2 = .ok a
  /-- A read gives the last value written at the position, modulo 256. -/
  read : ∀ pos, (r = .read pos ∨ r = .get ∧ pos = t.pointer) → 0 ≤ pos →
    (t.serve refusals r).2 = .ok (.cell (Cell.wrap (m.value pos)))
  /-- Where the tape need not grow, it stays as it is. -/
  still : r.target t.pointer = none → (t.serve refusals r).1 = t
  /-- A move takes the pointer along and changes no cell that exists. -/
  moves : ∀ delta, r = .move delta → (t.serve refusals r).1.pointer = t.pointer + delta ∧
    ∀ i < t.cells.size, (t.serve refusals r).1.cells[i]? = t.cells[i]?

variable {refusals : Nat → Nat → Bool} {m : Record} {t : Tape} {r : Request} {pos value : Int}

theorem getElem?_move {i : Nat} (hi : i < t.cells.size) (delta : Int) :
    (t.move delta).1.cells[i]? = t.cells[i]? := by
  have hget := get_move t delta i
  have hsize : i < (t.move delta).1.cells.size := by
    rw [size_move]
    split <;> omega
  simp only [get, Array.getD_eq_getD_getElem?, Array.getElem?_eq_getElem hi,
    Array.getElem?_eq_getElem hsize, Option.getD_some] at hget ⊢
  rw [hget]

namespace Serves

/-- A request that is a read at `pos`. -/
theorem of_read (h : Recalls m t) (hserve : t.serve refusals r = t.seen (t.read pos))
    (haccessed : r.accessed t.pointer = some pos) (htarget : r.target t.pointer = none)
    (hread : ∀ pos', (r = .read pos' ∨ r = .get ∧ pos' = t.pointer) → pos' = pos)
    (hmove : ∀ delta, r ≠ .move delta) : Serves refusals m t r where
  below pos' hpos' hneg := by
    cases haccessed.symm.trans hpos'
    rw [hserve, seen_below hneg]
  refused pos' hpos' := by
    cases htarget.symm.trans hpos'
  succeeds hlow _ := by
    rw [hserve, seen_read h (hlow pos haccessed)]
    exact ⟨_, rfl⟩
  read pos' hr hlow := by
    obtain rfl := hread pos' hr
    rw [hserve, seen_read h hlow]
  still _ := by
    rw [hserve]
    rfl
  moves delta hr := absurd hr (hmove delta)

/-- A request that is a write at `pos`. -/
theorem of_write (h : Recalls m t)
    (hserve : t.serve refusals r = t.stored (t.tryWrite refusals pos value))
    (haccessed : r.accessed t.pointer = some pos) (htarget : r.target t.pointer = some pos)
    (hread : ∀ pos', ¬ (r = .read pos' ∨ r = .get ∧ pos' = t.pointer))
    (hmove : ∀ delta, r ≠ .move delta) : Serves refusals m t r where
  below pos' hpos' hneg := by
    cases haccessed.symm.trans hpos'
    rw [hserve, stored_below hneg]
  refused pos' hpos' hrefused := by
    cases htarget.symm.trans hpos'
    obtain ⟨e, he, hmemory⟩ := stored_refused h hrefused value
    rw [hserve, he]
    exact ⟨e, rfl, rfl, hmemory⟩
  succeeds hlow hallowed := by
    rw [hserve, stored_put h (hlow pos haccessed) (hallowed pos htarget)]
    exact ⟨_, rfl⟩
  read pos' hr := absurd hr (hread pos')
  still hnone := by
    cases htarget.symm.trans hnone
  moves delta hr := absurd hr (hmove delta)

theorem of_move (h : Recalls m t) (delta : Int) : Serves refusals m t (.move delta) where
  below pos' hpos' := by
    cases hpos'
  refused pos' hpos' hrefused := by
    cases hpos'
    obtain ⟨e, he, hmemory⟩ := moved_refused h hrefused
    rw [he]
    exact ⟨e, rfl, rfl, hmemory⟩
  succeeds _ hallowed := by
    rw [moved h (hallowed _ rfl)]
    exact ⟨_, rfl⟩
  read pos' hr := by
    rcases hr with hr | ⟨hr, -⟩ <;> cases hr
  still hnone := by
    cases hnone
  moves delta' hr := by
    cases hr
    by_cases hrefused : m.refuses refusals (t.pointer + delta)
    · obtain ⟨e, he, -⟩ := moved_refused h hrefused
      rw [he]
      exact ⟨rfl, fun _ _ => rfl⟩
    · rw [moved h hrefused]
      exact ⟨pointer_move t delta, fun i hi => getElem?_move hi delta⟩

theorem of_recalls (h : Recalls m t) (r : Request) : Serves refusals m t r := by
  cases r with
  | read pos => exact .of_read h rfl rfl rfl (by simp) nofun
  | get => exact .of_read h (show _ = t.seen (t.read t.pointer) from rfl) rfl rfl (by simp) nofun
  | write pos value => exact .of_write h rfl rfl rfl (by simp) nofun
  | set value =>
    exact .of_write h (show _ = t.stored (t.tryWrite refusals t.pointer value) from rfl) rfl rfl
      (by simp) nofun
  | move delta => exact .of_move h delta
  | array => exact ⟨nofun, nofun, fun _ _ => ⟨_, rfl⟩, by simp, fun _ => rfl, nofun⟩
  | nonzero => exact ⟨nofun, nofun, fun _ _ => ⟨_, rfl⟩, by simp, fun _ => rfl, nofun⟩

theorem belowStart_iff (h : Serves refusals m t r) (e : BelowStart) :
    (t.serve refusals r).2 = .error (.belowStart e) ↔
      r.accessed t.pointer = some e.position ∧ e.position < 0 := by
  constructor
  · intro he
    apply Classical.byContradiction
    intro hnot
    have hlow : ∀ pos, r.accessed t.pointer = some pos → 0 ≤ pos := by
      intro pos hpos
      apply Int.not_lt.mp
      intro hneg
      rw [h.below pos hpos hneg] at he
      cases he
      exact hnot ⟨hpos, hneg⟩
    have hallowed : ∀ pos, r.target t.pointer = some pos → ¬ m.refuses refusals pos := by
      intro pos hpos hrefused
      obtain ⟨e', he', -⟩ := h.refused pos hpos hrefused
      cases he.symm.trans he'
    obtain ⟨a, ha⟩ := h.succeeds hlow hallowed
    cases he.symm.trans ha
  · rintro ⟨hpos, hneg⟩
    rw [h.below _ hpos hneg]

end Serves

theorem toList_cells (t : Tape) : t.cells.toList = (List.range t.cells.size).map t.get := by
  apply List.ext_getElem
  · simp
  · intro i hi _
    have hsize : i < t.cells.size := hi
    simp [get, Array.getD, hsize]

/-- A growable tape serves as an unbounded memory of zeros, as far as it can grow. After any demands
it is as they are recorded, lists its cells that are not zero in ascending order, and serves the
next request as it should: it fails below the first cell, or is refused, or succeeds. -/
theorem tape_refines_memory (demands : List Demand) :
    Recalls (Record.after demands) (after demands) ∧
    (after demands).cells.toList =
      (List.range (Record.after demands).length).map
        (fun i : Nat => Cell.wrap ((Record.after demands).value i)) ∧
    (after demands).nonzero.Pairwise (·.1 < ·.1) ∧
    (∀ (i : Nat) c, (i, c) ∈ (after demands).nonzero ↔
      c ≠ 0 ∧ c = Cell.wrap ((Record.after demands).value i)) ∧
    ∀ refusals r, Serves refusals (Record.after demands) (after demands) r ∧
      (∀ e, ((after demands).serve refusals r).2 = .error (.belowStart e) ↔
        r.accessed (after demands).pointer = some e.position ∧ e.position < 0) ∧
      (after demands).cells.size ≤ ((after demands).serve refusals r).1.cells.size := by
  have h := Recalls.after demands
  refine ⟨h, ?_, pairwise_nonzero _, fun i c => ?_, fun refusals r => ?_⟩
  · rw [toList_cells, h.length]
    exact List.map_congr_left fun i _ => h.cells i
  · rw [mem_nonzero, h.cells, eq_comm (a := c)]
  · have hserves : Serves refusals _ _ r := .of_recalls h r
    exact ⟨hserves, hserves.belowStart_iff, h.size_le_serve refusals r⟩

/-- A pointer that went below the first cell comes back, a value is stored modulo 256, and a write
for which the host has no memory is forgotten. -/
theorem tape_refines_memory_back :
    (after [.granted (.move (-2)), .granted (.set 5), .granted (.move 5), .granted (.set 300),
      .granted (.write 1 (-1)), ⟨.write 9 7, fun _ count => 4 < count⟩]).pointer = 3 ∧
    (after [.granted (.move (-2)), .granted (.set 5), .granted (.move 5), .granted (.set 300),
      .granted (.write 1 (-1)), ⟨.write 9 7, fun _ count => 4 < count⟩]).cells.toList =
      [0, 255, 0, 44] ∧
    ((after [.granted (.move (-2)), .granted (.set 5), .granted (.move 5), .granted (.set 300),
      .granted (.write 1 (-1)), ⟨.write 9 7, fun _ count => 4 < count⟩]).serve
        (fun _ _ => true) .get).2 = .ok (.cell 44) := by
  obtain ⟨hrecalls, hcells, -, -, hserve⟩ :=
    tape_refines_memory [.granted (.move (-2)), .granted (.set 5), .granted (.move 5),
      .granted (.set 300), .granted (.write 1 (-1)), ⟨.write 9 7, fun _ count => 4 < count⟩]
  have hpointer := hrecalls.pointer
  refine ⟨hpointer, hcells, ?_⟩
  exact (hserve _ .get).1.read 3 (.inr ⟨rfl, hpointer.symm⟩) (by decide)

/-- Even where nothing is refused, no tape grows so far that its pointer could be anywhere: a move
by more cells than can be counted fails, and leaves the pointer beyond the cells. -/
theorem tape_move_refused :
    (¬ ∀ requests : List Request, (after (requests.map .granted)).pointer <
      (after (requests.map .granted)).cells.size) ∧
    ¬ ∀ (requests : List Request) delta, ∃ a,
      ((after (requests.map .granted)).serve (fun _ _ => false) (.move delta)).2 = .ok a := by
  constructor
  · intro h
    exact absurd (h [.move (10 ^ 20)]) (by decide)
  · intro h
    obtain ⟨a, ha⟩ := h [] (10 ^ 20)
    have hfails : ((after []).serve (fun _ _ => false) (.move (10 ^ 20))).2 =
        .error (.growth .notIndex) := rfl
    cases hfails.symm.trans ha

end Tape

end TapeLang
