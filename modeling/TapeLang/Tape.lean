import TapeLang.Cell
import TapeLang.Event
import TapeLang.Index
import TapeLang.Text.ByteSize

/-! Tapes. A growable tape starts with one cell and gets more as positions are written or moved
to; its pointer may stand below the first cell, but no cell there can be read or written. Where it
is asked to grow by more cells than an index can count or memory can hold, that is refused. A fixed
tape is an array of zero cells of a given capacity. -/

namespace TapeLang

/-- The positions and values of the cells that are not zero, in ascending order. -/
def nonzeroCells (cells : Array Cell) : List (Nat × Cell) :=
  below cells.size []
where
  /-- The non-zero cells below a position, before those already found. -/
  below : Nat → List (Nat × Cell) → List (Nat × Cell)
    | 0, found => found
    | pos + 1, found =>
      let c := cells.getD pos 0
      below pos (if c = 0 then found else (pos, c) :: found)

/-- A tape that grows to the right. -/
structure Tape where
  cells : Array Cell := #[0]
  pointer : Int := 0
deriving Repr, DecidableEq

namespace Tape

/-- A read or write at a position below the first cell. -/
structure BelowStart where
  position : Int
deriving Repr, DecidableEq

/-- What is said about such an access. -/
def BelowStart.message (e : BelowStart) : String :=
  "tape position " ++ toString e.position ++ " is below the start of the tape"

/-- Whether the pointer stands below the first cell. -/
def halted (t : Tape) : Bool := t.pointer < 0

/-- The cells with zeros appended until position `pos` exists. -/
def extend (cells : Array Cell) (pos : Nat) : Array Cell :=
  if pos < cells.size then cells else cells ++ Array.replicate (pos + 1 - cells.size) 0

/-- The cell at a position that is not negative; cells that do not exist yet are zero. -/
def get (t : Tape) (pos : Nat) : Cell := t.cells.getD pos 0

/-- Stores a cell at a position that is not negative. -/
def put (t : Tape) (pos : Nat) (c : Cell) : Tape :=
  let ⟨cells, pointer⟩ := t
  ⟨(extend cells pos).setIfInBounds pos c, pointer⟩

/-- The cell at a position. -/
def read (t : Tape) (pos : Int) : Except BelowStart Cell :=
  if pos < 0 then .error ⟨pos⟩ else .ok (t.get pos.toNat)

/-- Stores an integer, modulo 256, at a position. -/
def write (t : Tape) (pos value : Int) : Except BelowStart Tape :=
  if pos < 0 then .error ⟨pos⟩ else .ok (t.put pos.toNat (Cell.wrap value))

/-- Moves the pointer by `delta`, and notes when it is then below the first cell. -/
def move (t : Tape) (delta : Int) : Tape × List Event :=
  let ⟨cells, pointer⟩ := t
  let target := pointer + delta
  if target < 0 then (⟨cells, target⟩, [.belowStart])
  else (⟨extend cells target.toNat, target⟩, [])

/-- The cell under the pointer. -/
def current (t : Tape) : Except BelowStart Cell := t.read t.pointer

/-- Why an access to a tape in memory fails. -/
inductive Fault where
  | belowStart (e : BelowStart)
  /-- The tape cannot grow so far. -/
  | growth (e : SizeFault)
deriving Repr, DecidableEq

/-- Why the tape cannot grow up to a position, if it cannot. -/
def growthFault? (refuses : Nat → Nat → Bool) (t : Tape) (pos : Int) : Option SizeFault :=
  if pos < t.cells.size then none
  else cellsFault? refuses t.cells.size (pos + 1 - t.cells.size).toNat

/-- Stores an integer, modulo 256, at a position that may be out of reach. -/
def tryWrite (refuses : Nat → Nat → Bool) (t : Tape) (pos value : Int) : Except Fault Tape :=
  match t.growthFault? refuses pos with
  | some e => .error (.growth e)
  | none => (t.write pos value).mapError .belowStart

/-- Moves the pointer to where the tape may not reach. The pointer then stands there all the
same. -/
def tryMove (refuses : Nat → Nat → Bool) (t : Tape) (delta : Int) :
    Tape × List Event × Option SizeFault :=
  let target := t.pointer + delta
  match t.growthFault? refuses target with
  | some e => ({ t with pointer := target }, [], some e)
  | none =>
    let (t, events) := t.move delta
    (t, events, none)

/-- The cells that are not zero. -/
def nonzero (t : Tape) : List (Nat × Cell) := nonzeroCells t.cells

theorem size_extend (cells : Array Cell) (pos : Nat) :
    (extend cells pos).size = max cells.size (pos + 1) := by
  unfold extend
  split
  · omega
  · simp only [Array.size_append, Array.size_replicate]
    omega

theorem getD_extend (cells : Array Cell) (pos i : Nat) :
    (extend cells pos).getD i 0 = cells.getD i 0 := by
  unfold extend
  split
  · rfl
  · simp only [Array.getD_eq_getD_getElem?, Array.getElem?_append, Array.getElem?_replicate]
    by_cases hi : i < cells.size
    · rw [if_pos hi]
    · rw [if_neg hi, Array.getElem?_eq_none (by omega)]
      split <;> rfl

@[simp] theorem pointer_put (t : Tape) (pos : Nat) (c : Cell) :
    (t.put pos c).pointer = t.pointer := rfl

@[simp] theorem size_put (t : Tape) (pos : Nat) (c : Cell) :
    (t.put pos c).cells.size = max t.cells.size (pos + 1) := by
  simp [put, size_extend]

/-- A cell holds what was stored in it last. -/
theorem get_put (t : Tape) (pos i : Nat) (c : Cell) :
    (t.put pos c).get i = if i = pos then c else t.get i := by
  have hs := size_extend t.cells pos
  have hg := getD_extend t.cells pos i
  simp only [put, get, Array.getD_eq_getD_getElem?, Array.getElem?_setIfInBounds] at *
  by_cases h : i = pos
  · subst h
    rw [if_pos rfl, if_pos (by omega), if_pos rfl, Option.getD_some]
  · rw [if_neg (Ne.symm h), if_neg h, hg]

@[simp] theorem pointer_move (t : Tape) (delta : Int) :
    (t.move delta).1.pointer = t.pointer + delta := by
  unfold move
  simp only
  split <;> rfl

/-- A tape can always grow by one cell. -/
theorem growthFault?_of_le_size {memory : Memory} {t : Tape} {pos : Int}
    (h : pos ≤ t.cells.size) : t.growthFault? memory.refusesCells pos = none := by
  unfold growthFault?
  split
  · rfl
  · have hone : (pos + 1 - t.cells.size).toNat = 1 := by omega
    rw [hone, cellsFault?, memory.grants_next]
    rfl

/-- A move changes no cell. -/
@[simp] theorem get_move (t : Tape) (delta : Int) (i : Nat) :
    (t.move delta).1.get i = t.get i := by
  unfold move
  simp only
  split
  · rfl
  · exact getD_extend t.cells _ i

end Tape

/-- Why there is no fixed tape of a capacity. -/
inductive CapacityFault where
  | negative
  /-- The capacity is no index. -/
  | notIndex
  /-- There is not as much memory. -/
  | noMemory (capacity : Nat)
deriving Repr, DecidableEq

/-- What is said about a capacity of which there is no tape. -/
def CapacityFault.message : CapacityFault → String
  | .negative => "negative dimensions are not allowed"
  | .notIndex => "Maximum allowed dimension exceeded"
  | .noMemory capacity =>
    "Unable to allocate " ++ Text.byteSize capacity ++ " for an array with shape (" ++
      toString capacity ++ ",) and data type uint8"

/-- The cells of a fixed tape: as many zeros as its capacity says. -/
def fixedCells (memory : Memory) (capacity : Int) : Except CapacityFault (Array Cell) :=
  if !isIndex capacity then .error .notIndex
  else if capacity < 0 then .error .negative
  else if memory.refusesTape capacity.toNat then .error (.noMemory capacity.toNat)
  else .ok (Array.replicate capacity.toNat 0)

/-- There is a fixed tape of a capacity: it is an index, and memory does not refuse the tape. -/
def Memory.HasTape (memory : Memory) (capacity : Nat) : Prop :=
  (capacity : Int) ≤ largestIndex ∧ memory.refusesTape capacity = false

instance (memory : Memory) (capacity : Nat) : Decidable (memory.HasTape capacity) :=
  inferInstanceAs (Decidable (_ ∧ _))

/-- There is a tape of a capacity, with zero cells, or there is none and it is said why. -/
theorem fixedCells_cases (memory : Memory) (capacity : Nat) :
    (memory.HasTape capacity ∧ fixedCells memory capacity = .ok (Array.replicate capacity 0)) ∨
    (¬ memory.HasTape capacity ∧ ∃ e, fixedCells memory capacity = .error e) := by
  have hlow : ¬ (capacity : Int) < 0 := by omega
  by_cases hindex : (capacity : Int) ≤ largestIndex
  · have hi : isIndex capacity = true := by
      simp only [isIndex, Bool.and_eq_true, decide_eq_true_eq]
      unfold largestIndex at *
      omega
    cases hrefused : memory.refusesTape capacity with
    | false => exact .inl ⟨⟨hindex, hrefused⟩, by simp [fixedCells, hi, hlow, hrefused]⟩
    | true =>
      refine .inr ⟨fun h => ?_, .noMemory capacity, by simp [fixedCells, hi, hlow, hrefused]⟩
      exact Bool.false_ne_true (h.2.symm.trans hrefused)
  · have hi : isIndex capacity = false := by simp [isIndex, hindex]
    exact .inr ⟨fun h => hindex h.1, .notIndex, by simp [fixedCells, hi]⟩

end TapeLang
