import TapeLang.Proofs.MachineSteps

/-! Slates: the first cells of a tape, as integers that are stored modulo 256. What a block does to
a slate it does to every machine whose tape starts with the slate and goes on with zero cells, so a
fact about a block is stated once for tapes of every capacity, and blocks are put together piece by
piece. -/

namespace TapeLang

theorem Cell.wrap_eq_zero_iff {v : Int} : wrap v = 0 ↔ v % 256 = 0 := by
  rw [← UInt8.toNat_inj, toNat_wrap, UInt8.toNat_zero]
  omega

theorem Cell.wrap_add_one (v : Int) : wrap (v + 1) = wrap v + 1 := by
  rw [← increment_value, increment, ← UInt8.toNat_inj, toNat_wrap, toNat_wrap, value_wrap]
  omega

theorem Cell.wrap_sub_one (v : Int) : wrap (v - 1) = wrap v - 1 := by
  rw [← decrement_value, decrement, ← UInt8.toNat_inj, toNat_wrap, toNat_wrap, value_wrap]
  omega

/-! ### Blocks in pieces -/

def Prim.ofChar? (c : Char) : Option Prim :=
  match Symbol.ofChar? c with
  | some (.prim p) => some p
  | _ => none

@[simp] theorem Prim.ofChar?_prims :
    ofChar? '+' = some .increment ∧ ofChar? '-' = some .decrement ∧ ofChar? '>' = some .right ∧
      ofChar? '<' = some .left ∧ ofChar? '.' = some .output ∧ ofChar? ',' = some .input :=
  ⟨rfl, rfl, rfl, rfl, rfl, rfl⟩

namespace Block

variable {α : Type}

/-- One block after another. -/
def append : Block α → Block α → Block α
  | .nil, c => c
  | .cons a rest, c => .cons a (rest.append c)
  | .loop body rest, c => .loop body (rest.append c)

instance : Append (Block α) := ⟨append⟩

/-- Instructions in a row. -/
def ofList : List α → Block α
  | [] => .nil
  | a :: rest => .cons a (ofList rest)

/-- The primitives of a text in a row. -/
def prims (text : String) : Block Prim := ofList (text.toList.filterMap Prim.ofChar?)

/-- A loop that stands alone. -/
def again (body : Block α) : Block α := .loop body .nil

theorem cons_append (a : α) (b c : Block α) : .cons a b ++ c = .cons a (b ++ c) := rfl

theorem loop_append (body b c : Block α) : .loop body b ++ c = .loop body (b ++ c) := rfl

theorem append_assoc (a b c : Block α) : a ++ b ++ c = a ++ (b ++ c) := by
  induction a with
  | nil => rfl
  | cons o rest ih => rw [cons_append, cons_append, cons_append, ih]
  | loop body rest _ ih => rw [loop_append, loop_append, loop_append, ih]

theorem append_nil (b : Block α) : b ++ .nil = b := by
  induction b with
  | nil => rfl
  | cons o rest ih => rw [cons_append, ih]
  | loop body rest _ ih => rw [loop_append, ih]

end Block

/-! ### Slates -/

/-- The first cells of a tape with the pointer on them, and the channels of the program. -/
structure Slate where
  cells : List Int
  pointer : Nat
  reader : Reader
  writer : Writer

namespace Slate

variable {s t u : Slate} {p : Prim} {v : Int}

/-- The machine of a capacity whose tape starts with the slate. -/
def machine (C : Nat) (s : Slate) : Machine where
  cells := (s.cells.map Cell.wrap ++ List.replicate (C - s.cells.length) 0).toArray
  pointer := s.pointer
  reader := s.reader
  writer := s.writer

/-- The integer under the pointer. -/
@[simp] def cell? (s : Slate) : Option Int := s.cells[s.pointer]?

@[simp] def put (s : Slate) (v : Int) : Slate := { s with cells := s.cells.set s.pointer v }

/-- What a primitive does to a slate that it does not leave. -/
@[simp] def act? (s : Slate) (p : Prim) : Option Slate :=
  match s.cell? with
  | none => none
  | some v =>
    match p with
    | .increment => some (s.put (v + 1))
    | .decrement => some (s.put (v - 1))
    | .right =>
      if s.pointer + 1 < s.cells.length then some { s with pointer := s.pointer + 1 } else none
    | .left => if 0 < s.pointer then some { s with pointer := s.pointer - 1 } else none
    | .output => some { s with writer := s.writer.write (Cell.wrap v) }
    | .input => some { s.put (Cell.value s.reader.read.1) with reader := s.reader.read.2 }

/-- What primitives in a row do to a slate that they do not leave. -/
@[simp] def actAll? (s : Slate) (ps : List Prim) : Option Slate := ps.foldlM act? s

variable {C : Nat}

theorem pointer_lt_of_cell? (h : s.cell? = some v) : s.pointer < s.cells.length :=
  (List.getElem?_eq_some_iff.mp h).1

theorem safe_machine (h : s.pointer < s.cells.length) : (s.machine C).Safe := by
  refine ⟨Int.natCast_nonneg _, ?_⟩
  simp only [machine, Machine.capacity, List.size_toArray, List.length_append, List.length_map,
    List.length_replicate]
  omega

theorem cell_machine (h : s.cell? = some v) : (s.machine C).cell = Cell.wrap v := by
  have hlt := pointer_lt_of_cell? h
  have hget : (s.cells.map Cell.wrap)[s.pointer]? = some (Cell.wrap v) := by
    rw [List.getElem?_map]
    exact congrArg (Option.map Cell.wrap) h
  simp only [Machine.cell, machine, Int.toNat_natCast, Array.getD_eq_getD_getElem?,
    List.getElem?_toArray]
  rw [List.getElem?_append_left (by rwa [List.length_map]), hget, Option.getD_some]

theorem machine_put (h : s.pointer < s.cells.length) (v : Int) :
    (s.put v).machine C = (s.machine C).setCell (Cell.wrap v) := by
  simp only [machine, put, Machine.setCell, Int.toNat_natCast, List.setIfInBounds_toArray,
    List.map_set, List.length_set]
  rw [List.set_append_left _ _ (by rwa [List.length_map])]

/-- A primitive does to the machine of a slate what it does to the slate. -/
theorem machine_act? (h : s.act? p = some t) :
    (s.machine C).Safe ∧ (s.machine C).act p = t.machine C ∧ (t.machine C).Safe := by
  unfold act? at h
  split at h
  · contradiction
  · rename_i v hv
    have hlt := pointer_lt_of_cell? hv
    have hput (v : Int) : (s.put v).pointer < (s.put v).cells.length := by
      rwa [put, List.length_set]
    refine ⟨safe_machine hlt, ?_⟩
    cases p with
    | increment =>
      cases h
      exact ⟨by rw [machine_put hlt, Cell.wrap_add_one, Machine.act, cell_machine hv],
        safe_machine (hput _)⟩
    | decrement =>
      cases h
      exact ⟨by rw [machine_put hlt, Cell.wrap_sub_one, Machine.act, cell_machine hv],
        safe_machine (hput _)⟩
    | right =>
      obtain ⟨hin, h⟩ := Option.ite_none_right_eq_some.mp h
      cases h
      exact ⟨rfl, safe_machine hin⟩
    | left =>
      obtain ⟨hpos, h⟩ := Option.ite_none_right_eq_some.mp h
      cases h
      have hdown : ((s.pointer - 1 : Nat) : Int) = s.pointer - 1 := by omega
      refine ⟨?_, safe_machine (show s.pointer - 1 < s.cells.length by omega)⟩
      simp only [machine, Machine.act, hdown]
    | output =>
      cases h
      exact ⟨by rw [Machine.act, cell_machine hv]; rfl, safe_machine hlt⟩
    | input =>
      cases h
      refine ⟨?_, safe_machine (hput _)⟩
      have hread := machine_put (C := C) hlt (Cell.value s.reader.read.1)
      rw [Cell.wrap_value] at hread
      rw [Machine.act, show (s.machine C).reader = s.reader from rfl, ← hread]
      rfl

theorem cells_machine_of_zeros (h : ∀ v ∈ s.cells, v % 256 = 0) (hC : s.cells.length ≤ C) :
    (s.machine C).cells = Array.replicate C 0 := by
  have hmap : s.cells.map Cell.wrap = List.replicate s.cells.length 0 := by
    rw [List.eq_replicate_iff, List.length_map, List.forall_mem_map]
    exact ⟨rfl, fun v hv => Cell.wrap_eq_zero_iff.mpr (h v hv)⟩
  rw [machine, hmap, List.replicate_append_replicate, Nat.add_sub_cancel' hC,
    List.toArray_replicate]

/-! ### What a block does -/

/-- A block takes a slate to another one, whatever the capacity and whatever is still to be carried
out behind it. -/
def Turns (b : Block Prim) (s t : Slate) : Prop :=
  ∀ C c rest, ∃ k, Machine.engine.after k ⟨s.machine C, (b ++ c) :: rest⟩ =
    .next ⟨t.machine C, c :: rest⟩

namespace Turns

variable {a b body : Block Prim} {ps : List Prim}

theorem refl (s : Slate) : Turns .nil s s := fun _ _ _ => ⟨0, rfl⟩

theorem trans (h : Turns a s t) (h' : Turns b t u) : Turns (a ++ b) s u := by
  intro C c rest
  obtain ⟨j, hj⟩ := h C (b ++ c) rest
  obtain ⟨k, hk⟩ := h' C c rest
  rw [Block.append_assoc]
  exact ⟨j + k, (Engine.after_add_next hj).trans hk⟩

instance : Trans (Turns a) (Turns b) (Turns (a ++ b)) := ⟨trans⟩

theorem of_act? (h : s.act? p = some t) : Turns (.cons p .nil) s t := by
  intro C c rest
  obtain ⟨hs, hact, ht⟩ := machine_act? (C := C) h
  refine ⟨1, Engine.after_one.trans ?_⟩
  rw [← hact] at ht ⊢
  exact Machine.step_next hs ht

theorem ofList (h : s.actAll? ps = some t) : Turns (.ofList ps) s t := by
  induction ps generalizing s with
  | nil =>
    cases h
    exact refl _
  | cons p rest ih =>
    rw [actAll?, List.foldlM_cons] at h
    obtain ⟨u, hu, hrest⟩ := Option.bind_eq_some_iff.mp h
    exact (of_act? hu).trans (ih hrest)

theorem prims {text : String} (h : s.actAll? (text.toList.filterMap Prim.ofChar?) = some t) :
    Turns (.prims text) s t :=
  ofList h

/-- A loop is passed over when its cell is zero. -/
theorem pass (h : s.cell? = some v) (hv : v % 256 = 0) : Turns (.again body) s s := by
  intro C c rest
  have hzero : (s.machine C).cell = 0 := by rw [cell_machine h, Cell.wrap_eq_zero_iff.mpr hv]
  exact ⟨1, Engine.after_one.trans
    (Machine.step_pass (safe_machine (pointer_lt_of_cell? h)) hzero)⟩

/-- A loop whose cell is not zero carries out its body and then is met again. -/
theorem round (h : s.cell? = some v) (hv : v % 256 ≠ 0) (hbody : Turns body s t)
    (hrest : Turns (.again body) t u) : Turns (.again body) s u := by
  intro C c rest
  have hzero : (s.machine C).cell ≠ 0 := by
    rw [cell_machine h]
    exact fun hw => hv (Cell.wrap_eq_zero_iff.mp hw)
  obtain ⟨j, hj⟩ := hbody C .nil (.loop body c :: rest)
  obtain ⟨k, hk⟩ := hrest C c rest
  rw [Block.append_nil] at hj
  have henter : Machine.engine.step ⟨s.machine C, .loop body c :: rest⟩ =
      .next ⟨s.machine C, body :: .loop body c :: rest⟩ :=
    Machine.step_again (safe_machine (pointer_lt_of_cell? h)) hzero
  refine ⟨j + (k + 1) + 1, (Engine.after_succ_next henter).trans ?_⟩
  rw [Engine.after_add_next hj, Engine.after_succ_next Machine.step_nil]
  exact hk

theorem once {w : Int} (h : s.cell? = some v) (hv : v % 256 ≠ 0) (hbody : Turns body s t)
    (ht : t.cell? = some w) (hw : w % 256 = 0) : Turns (.again body) s t :=
  round h hv hbody (pass ht hw)

/-- A loop that goes through the slates `f 0`, `f 1`, … while its cell counts down from `n`. -/
theorem counted {f : Nat → Slate} {n : Nat} (hn : n < 256)
    (hcell : ∀ i ≤ n, (f i).cell? = some (n - i : Int))
    (hbody : ∀ i < n, Turns body (f i) (f (i + 1))) : Turns (.again body) (f 0) (f n) := by
  have hfrom : ∀ d i, i + d = n → Turns (.again body) (f i) (f n) := by
    intro d
    induction d with
    | zero =>
      rintro i rfl
      exact pass (hcell i (Nat.le_refl i)) (by omega)
    | succ d ih =>
      intro i hi
      exact round (hcell i (by omega)) (by omega) (hbody i (by omega)) (ih (i + 1) (by omega))
  exact hfrom n 0 (Nat.zero_add n)

/-- A loop that takes one from its cell and adds `d` to another one, until the first is zero. -/
theorem drain {g : Int → Int → Slate} {d : Int} (hcell : ∀ c a, (g c a).cell? = some c)
    (hbody : ∀ c a, Turns body (g c a) (g (c - 1) (a + d))) {c : Int} (h0 : 0 ≤ c) (hc : c < 256)
    (a : Int) : Turns (.again body) (g c a) (g 0 (a + d * c)) := by
  obtain ⟨n, rfl⟩ := Int.eq_ofNat_of_zero_le h0
  have h := counted (f := fun i => g (n - i) (a + d * i)) (n := n) (by omega)
    (fun i _ => hcell _ _) fun i _ => by
      have hround := hbody (n - i) (a + d * i)
      have hsub : (n : Int) - i - 1 = n - (i + 1 : Nat) := by omega
      have hadd : a + d * i + d = a + d * (i + 1 : Nat) := by
        rw [Int.natCast_add, Int.natCast_one, Int.mul_add, Int.mul_one, Int.add_assoc]
      rwa [hsub, hadd] at hround
  simpa using h

theorem clear (h : s.cell? = some v) (h0 : 0 ≤ v) (hv : v < 256) :
    Turns (.again (.prims "-")) s (s.put 0) := by
  have hlt := pointer_lt_of_cell? h
  have hself : s.put v = s := by
    obtain ⟨hlt, rfl⟩ := List.getElem?_eq_some_iff.mp h
    rw [put, List.set_getElem_self]
  have hdrain : Turns (.again (.prims "-")) (s.put v) (s.put 0) :=
    drain (g := fun c _ => s.put c) (d := 0) (fun c _ => by simp [hlt])
      (fun c _ => .prims (by simp [hlt])) h0 hv 0
  rwa [hself] at hdrain

/-- A loop whose cell is one more than the byte read last, and whose body writes something for that
byte and reads the next one. It goes on until it meets 255, which is also what it reads at the end
of the input. -/
theorem stream {g : Int → Reader → Writer → Slate} {f : UInt8 → UInt8}
    (hcell : ∀ v r w, (g v r w).cell? = some v)
    (hbody : ∀ b r w, Turns body (g (Cell.value b + 1) r w)
      (g (Cell.value r.read.1 + 1) r.read.2 (w.write (f b)))) (x : List UInt8) (w : Writer) :
    ∃ r, Turns (.again body)
      (g (Cell.value (Reader.ofBytes x).read.1 + 1) (Reader.ofBytes x).read.2 w)
      (g 256 r (((x.takeWhile (· ≠ 255)).map f).foldl Writer.write w)) := by
  have hstop : (Cell.value 255 + 1) % 256 = 0 := by decide
  induction x generalizing w with
  | nil => exact ⟨_, pass (hcell _ _ _) hstop⟩
  | cons b x ih =>
    by_cases hb : b = 255
    · subst hb
      exact ⟨_, pass (hcell _ _ _) hstop⟩
    · obtain ⟨r, hr⟩ := ih (w.write (f b))
      have hnonzero : (Cell.value b + 1) % 256 ≠ 0 := by
        have hlt := b.toNat_lt
        have hne : b.toNat ≠ 255 := fun h => hb (UInt8.toNat_inj.mp h)
        unfold Cell.value
        omega
      rw [List.takeWhile_cons_of_pos (by simpa using hb), List.map_cons, List.foldl_cons]
      exact ⟨r, round (hcell _ _ _) hnonzero (hbody b _ w) hr⟩

/-- A program that takes a slate of zeros to another slate completes with it, on every tape that is
no shorter than the slate. -/
theorem completes (program : Program) {C : Nat} (h : Turns (program.block.map Op.prim) s t)
    (hs : ∀ v ∈ s.cells, v % 256 = 0) (hpointer : s.pointer = 0) (hC : s.cells.length ≤ C) :
    Prepared.EndsWith ⟨program, C⟩ s.reader s.writer
      (Machine.finish ⟨t.machine C, .completed⟩) := by
  have hstart : s.machine C = Machine.start C s.reader s.writer := by
    have hcells := cells_machine_of_zeros hs hC
    simp only [machine, hpointer] at hcells ⊢
    rw [hcells]
    rfl
  obtain ⟨k, hk⟩ := h C .nil []
  rw [Block.append_nil, hstart] at hk
  refine Prepared.endsWith_iff_after.mpr ⟨k + 2, _, ?_, rfl⟩
  exact (Engine.after_add_next hk).trans (Engine.after_succ_next Machine.step_nil)

end Turns

end Slate

end TapeLang
