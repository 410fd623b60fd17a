import TapeLang.Proofs.Flushing

/-! How the walk of a body returns, whatever state it finds: any text, any position, any cells, and
a pointer on the tape, beyond it or below it. A cell is looked at only after the pointer was found
not to be below the first one, and nothing moves it in between, so that no walk fails for that. -/

namespace TapeLang

namespace Walk

variable {memory : Memory} {w w' : Walk} {skip again : Bool} {frames : List Frame}
  {room limit k n : Nat} {c : Config}

/-! ### Primitives -/

/-- A primitive has changed nothing but what it acts on, the tape is no shorter, and if it failed,
then for lack of memory. -/
structure Tame (w : Walk) (e : Walk × Option Tape.Fault) : Prop where
  code : e.1.code = w.code
  depth : e.1.depth = w.depth
  maxDepth : e.1.maxDepth = w.maxDepth
  size : w.tape.cells.size ≤ e.1.tape.cells.size
  fault : ∀ b, e.2 ≠ some (.belowStart b)

theorem tame_update (hh : w.world.halted = false) (f : Cell → Cell) :
    Tame w (w.update memory f) := by
  simp only [update, if_neg (not_neg_of_not_halted hh)]
  split
  · exact ⟨rfl, rfl, rfl, Nat.le_refl _, fun b => by simp⟩
  · refine ⟨rfl, rfl, rfl, ?_, fun b => by simp⟩
    rw [Tape.size_put]
    exact Nat.le_max_left _ _

theorem tame_move (w : Walk) (delta : Int) : Tame w (w.move memory delta) := by
  simp only [move, Tape.tryMove]
  split
  · exact ⟨rfl, rfl, rfl, Nat.le_refl _, fun b => by simp⟩
  · refine ⟨rfl, rfl, rfl, ?_, fun b => by simp⟩
    rw [Tape.size_move]
    split <;> omega

theorem tame_perform (hh : w.world.halted = false) (p : Prim) :
    Tame w (w.perform memory p) := by
  cases p with
  | increment => exact tame_update hh (· + 1)
  | decrement => exact tame_update hh (· - 1)
  | right => exact tame_move w 1
  | left => exact tame_move w (-1)
  | output =>
    simp only [perform, current_of_not_halted hh]
    exact ⟨rfl, rfl, rfl, Nat.le_refl _, fun b => by simp⟩
  | input =>
    have h : Tame { w with reader := w.reader.read.2 } (w.perform memory .input) :=
      tame_update (w := { w with reader := w.reader.read.2 }) hh fun _ => w.reader.read.1
    exact ⟨h.code, h.depth, h.maxDepth, h.size, h.fault⟩

/-! ### The invariant of a body -/

/-- The walk stands at a closing bracket, with its pointer on the tape or beyond it, and the body is
to be walked again if the cell there is not zero. -/
def AtClosing (w : Walk) (again : Bool) : Prop :=
  0 ≤ w.tape.pointer ∧ (∃ h : w.position < w.code.size, w.code[w.position] = ']') ∧
    ∃ v, w.tape.current = .ok v ∧ again = (v != 0)

/-- The pointer is below the first cell or the text is at its end, and the body is not walked
again. -/
def AtEnd (w : Walk) (again : Bool) : Prop :=
  (w.tape.pointer < 0 ∨ w.code.size ≤ w.position) ∧ again = false

theorem AtClosing.not_atEnd (h : AtClosing w again) : ¬ AtEnd w again := by
  rintro ⟨hpointer | hsize, -⟩
  · exact absurd h.1 (Int.not_le.mpr hpointer)
  · obtain ⟨hlt, -⟩ := h.2.1
    omega

theorem atClosing (hh : w.world.halted = false) (hc : w.code[w.position]? = some ']') :
    AtClosing w (w.world.cell != 0) := by
  obtain ⟨hlt, hchar⟩ := Array.getElem?_eq_some_iff.mp hc
  exact ⟨World.not_halted_iff.mp hh, ⟨hlt, hchar⟩, _, current_of_not_halted hh, rfl⟩

theorem Stuck.atEnd (h : w.Stuck) : AtEnd w false :=
  ⟨h.imp_left World.halted_iff.mp, rfl⟩

/-- What a walk never takes back. -/
structure Grows (w w' : Walk) : Prop where
  code : w'.code = w.code
  maxDepth : w.maxDepth ≤ w'.maxDepth
  size : w.tape.cells.size ≤ w'.tape.cells.size

/-- The walk of a body that was begun at `w` with room for `limit` loops: it is in so many more
loops than then as it has frames, and it ends outside of them, with a result or with a fault that is
no access below the tape. -/
def Within (w : Walk) (limit : Nat) : Step Config Outcome → Prop
  | .next c => Grows w c.walk ∧ c.walk.depth = w.depth + c.frames.length ∧
      c.room + c.frames.length = limit
  | .done ⟨w', .ok again⟩ =>
    Grows w w' ∧ w'.depth = w.depth ∧ (AtClosing w' again ∨ AtEnd w' again)
  | .done ⟨_, .error e⟩ => ∀ b, e ≠ .tape (.belowStart b)

namespace Within

theorem start (w : Walk) (skip : Bool) (room : Nat) :
    Within w room (.next ⟨w, skip, [], room⟩) :=
  ⟨⟨rfl, Nat.le_refl _, Nat.le_refl _⟩, rfl, rfl⟩

theorem performed {e : Walk × Option Tape.Fault}
    (h : Within w limit (.next ⟨w', skip, frames, room⟩)) (he : Tame w' e) :
    Within w limit (Config.performed frames room e) := by
  obtain ⟨hgrows, hdepth, hroom⟩ := h
  obtain ⟨w₁, _ | fault⟩ := e
  · have hmax : w.maxDepth ≤ w₁.maxDepth :=
      Nat.le_trans hgrows.maxDepth (Nat.le_of_eq he.maxDepth.symm)
    exact ⟨⟨he.code.trans hgrows.code, hmax, Nat.le_trans hgrows.size he.size⟩,
      he.depth.trans hdepth, hroom⟩
  · rintro b ⟨⟩
    exact he.fault b rfl

theorem entered (h : Within w limit (.next ⟨w', skip, frames, room + 1⟩)) (skip' : Bool) :
    Within w limit (.next ⟨w'.entered, skip', ⟨w'.position + 1, skip⟩ :: frames, room⟩) := by
  obtain ⟨hgrows, hdepth, hroom⟩ := h
  have hmax : w.maxDepth ≤ w'.entered.maxDepth :=
    Nat.le_trans hgrows.maxDepth (Nat.le_max_left _ _)
  refine ⟨⟨hgrows.code, hmax, hgrows.size⟩, congrArg (· + 1) hdepth, ?_⟩
  simp only [List.length_cons] at hroom ⊢
  omega

/-- A body that is not walked again is left for the one around it, and the outermost returns. -/
theorem left (h : Within w limit (.next ⟨w', skip, frames, room⟩))
    (hend : AtClosing w' false ∨ AtEnd w' false) :
    Within w limit (Config.leave false w' frames room) := by
  obtain ⟨hgrows, hdepth, hroom⟩ := h
  cases frames with
  | nil => exact ⟨hgrows, hdepth, hend⟩
  | cons frame frames =>
    simp only [List.length_cons] at hdepth hroom
    refine ⟨⟨hgrows.code, hgrows.maxDepth, hgrows.size⟩, ?_, ?_⟩
    · show w'.depth - 1 = w.depth + frames.length
      omega
    · show room + 1 + frames.length = limit
      omega

theorem closing (h : Within w limit (.next ⟨w', skip, frames, room⟩))
    (hh : w'.world.halted = false) (hc : w'.code[w'.position]? = some ']') :
    Within w limit (Config.leave (w'.world.cell != 0) w' frames room) := by
  have hend := atClosing hh hc
  by_cases hz : w'.world.cell = 0
  · have hagain : (w'.world.cell != 0) = false := by simp [hz]
    rw [hagain] at hend ⊢
    exact h.left (.inl hend)
  · have hagain : (w'.world.cell != 0) = true := by simp [hz]
    rw [hagain] at hend ⊢
    obtain ⟨hgrows, hdepth, hroom⟩ := h
    cases frames with
    | nil => exact ⟨hgrows, hdepth, .inl hend⟩
    | cons frame frames =>
      rw [leave_again hh hz]
      exact ⟨⟨hgrows.code, hgrows.maxDepth, hgrows.size⟩, hdepth, hroom⟩

theorem stepped {o : Step Config Outcome} (h : Within w limit (.next c))
    (ho : Stepped memory c o) : Within w limit o := by
  cases ho with
  | stuck hstuck => exact h.left (.inr hstuck.atEnd)
  | inert hh hc hs => exact ⟨⟨h.1.code, h.1.maxDepth, h.1.size⟩, h.2⟩
  | skipped hh hc => exact ⟨⟨h.1.code, h.1.maxDepth, h.1.size⟩, h.2⟩
  | performed hh hc => exact h.performed (tame_perform hh _)
  | entered hh hc => exact h.entered _
  | full hh hc =>
    rintro b ⟨⟩
  | closing hh hc => exact h.closing hh hc

theorem after (h : Within w limit (.next c)) (memory : Memory) (n : Nat) :
    Within w limit ((engine memory).after n c) :=
  Engine.after_of_step (fun h => h.stepped (Walk.stepped _ _)) h n

end Within

/-! ### Bodies inside loops -/

/-- The same walk inside more loops. -/
def Config.onto (base : List Frame) (c : Config) : Config := { c with frames := c.frames ++ base }

/-- How a walk goes on when a body inside the loops `base` has ended. -/
def Config.returned (base : List Frame) (room : Nat) : Outcome → Step Config Outcome
  | ⟨w, .ok again⟩ => leave again w base room
  | ⟨w, .error e⟩ => .done ⟨w, .error e⟩

/-- A moment of the walk of a body, seen from inside the loops `base`. -/
def onto (base : List Frame) (room : Nat) : Step Config Outcome → Step Config Outcome
  | .next c => .next (c.onto base)
  | .done o => Config.returned base room o

theorem leave_onto (again : Bool) (w : Walk) (frames base : List Frame) (room : Nat) :
    Config.leave again w (frames ++ base) room =
      onto base (room + frames.length) (Config.leave again w frames room) := by
  cases frames with
  | nil => rfl
  | cons frame frames =>
    cases again with
    | false => rfl
    | true =>
      show Config.enter (w.seek frame.bodyStart) (frame :: (frames ++ base)) room =
        onto base _ (Config.enter (w.seek frame.bodyStart) (frame :: frames) room)
      unfold Config.enter
      cases (w.seek frame.bodyStart).tape.current <;> rfl

/-- A step does not look at the loops around the body until the body has ended. -/
theorem Stepped.onto {o : Step Config Outcome} (h : Stepped memory c o) (base : List Frame) :
    Stepped memory (c.onto base) (Walk.onto base (c.room + c.frames.length) o) := by
  cases h with
  | stuck hstuck =>
    rw [← leave_onto]
    exact .stuck hstuck
  | inert hh hc hs => exact .inert hh hc hs
  | skipped hh hc => exact .skipped hh hc
  | @performed w frames room p hh hc =>
    have hstep : Stepped memory ⟨w, false, frames ++ base, room⟩ _ := .performed hh hc
    revert hstep
    generalize w.perform memory p = e
    obtain ⟨w', _ | fault⟩ := e <;> exact id
  | entered hh hc => exact .entered hh hc
  | full hh hc => exact .full hh hc
  | closing hh hc =>
    rw [← leave_onto]
    exact .closing hh hc

theorem Within.after_onto {o : Outcome} (h : Within w limit (.next c))
    (hk : (engine memory).after k c = .done o) (base : List Frame) :
    ∃ j, (engine memory).after j (c.onto base) = Config.returned base limit o := by
  induction k generalizing c with
  | zero => contradiction
  | succ k ih =>
    have hnext := h.stepped (Walk.stepped memory c)
    have hstep := ((Walk.stepped memory c).onto base).eq
    rw [h.2.2] at hstep
    cases hs : (engine memory).step c with
    | next c' =>
      rw [hs] at hnext hstep
      rw [Engine.after_succ_next hs] at hk
      obtain ⟨j, hj⟩ := ih hnext hk
      exact ⟨j + 1, (Engine.after_succ_next hstep).trans hj⟩
    | done o' =>
      rw [hs] at hstep
      rw [Engine.after_succ_done hs] at hk
      cases hk
      exact ⟨1, Engine.after_one.trans hstep⟩

/-! ### Bodies from any state -/

theorem body_eq_some_iff {o : Outcome} :
    w.body memory room n skip = some o ↔ (engine memory).after n ⟨w, skip, [], room⟩ = .done o :=
  (engine memory).runFor_eq_some_iff

theorem output_isPrefix_of_after {o : Outcome} (h : (engine memory).after n c = .done o) :
    c.walk.writer.output.toList <+: o.walk.writer.output.toList := by
  have hwriter :=
    Engine.look_after_eq_foldl (E := engine memory) (f := World.writer) writer_step n c
  rw [h] at hwriter
  rw [show o.walk.writer = _ from hwriter, Writer.output_foldl_write, Array.toList_append]
  exact List.prefix_append _ _

/-- The walk of a body is safe from any state: it never fails by looking at a cell below the first
one. When it returns, it stands at a closing bracket, below the tape or behind the text, as deep as
it was; and inside loops it goes as it goes alone, up to what it returns to them. -/
theorem body_safe_from_any_state (memory : Memory) (w : Walk) (skip : Bool) (room : Nat) :
    (∀ fuel w' result, w.body memory room fuel skip = some ⟨w', result⟩ →
      (∀ b, result ≠ .error (.tape (.belowStart b))) ∧
      ∀ again, result = .ok again →
        w'.code = w.code ∧ w'.depth = w.depth ∧ w.maxDepth ≤ w'.maxDepth ∧
        w.tape.cells.size ≤ w'.tape.cells.size ∧
        w.writer.output.toList <+: w'.writer.output.toList ∧
        (AtClosing w' again ∨ AtEnd w' again) ∧ ¬ (AtClosing w' again ∧ AtEnd w' again)) ∧
    (∀ n c w' frames room', (engine memory).after n ⟨w, skip, [], room⟩ = .next c →
      (engine memory).step c = Config.enter w' frames room' → 0 ≤ w'.tape.pointer) ∧
    (∀ fuel o frames, w.body memory room fuel skip = some o →
      ∃ k, (engine memory).after k ⟨w, skip, frames, room⟩ = Config.returned frames room o) := by
  have hstart := Within.start w skip room
  refine ⟨fun fuel w' result hbody => ?_, fun n c w' frames room' hn hstep => ?_,
    fun fuel o frames hbody => ?_⟩
  · rw [body_eq_some_iff] at hbody
    have hend := hstart.after memory fuel
    rw [hbody] at hend
    cases result with
    | error e =>
      refine ⟨?_, fun again h => by contradiction⟩
      rintro b ⟨⟩
      exact hend b rfl
    | ok again =>
      refine ⟨fun b h => by contradiction, ?_⟩
      rintro _ ⟨⟩
      obtain ⟨hgrows, hdepth, hplace⟩ := hend
      exact ⟨hgrows.code, hdepth, hgrows.maxDepth, hgrows.size, output_isPrefix_of_after hbody,
        hplace, fun h => h.1.not_atEnd h.2⟩
  · -- A body entered below the tape would fail there.
    apply Int.not_lt.mp
    intro hneg
    have hcurrent : w'.tape.current = .error ⟨w'.tape.pointer⟩ := if_pos hneg
    have hwithin := hstart.after memory n
    rw [hn] at hwithin
    have hfault := hwithin.stepped (stepped memory c)
    rw [hstep, Config.enter, hcurrent] at hfault
    exact hfault _ rfl
  · exact hstart.after_onto (body_eq_some_iff.mp hbody) frames

/-- A loop inside a body that is skipped is not skipped itself when its cell is not zero, and here
it leads below the tape. -/
theorem body_safe_from_any_state_below :
    ∃ w w' : Walk, w = ⟨"[<]".toList.toArray, 0, 7, 9, ⟨#[1], 0⟩, {}, {}, []⟩ ∧
      w.body (.below 2) 1 9 true = some ⟨w', .ok false⟩ ∧ w'.tape.pointer = -1 ∧
      w'.depth = w.depth ∧ ¬ AtClosing w' false ∧ AtEnd w' false ∧
      (engine (.below 2)).step ⟨w, true, [], 1⟩ =
        Config.enter w.entered [⟨1, true⟩] 0 ∧
      0 ≤ w.entered.tape.pointer ∧
      ∃ k, (engine (.below 2)).after k ⟨w, true, [⟨0, false⟩], 1⟩ =
        Config.leave false w' [⟨0, false⟩] 1 := by
  have hbody : (⟨"[<]".toList.toArray, 0, 7, 9, ⟨#[1], 0⟩, {}, {}, []⟩ : Walk).body
      (.below 2) 1 9 true =
        some ⟨⟨"[<]".toList.toArray, 3, 7, 9, ⟨#[1], -1⟩, {}, {}, [.belowStart]⟩, .ok false⟩ := rfl
  obtain ⟨hreturns, hguard, hnested⟩ := body_safe_from_any_state (.below 2)
    ⟨"[<]".toList.toArray, 0, 7, 9, ⟨#[1], 0⟩, {}, {}, []⟩ true 1
  obtain ⟨-, hok⟩ := hreturns _ _ _ hbody
  obtain ⟨-, hdepth, -, -, -, hplace, -⟩ := hok _ rfl
  have hnot : ¬ AtClosing ⟨"[<]".toList.toArray, 3, 7, 9, ⟨#[1], -1⟩, {}, {}, [.belowStart]⟩
      false := fun h => absurd h.1 (by decide)
  exact ⟨_, _, rfl, hbody, rfl, hdepth, hnot, hplace.resolve_left hnot, rfl,
    hguard 0 _ _ _ _ rfl rfl, hnested _ _ _ hbody⟩

end Walk

end TapeLang
