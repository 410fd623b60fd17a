import TapeLang.Walk
import TapeLang.Proofs.Spelling
import TapeLang.Proofs.World

/-! The steps of a walk, one lemma for each thing a step can do, and the two stretches in which a
walk does nothing to its world: inert characters, and a body that is skipped. `Stepped` lists what a
step can do, so that what every step keeps is proved by its cases. -/

namespace TapeLang

namespace Walk

/-- What a walk acts on. -/
def world (w : Walk) : World := ⟨w.tape, w.reader, w.writer⟩

def Config.acts (c : Config) : Bool :=
  match c.walk.code[c.walk.position]?.bind Symbol.ofChar? with
  | some (.prim _) => !c.skip && !c.walk.world.halted
  | _ => false

def engine (memory : Memory) : Engine Config Outcome World where
  step := Config.step memory
  acts := Config.acts
  view c := c.walk.world
  viewEnd o := o.walk.world

/-- A walk after a primitive: its world has changed, and a halt was noted. -/
def act (w : Walk) (p : Prim) : Walk :=
  let s := w.world.perform p
  { w with
    tape := s.tape
    reader := s.reader
    writer := s.writer
    log := w.log ++ if s.halted then [.belowStart] else [] }

/-- A walk behind an opening bracket. -/
def entered (w : Walk) : Walk :=
  { w with
    position := w.position + 1
    depth := w.depth + 1
    maxDepth := max w.maxDepth (w.depth + 1) }

@[simp] theorem tape_world (w : Walk) : w.world.tape = w.tape := rfl

variable {memory : Memory} {w : Walk} {skip : Bool} {frames : List Frame} {room : Nat}

theorem not_neg_of_not_halted (h : w.world.halted = false) : ¬ w.tape.pointer < 0 :=
  Int.not_lt.mpr (World.not_halted_iff.mp h)

theorem current_of_not_halted (h : w.world.halted = false) :
    w.tape.current = .ok w.world.cell := by
  rw [Tape.current, Tape.read, if_neg (not_neg_of_not_halted h)]
  rfl

/-! ### Primitives -/

theorem update_eq (h : w.world.halted = false) (hs : w.world.Sound) (f : Cell → Cell) :
    w.update memory f = ({ w with tape := (w.world.setCell (f w.world.cell)).tape }, none) := by
  have hg : w.tape.growthFault? memory.refusesCells w.tape.pointer = none :=
    Tape.growthFault?_of_le_size (Int.le_of_lt hs)
  simp only [update, if_neg (not_neg_of_not_halted h), hg]
  rfl

theorem move_eq (hs : w.world.Sound) {delta : Int} (hd : delta ≤ 1) :
    w.move memory delta = ({ w with
      tape := (w.world.move delta).tape
      log := w.log ++ if (w.world.move delta).halted then [.belowStart] else [] }, none) := by
  have hg : w.tape.growthFault? memory.refusesCells (w.tape.pointer + delta) = none := by
    apply Tape.growthFault?_of_le_size
    unfold World.Sound at hs
    rw [tape_world] at hs
    omega
  by_cases ht : w.tape.pointer + delta < 0
  · simp [move, Tape.tryMove, hg, Tape.move, ht, World.move, World.halted, Tape.halted]
  · simp [move, Tape.tryMove, hg, Tape.move, ht, World.move, World.halted, Tape.halted]

/-- A primitive that does not move the pointer notes nothing. -/
theorem act_of_pointer_eq (h : w.world.halted = false) {p : Prim}
    (hp : (w.world.perform p).tape.pointer = w.tape.pointer) :
    w.act p = { w with
      tape := (w.world.perform p).tape
      reader := (w.world.perform p).reader
      writer := (w.world.perform p).writer } := by
  have hh : (w.world.perform p).halted = false := by
    rw [World.not_halted_iff, hp]
    exact World.not_halted_iff.mp h
  simp [act, hh]

/-- On a sound world a primitive does what it does to the world, and does not fail. -/
theorem perform_eq (h : w.world.halted = false) (hs : w.world.Sound) (p : Prim) :
    w.perform memory p = (w.act p, none) := by
  cases p with
  | increment => rw [perform, update_eq h hs, act_of_pointer_eq h rfl]; rfl
  | decrement => rw [perform, update_eq h hs, act_of_pointer_eq h rfl]; rfl
  | right => rw [perform, move_eq hs (by decide)]; rfl
  | left => rw [perform, move_eq hs (by decide)]; rfl
  | output =>
    rw [act_of_pointer_eq h rfl]
    simp only [perform, current_of_not_halted h]
    rfl
  | input =>
    have hread : ({ w with reader := w.reader.read.2 } : Walk).world.halted = false := h
    rw [act_of_pointer_eq h rfl]
    exact update_eq hread hs fun _ => w.reader.read.1

/-! ### Single steps -/

theorem step_halted (h : w.world.halted = true) :
    (engine memory).step ⟨w, skip, frames, room⟩ = Config.leave false w frames room := by
  have hp : w.tape.pointer < 0 := World.halted_iff.mp h
  simp only [engine, Config.step, if_pos hp]

theorem step_end (h : w.world.halted = false) (hc : w.code[w.position]? = none) :
    (engine memory).step ⟨w, skip, frames, room⟩ = Config.leave false w frames room := by
  simp only [engine, Config.step, if_neg (not_neg_of_not_halted h), hc]

theorem step_inert (h : w.world.halted = false) {ch : Char} (hc : w.code[w.position]? = some ch)
    (hch : Symbol.ofChar? ch = none) :
    (engine memory).step ⟨w, skip, frames, room⟩ = .next (Config.advance w skip frames room) := by
  simp only [engine, Config.step, if_neg (not_neg_of_not_halted h), hc, hch]

theorem step_skipped (h : w.world.halted = false) {p : Prim}
    (hc : w.code[w.position]? = some p.toChar) :
    (engine memory).step ⟨w, true, frames, room⟩ = .next (Config.advance w true frames room) := by
  have hp : Symbol.ofChar? p.toChar = some (.prim p) := Symbol.ofChar?_toChar (.prim p)
  simp only [engine, Config.step, if_neg (not_neg_of_not_halted h), hc, hp, if_true]

theorem step_prim (h : w.world.halted = false) (hs : w.world.Sound) {p : Prim}
    (hc : w.code[w.position]? = some p.toChar) :
    (engine memory).step ⟨w, false, frames, room⟩ =
      .next (Config.advance (w.act p) false frames room) := by
  have hp : Symbol.ofChar? p.toChar = some (.prim p) := Symbol.ofChar?_toChar (.prim p)
  simp only [engine, Config.step, if_neg (not_neg_of_not_halted h), hc, hp, perform_eq h hs,
    Bool.false_eq_true, if_false]

theorem step_opening (h : w.world.halted = false)
    (hc : w.code[w.position]? = some Symbol.opening.toChar) :
    (engine memory).step ⟨w, skip, frames, room + 1⟩ =
      .next ⟨w.entered, w.world.cell == 0, ⟨w.position + 1, skip⟩ :: frames, room⟩ := by
  have hcur : w.entered.tape.current = .ok w.world.cell := current_of_not_halted (w := w.entered) h
  simp only [engine, Config.step, if_neg (not_neg_of_not_halted h), hc, Symbol.ofChar?_toChar]
  show Config.enter w.entered (⟨w.position + 1, skip⟩ :: frames) room = _
  rw [Config.enter, hcur]

theorem step_opening_full (h : w.world.halted = false)
    (hc : w.code[w.position]? = some Symbol.opening.toChar) :
    (engine memory).step ⟨w, skip, frames, 0⟩ = .done ⟨w.entered, .error .tooDeep⟩ := by
  simp only [engine, Config.step, if_neg (not_neg_of_not_halted h), hc, Symbol.ofChar?_toChar]
  rfl

theorem step_closing (h : w.world.halted = false)
    (hc : w.code[w.position]? = some Symbol.closing.toChar) :
    (engine memory).step ⟨w, skip, frames, room⟩ =
      Config.leave (w.world.cell != 0) w frames room := by
  simp only [engine, Config.step, if_neg (not_neg_of_not_halted h), hc, Symbol.ofChar?_toChar,
    current_of_not_halted h]

theorem step_closing_zero (h : w.world.halted = false) (hz : w.world.cell = 0)
    (hc : w.code[w.position]? = some Symbol.closing.toChar) (frame : Frame) :
    (engine memory).step ⟨w, skip, frame :: frames, room⟩ =
      .next ⟨{ w with position := w.position + 1, depth := w.depth - 1 }, frame.skip, frames,
        room + 1⟩ := by
  have hb : (w.world.cell != 0) = false := by simp [hz]
  rw [step_closing h hc, hb]
  rfl

/-- A body that is walked again is not skipped then. -/
theorem leave_again (h : w.world.halted = false) (hz : w.world.cell ≠ 0) (frame : Frame) :
    Config.leave true w (frame :: frames) room =
      .next ⟨w.seek frame.bodyStart, false, frame :: frames, room⟩ := by
  have hcur : (w.seek frame.bodyStart).tape.current = .ok w.world.cell :=
    current_of_not_halted (w := w.seek frame.bodyStart) h
  have hskip : (w.world.cell == 0) = false := by simp [hz]
  change Config.enter (w.seek frame.bodyStart) (frame :: frames) room = _
  rw [Config.enter, hcur]
  simp only [hskip]

theorem step_closing_again (h : w.world.halted = false) (hz : w.world.cell ≠ 0)
    (hc : w.code[w.position]? = some Symbol.closing.toChar) (frame : Frame) :
    (engine memory).step ⟨w, skip, frame :: frames, room⟩ =
      .next ⟨w.seek frame.bodyStart, false, frame :: frames, room⟩ := by
  have hb : (w.world.cell != 0) = true := by simp [hz]
  rw [step_closing h hc, hb]
  exact leave_again h hz frame

/-! ### What a step can do -/

/-- No more of the text is read: the walk is halted or at its end. -/
def Stuck (w : Walk) : Prop := w.world.halted = true ∨ w.code.size ≤ w.position

/-- How a walk goes on with what a primitive has come to. -/
def Config.performed (frames : List Frame) (room : Nat) :
    Walk × Option Tape.Fault → Step Config Outcome
  | (w, none) => .next (advance w false frames room)
  | (w, some e) => .done ⟨w, .error (.tape e)⟩

/-- The ways a step can go, each with what holds when it goes so. -/
inductive Stepped (memory : Memory) : Config → Step Config Outcome → Prop
  | stuck {w : Walk} {skip : Bool} {frames : List Frame} {room : Nat} :
      w.Stuck → Stepped memory ⟨w, skip, frames, room⟩ (Config.leave false w frames room)
  | inert {w : Walk} {skip : Bool} {frames : List Frame} {room : Nat} {ch : Char} :
      w.world.halted = false → w.code[w.position]? = some ch → Symbol.ofChar? ch = none →
      Stepped memory ⟨w, skip, frames, room⟩ (.next (Config.advance w skip frames room))
  | skipped {w : Walk} {frames : List Frame} {room : Nat} {p : Prim} :
      w.world.halted = false → w.code[w.position]? = some p.toChar →
      Stepped memory ⟨w, true, frames, room⟩ (.next (Config.advance w true frames room))
  | performed {w : Walk} {frames : List Frame} {room : Nat} {p : Prim} :
      w.world.halted = false → w.code[w.position]? = some p.toChar →
      Stepped memory ⟨w, false, frames, room⟩ (Config.performed frames room (w.perform memory p))
  | entered {w : Walk} {skip : Bool} {frames : List Frame} {room : Nat} :
      w.world.halted = false → w.code[w.position]? = some '[' →
      Stepped memory ⟨w, skip, frames, room + 1⟩
        (.next ⟨w.entered, w.world.cell == 0, ⟨w.position + 1, skip⟩ :: frames, room⟩)
  | full {w : Walk} {skip : Bool} {frames : List Frame} :
      w.world.halted = false → w.code[w.position]? = some '[' →
      Stepped memory ⟨w, skip, frames, 0⟩ (.done ⟨w.entered, .error .tooDeep⟩)
  | closing {w : Walk} {skip : Bool} {frames : List Frame} {room : Nat} :
      w.world.halted = false → w.code[w.position]? = some ']' →
      Stepped memory ⟨w, skip, frames, room⟩ (Config.leave (w.world.cell != 0) w frames room)

theorem Stuck.size_le (h : w.Stuck) (hh : w.world.halted = false) : w.code.size ≤ w.position :=
  h.resolve_left (by rw [hh]; exact Bool.false_ne_true)

theorem Stuck.cases (h : w.Stuck) :
    w.world.halted = true ∨ w.world.halted = false ∧ w.code[w.position]? = none := by
  cases hh : w.world.halted with
  | true => exact .inl rfl
  | false => exact .inr ⟨rfl, Array.getElem?_eq_none (h.size_le hh)⟩

theorem step_stuck (h : w.Stuck) :
    (engine memory).step ⟨w, skip, frames, room⟩ = Config.leave false w frames room := by
  rcases h.cases with hh | ⟨hh, hnone⟩
  · exact step_halted hh
  · exact step_end hh hnone

theorem step_performed (hh : w.world.halted = false) {p : Prim}
    (hc : w.code[w.position]? = some p.toChar) :
    (engine memory).step ⟨w, false, frames, room⟩ =
      Config.performed frames room (w.perform memory p) := by
  have hp : Symbol.ofChar? p.toChar = some (.prim p) := Symbol.ofChar?_toChar (.prim p)
  simp only [engine, Config.step, if_neg (not_neg_of_not_halted hh), hc, hp, Bool.false_eq_true,
    if_false]
  rfl

theorem stepped (memory : Memory) (c : Config) : Stepped memory c ((engine memory).step c) := by
  obtain ⟨w, skip, frames, room⟩ := c
  cases hh : w.world.halted with
  | true =>
    rw [step_halted hh]
    exact .stuck (.inl hh)
  | false =>
    cases hc : w.code[w.position]? with
    | none =>
      rw [step_end hh hc]
      exact .stuck (.inr (Array.getElem?_eq_none_iff.mp hc))
    | some ch =>
      cases hs : Symbol.ofChar? ch with
      | none =>
        rw [step_inert hh hc hs]
        exact .inert hh hc hs
      | some s =>
        obtain rfl := Symbol.toChar_of_ofChar? hs
        cases s with
        | prim p =>
          cases skip with
          | true =>
            rw [step_skipped hh hc]
            exact .skipped hh hc
          | false =>
            rw [step_performed hh hc]
            exact .performed hh hc
        | opening =>
          cases room with
          | zero =>
            rw [step_opening_full hh hc]
            exact .full hh hc
          | succ room =>
            rw [step_opening hh hc]
            exact .entered hh hc
        | closing =>
          rw [step_closing hh hc]
          exact .closing hh hc

theorem Stepped.eq {c : Config} {o : Step Config Outcome} (h : Stepped memory c o) :
    (engine memory).step c = o := by
  cases h with
  | stuck hstuck => exact step_stuck hstuck
  | inert hh hc hs => exact step_inert hh hc hs
  | skipped hh hc => exact step_skipped hh hc
  | performed hh hc => exact step_performed hh hc
  | entered hh hc => exact step_opening hh hc
  | full hh hc => exact step_opening_full hh hc
  | closing hh hc => exact step_closing hh hc

/-! ### Stretches without effect -/

theorem acts_skip : (engine memory).acts ⟨w, true, frames, room⟩ = false := by
  simp only [engine, Config.acts]
  split <;> rfl

theorem acts_halted (h : w.world.halted = true) :
    (engine memory).acts ⟨w, skip, frames, room⟩ = false := by
  simp only [engine, Config.acts, h]
  split
  · exact Bool.and_false _
  · rfl

theorem acts_inert {ch : Char} (hc : w.code[w.position]? = some ch)
    (hch : Symbol.ofChar? ch = none) : (engine memory).acts ⟨w, skip, frames, room⟩ = false := by
  simp [engine, Config.acts, hc, hch]

theorem acts_opening (hc : w.code[w.position]? = some Symbol.opening.toChar) :
    (engine memory).acts ⟨w, skip, frames, room⟩ = false := by
  simp [engine, Config.acts, hc]

theorem acts_closing (hc : w.code[w.position]? = some Symbol.closing.toChar) :
    (engine memory).acts ⟨w, skip, frames, room⟩ = false := by
  simp [engine, Config.acts, hc]

theorem acts_end (hc : w.code[w.position]? = none) :
    (engine memory).acts ⟨w, skip, frames, room⟩ = false := by
  simp [engine, Config.acts, hc]

theorem acts_prim (h : w.world.halted = false) {p : Prim}
    (hc : w.code[w.position]? = some p.toChar) :
    (engine memory).acts ⟨w, false, frames, room⟩ = true := by
  have hp : Symbol.ofChar? p.toChar = some (.prim p) := Symbol.ofChar?_toChar (.prim p)
  simp [engine, Config.acts, hc, hp, h]

theorem arrives_inert (memory : Memory) {j : Nat} (h : w.world.halted = false)
    (hb : symbolsBetween w.code w.position j = []) (hij : w.position ≤ j) (hj : j ≤ w.code.size)
    (skip : Bool) (frames : List Frame) (room : Nat) :
    (engine memory).Arrives ⟨w, skip, frames, room⟩ 0 (.next ⟨w.seek j, skip, frames, room⟩) := by
  induction hd : j - w.position generalizing w with
  | zero =>
    obtain rfl : w.position = j := by omega
    exact .refl (engine memory) _
  | succ d ih =>
    obtain ⟨ch, hc, hch, hrest⟩ := inert_of_symbolsBetween_eq_nil hb (by omega) hj
    have hstep : (engine memory).Arrives ⟨w, skip, frames, room⟩ 0
        (.next ⟨w.seek (w.position + 1), skip, frames, room⟩) :=
      .of_quiet_step (step_inert h hc hch) (acts_inert hc hch)
    have hnext : (w.seek (w.position + 1)).position = w.position + 1 := rfl
    exact hstep.quiet (ih (w := w.seek (w.position + 1)) h hrest (by omega) hj (by omega))

/-- A body that is skipped is walked to its end without effect. The induction is on the block that
the body spells; a loop inside it is entered in skip mode too, since the cell is still zero. -/
theorem arrives_skipped {b : Block Prim} {j : Nat} (h : w.world.halted = false)
    (hz : w.world.cell = 0) (hb : symbolsBetween w.code w.position j = b.spelling)
    (hij : w.position ≤ j) (hj : j ≤ w.code.size) (frames : List Frame) {room : Nat}
    (hd : b.depth ≤ room) :
    ∃ M, (engine memory).Arrives ⟨w, true, frames, room⟩ 0
      (.next ⟨{ w with position := j, maxDepth := M }, true, frames, room⟩) := by
  induction b generalizing w frames room j with
  | nil => exact ⟨w.maxDepth, arrives_inert memory h hb hij hj true frames room⟩
  | cons p b ih =>
    obtain ⟨m, him, hmj, hbefore, hc, hrest⟩ := exists_first hb
    have hgap := arrives_inert memory h hbefore him (by omega) true frames room
    have hstep : (engine memory).Arrives ⟨w.seek m, true, frames, room⟩ 0
        (.next ⟨w.seek (m + 1), true, frames, room⟩) :=
      .of_quiet_step (step_skipped (w := w.seek m) h hc) acts_skip
    obtain ⟨M, hM⟩ := ih (w := w.seek (m + 1)) h hz hrest hmj hj frames hd
    exact ⟨M, hgap.quiet (hstep.quiet hM)⟩
  | loop body b ihBody ihRest =>
    obtain ⟨m, q, him, hmq, hqj, hbefore, hopen, hbody, hclose, hrest⟩ := exists_loop hb
    rw [Block.depth] at hd
    obtain ⟨room, rfl⟩ : ∃ r, room = r + 1 := ⟨room - 1, by omega⟩
    have hbodyRoom : body.depth ≤ room := by omega
    have hrestRoom : b.depth ≤ room + 1 := by omega
    have hq : q ≤ w.code.size := by omega
    have hgap := arrives_inert memory h hbefore him (by omega) true frames (room + 1)
    have henter : (engine memory).Arrives ⟨w.seek m, true, frames, room + 1⟩ 0
        (.next ⟨(w.seek m).entered, true, ⟨m + 1, true⟩ :: frames, room⟩) := by
      have hskip : ((w.seek m).world.cell == 0) = true := beq_iff_eq.mpr hz
      refine .of_quiet_step ?_ acts_skip
      rw [step_opening (w := w.seek m) h hopen, hskip]
      rfl
    obtain ⟨M, hM⟩ := ihBody (w := (w.seek m).entered) h hz hbody hmq hq
      (⟨m + 1, true⟩ :: frames) hbodyRoom
    have hleave : (engine memory).Arrives
        ⟨{ (w.seek m).entered with position := q, maxDepth := M }, true, ⟨m + 1, true⟩ :: frames,
          room⟩ 0
        (.next ⟨{ w with position := q + 1, maxDepth := M }, true, frames, room + 1⟩) :=
      .of_quiet_step (step_closing_zero
        (w := { (w.seek m).entered with position := q, maxDepth := M }) h hz hclose _) acts_skip
    obtain ⟨M', hM'⟩ := ihRest (w := { w with position := q + 1, maxDepth := M }) h hz hrest hqj hj
      frames hrestRoom
    exact ⟨M', hgap.quiet (henter.quiet (hM.quiet (hleave.quiet hM')))⟩

end Walk

end TapeLang
