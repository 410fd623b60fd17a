import TapeLang.Proofs.WalkDepth
import TapeLang.Proofs.WalkReturns

/-! Where a run ends and what it has noted. A walk leaves its loops one by one when it has halted or
is behind the text, and each of them adds one to its position; otherwise it only ends at a closing
bracket outside of all loops. So the last position is found from the moment at which the walk halts,
or at which it is at the end of the text for the first time. -/

namespace TapeLang

/-- Only a move to the left leads below the first cell. -/
theorem World.eq_left_of_halted {s : World} {p : Prim} (hh : s.halted = false)
    (hp : (s.perform p).halted = true) : p = .left := by
  rw [World.not_halted_iff] at hh
  rw [World.halted_iff] at hp
  cases p with
  | left => rfl
  | right =>
    rw [World.perform, World.move, Tape.pointer_move] at hp
    omega
  | increment | decrement | output | input => exact absurd hp (Int.not_lt.mpr hh)

namespace Walk

variable {memory : Memory} {text : List Char} {reader : Reader} {writer : Writer} {w : Walk}
  {skip again : Bool} {frames : List Frame} {room k n p : Nat} {c c' : Config}
  {o : Step Config Outcome}

/-! ### Moments of a run -/

/-- A moment in the walk of a text: its loops begin inside the text, and nothing is noted before it
halts. -/
structure Underway (text : List Char) (c : Config) : Prop where
  code : c.walk.code = text.toArray
  sound : c.walk.world.Sound
  inside : ∀ frame ∈ c.frames, frame.bodyStart ≤ text.length
  silent : c.walk.world.halted = false → c.walk.log = []

/-- Such a moment after a step from position `i`, which does not lead over the end of the text. -/
def Moved (text : List Char) (i : Nat) : Step Config Outcome → Prop
  | .next c => Underway text c ∧ (i < text.length → c.walk.position ≤ text.length)
  | .done _ => True

namespace Underway

theorem start (text : List Char) (room : Nat) (reader : Reader) (writer : Writer) :
    Underway text ⟨Walk.start text reader writer, false, [], room⟩ where
  code := rfl
  sound := sound_start text reader writer
  inside := by simp
  silent _ := rfl

theorem lt_length {ch : Char} (h : Underway text ⟨w, skip, frames, room⟩)
    (hc : w.code[w.position]? = some ch) : w.position < text.length := by
  rw [show w.code = text.toArray from h.code, List.getElem?_toArray] at hc
  exact (List.getElem?_eq_some_iff.mp hc).1

theorem advance (h : Underway text ⟨w, skip, frames, room⟩) :
    Moved text w.position (.next (.advance w skip frames room)) :=
  ⟨⟨h.code, h.sound, h.inside, h.silent⟩, id⟩

theorem performed (h : Underway text ⟨w, false, frames, room⟩) (hh : w.world.halted = false)
    (p : Prim) :
    Moved text w.position (Config.performed frames room (w.perform memory p)) := by
  rw [perform_eq hh h.sound]
  refine ⟨⟨h.code, World.Sound.perform h.sound p, h.inside, fun hnext => ?_⟩, id⟩
  have hlog : w.log = [] := h.silent hh
  have hstill : (w.world.perform p).halted = false := hnext
  show w.log ++ (if (w.world.perform p).halted then [.belowStart] else []) = []
  rw [hlog, hstill]
  rfl

theorem entered (h : Underway text ⟨w, skip, frames, room + 1⟩)
    (hc : w.code[w.position]? = some '[') (skip' : Bool) :
    Moved text w.position
      (.next ⟨w.entered, skip', ⟨w.position + 1, skip⟩ :: frames, room⟩) := by
  refine ⟨⟨h.code, h.sound, ?_, h.silent⟩, id⟩
  rw [List.forall_mem_cons]
  exact ⟨h.lt_length hc, h.inside⟩

theorem leave (h : Underway text ⟨w, skip, frames, room⟩) (again : Bool) :
    Moved text w.position (Config.leave again w frames room) := by
  cases frames with
  | nil => trivial
  | cons frame frames =>
    obtain ⟨hstart, hinside⟩ := List.forall_mem_cons.mp h.inside
    cases again with
    | false => exact ⟨⟨h.code, h.sound, hinside, h.silent⟩, id⟩
    | true =>
      show Moved text w.position (Config.enter (w.seek frame.bodyStart) (frame :: frames) room)
      unfold Config.enter
      split
      · exact ⟨⟨h.code, h.sound, h.inside, h.silent⟩, fun _ => hstart⟩
      · trivial

theorem stepped (h : Underway text c) (ho : Stepped memory c o) : Moved text c.walk.position o := by
  cases ho with
  | stuck hstuck => exact h.leave false
  | inert hh hc hs => exact h.advance
  | skipped hh hc => exact h.advance
  | performed hh hc => exact h.performed hh _
  | entered hh hc => exact h.entered hc _
  | full hh hc => trivial
  | closing hh hc => exact h.leave _

theorem after (h : Underway text c) (hn : (engine memory).after n c = .next c') :
    Underway text c' := by
  refine Engine.after_next_of_step (P := Underway text) (fun {s t} hs hstep => ?_) h hn
  have hmoved := hs.stepped (Walk.stepped memory s)
  rw [hstep] at hmoved
  exact hmoved.1

end Underway

/-! ### How a run ends -/

theorem leave_eq_done {w' : Walk} {again' : Bool}
    (h : Config.leave again w frames room = .done ⟨w', .ok again'⟩) : frames = [] ∧ w' = w := by
  cases frames with
  | nil =>
    cases h
    exact ⟨rfl, rfl⟩
  | cons frame frames =>
    cases again with
    | false => contradiction
    | true =>
      change Config.enter (w.seek frame.bodyStart) (frame :: frames) room = _ at h
      unfold Config.enter at h
      split at h
      · contradiction
      · cases h

/-- A run ends where it can go no further or at a closing bracket, outside of all loops. -/
theorem Stepped.returned (h : Stepped memory c o) (ho : o = .done ⟨w, .ok again⟩) :
    c.frames = [] ∧ w = c.walk ∧ (c.walk.Stuck ∨
      c.walk.world.halted = false ∧ c.walk.code[c.walk.position]? = some ']') := by
  cases h with
  | stuck hstuck =>
    obtain ⟨hframes, hw⟩ := leave_eq_done ho
    exact ⟨hframes, hw, .inl hstuck⟩
  | inert | skipped | entered => contradiction
  | full => cases ho
  | @performed w frames room p hh hc =>
    revert ho
    generalize w.perform memory p = e
    obtain ⟨w', _ | fault⟩ := e
    · intro ho
      contradiction
    · intro ho
      cases ho
  | closing hh hc =>
    obtain ⟨hframes, hw⟩ := leave_eq_done ho
    exact ⟨hframes, hw, .inr ⟨hh, hc⟩⟩

/-- A run that is stuck at some moment ends as it then leaves its loops. -/
theorem eq_unwound {s : Config} (hk : (engine memory).after k s = .done ⟨w, .ok again⟩)
    (hn : (engine memory).after n s = .next c) (hc : c.walk.Stuck) :
    w = { c.walk with
      position := c.walk.position + c.frames.length
      depth := c.walk.depth - c.frames.length } := by
  obtain ⟨walk, skip, frames, room⟩ := c
  obtain ⟨j, hj, -⟩ : (engine memory).Arrives ⟨walk, skip, frames, room⟩ 0 _ := arrives_unwound hc
  cases Engine.done_unique hk ((Engine.after_add_next hn).trans hj)
  rfl

/-! ### Where a run halts, and where its text ends -/

/-- The run of a text goes below the first cell with the character at `p`. -/
def HaltsAt (memory : Memory) (text : List Char) (room : Nat) (reader : Reader) (writer : Writer)
    (p : Nat) : Prop :=
  ∃ n c c', (engine memory).after n ⟨start text reader writer, false, [], room⟩ = .next c ∧
    (engine memory).step c = .next c' ∧ c.walk.position = p ∧
    c.walk.world.halted = false ∧ c'.walk.world.halted = true

theorem of_halting (hs : c.walk.world.Sound) (hstep : (engine memory).step c = .next c')
    (hh : c.walk.world.halted = false) (hh' : c'.walk.world.halted = true) :
    c.walk.code[c.walk.position]? = some '<' ∧
      c' = .advance (c.walk.act .left) c.skip c.frames c.room := by
  have hacts : (engine memory).acts c = true := by
    cases hacts : (engine memory).acts c with
    | true => rfl
    | false =>
      have hlook := engine_quiet c hacts
      rw [hstep] at hlook
      rw [show c'.walk.world = c.walk.world from hlook, hh] at hh'
      contradiction
  obtain ⟨w, skip, frames, room⟩ := c
  obtain ⟨-, rfl, p, hc⟩ := of_acts hacts
  rw [step_prim hh hs hc] at hstep
  cases hstep
  obtain rfl := World.eq_left_of_halted hh hh'
  exact ⟨hc, rfl⟩

/-- A run that is behind the text was at its end before. -/
theorem exists_at_end
    (hn : (engine memory).after n ⟨start text reader writer, false, [], room⟩ = .next c)
    (hc : text.length ≤ c.walk.position) :
    ∃ j c', (engine memory).after j ⟨start text reader writer, false, [], room⟩ = .next c' ∧
      c'.walk.position = text.length := by
  by_cases hempty : text.length ≤ 0
  · exact ⟨0, _, rfl, (Nat.le_zero.mp hempty).symm⟩
  · obtain ⟨j, c₁, c₂, hj, hstep, hbefore, hafter⟩ :=
      Engine.exists_change (P := fun c => text.length ≤ c.walk.position) hn hempty hc
    have hmoved := ((Underway.start text room reader writer).after hj).stepped (stepped memory c₁)
    rw [hstep] at hmoved
    refine ⟨j + 1, c₂, Engine.after_then_step hj hstep, ?_⟩
    exact Nat.le_antisymm (hmoved.2 (Nat.lt_of_not_le hbefore)) hafter

/-! ### Runs that have ended -/

section Ended

variable (hk : (engine memory).after k ⟨start text reader writer, false, [], room⟩ =
  .done ⟨w, .ok again⟩)
include hk

theorem code_of_returned : w.code = text.toArray := by
  have hwithin := (Within.start (start text reader writer) false room).after memory k
  rw [hk] at hwithin
  exact hwithin.1.code

theorem HaltsAt.lands (h : HaltsAt memory text room reader writer p) :
    text[p]? = some '<' ∧ w.position = p + 1 + openLoops (text.take p) ∧ w.log = [.belowStart] := by
  obtain ⟨n, c, c', hn, hstep, rfl, hh, hh'⟩ := h
  have hc := (Underway.start text room reader writer).after hn
  obtain ⟨hchar, rfl⟩ := of_halting hc.sound hstep hh hh'
  rw [hc.code, List.getElem?_toArray] at hchar
  obtain ⟨hlt, -⟩ := List.getElem?_eq_some_iff.mp hchar
  -- The loops that are left are those open at the position.
  obtain ⟨hdepth, -, hopen⟩ := depth_of_after hn
  have hframes : c.frames.length = openLoops (text.take c.walk.position) :=
    hdepth.symm.trans (hopen hh hlt)
  have hnext : (engine memory).after (n + 1) ⟨start text reader writer, false, [], room⟩ =
      .next (.advance (c.walk.act .left) c.skip c.frames c.room) :=
    Engine.after_then_step hn hstep
  rw [eq_unwound hk hnext (.inl hh')]
  refine ⟨hchar, congrArg (c.walk.position + 1 + ·) hframes, ?_⟩
  have hhalted : (c.walk.world.perform .left).halted = true := hh'
  show c.walk.log ++ (if (c.walk.world.perform .left).halted then [.belowStart] else []) = _
  rw [hc.silent hh, hhalted]
  rfl

theorem exists_haltsAt (hh : w.world.halted = true) :
    ∃ p, HaltsAt memory text room reader writer p := by
  obtain ⟨n, c, hn, hstep⟩ := Engine.exists_last_step hk
  obtain ⟨-, rfl, -⟩ := (stepped memory c).returned hstep
  obtain ⟨j, c₁, c₂, hj, hstep, hbefore, hafter⟩ :=
    Engine.exists_change (P := fun c => c.walk.world.halted = true) hn Bool.false_ne_true hh
  exact ⟨_, j, c₁, c₂, hj, hstep, rfl, Bool.eq_false_iff.mpr hbefore, hafter⟩

theorem lands_behind (hh : w.world.halted = false)
    (hn : (engine memory).after n ⟨start text reader writer, false, [], room⟩ = .next c)
    (hc : text.length ≤ c.walk.position) :
    ClosingsMatched text ∧ w.position = text.length + openLoops text := by
  obtain ⟨j, c', hj, hposition⟩ := exists_at_end hn hc
  have hstuck : c'.walk.Stuck := by
    right
    rw [((Underway.start text room reader writer).after hj).code, List.size_toArray, hposition]
  have hw := eq_unwound hk hj hstuck
  have hh' : c'.walk.world.halted = false := by
    rw [hw] at hh
    exact hh
  -- At the end of the text the walk is in the loops that are still open.
  obtain ⟨m, htracks⟩ := tracks_of_after hj
  have hreached : text.length ≤ m := hposition ▸ htracks.reached hh'
  have hopen := htracks.summit.openLoops_eq hreached
  have hhere := htracks.here hh' (Nat.le_of_eq hposition)
  rw [hposition] at hhere
  rw [hhere, List.take_length] at hopen
  refine ⟨htracks.summit.closingsMatched hreached, ?_⟩
  rw [hw, Int.ofNat.inj hopen, ← hposition]

theorem lands_unhalted (hh : w.world.halted = false) :
    w.log = [] ∧ (FirstUnmatched text w.position ∨
      ClosingsMatched text ∧ w.position = text.length + openLoops text) := by
  obtain ⟨n, c, hn, hstep⟩ := Engine.exists_last_step hk
  obtain ⟨hframes, rfl, hend⟩ := (stepped memory c).returned hstep
  have hc := (Underway.start text room reader writer).after hn
  refine ⟨hc.silent hh, ?_⟩
  rcases hend with hstuck | ⟨-, hclose⟩
  · right
    have hsize := hstuck.size_le hh
    rw [hc.code, List.size_toArray] at hsize
    exact lands_behind hk hh hn hsize
  · left
    obtain ⟨m, htracks⟩ := tracks_of_after hn
    obtain ⟨w, skip, frames, room⟩ := c
    obtain rfl : frames = [] := hframes
    exact htracks.firstUnmatched hh hclose

end Ended

/-! ### What is noted -/

theorem exists_returned {v : Walk} {fuel : Nat} (h : v.run memory room fuel = some (w, none)) :
    ∃ w' again, (engine memory).after fuel ⟨v, false, [], room⟩ = .done ⟨w', .ok again⟩ ∧
      w = { w' with writer := w'.writer.flush, log := w'.log ++ w'.closingEvents } := by
  obtain ⟨⟨w', result⟩, hk, hfinish⟩ := run_eq_some_iff.mp h
  cases result with
  | error e => cases hfinish
  | ok again =>
    cases hfinish
    exact ⟨w', again, hk, rfl⟩

theorem closingEvents_of_halted (h : w.tape.halted = true) :
    w.closingEvents = [.walkHalted w.position] :=
  if_pos h

theorem closingEvents_of_lt (h : w.tape.halted = false) (hlt : w.position < w.code.size) :
    w.closingEvents = [.walkStopped w.position] := by
  rw [closingEvents, h, if_pos hlt]
  rfl

theorem closingEvents_of_le (h : w.tape.halted = false) (hle : w.code.size ≤ w.position) :
    w.closingEvents = [] := by
  rw [closingEvents, h, if_neg (Nat.not_lt.mpr hle)]
  rfl

/-- A run that halts ends as far behind the move that leaves the tape as loops are open there, any
other at the first closing bracket without partner, or as far behind the text as the text leaves
loops open; and what it has noted tells which. -/
theorem run_landing {fuel : Nat}
    (h : (start text reader writer).run memory room fuel = some (w, none)) :
    (w.tape.halted = true →
      (∃ p, HaltsAt memory text room reader writer p) ∧
      ∀ p, HaltsAt memory text room reader writer p →
        text[p]? = some '<' ∧ w.position = p + 1 + openLoops (text.take p) ∧
        w.log.map Event.line =
          ["bfkit.tape: tape pointer moved below the start of the tape",
            "bfkit.interpreter: halted at code position " ++ toString w.position ++
              ": tape pointer below zero"]) ∧
    (w.tape.halted = false →
      (∀ p, FirstUnmatched text p →
        text[p]? = some ']' ∧ w.position = p ∧
        w.log.map Event.line =
          ["bfkit.interpreter: stopped at unmatched ']' (code position " ++ toString p ++ ")"]) ∧
      (ClosingsMatched text → w.position = text.length + openLoops text ∧ w.log = [])) := by
  obtain ⟨w', again, hk, rfl⟩ := exists_returned h
  constructor
  · intro (hh : w'.tape.halted = true)
    refine ⟨exists_haltsAt hk hh, fun p hp => ?_⟩
    obtain ⟨hchar, hposition, hlog⟩ := hp.lands hk
    refine ⟨hchar, hposition, ?_⟩
    simp only [hlog, closingEvents_of_halted hh]
    rfl
  · intro (hh : w'.tape.halted = false)
    obtain ⟨hlog, hend⟩ := lands_unhalted hk hh
    constructor
    · intro p hp
      rcases hend with hfirst | ⟨hmatched, -⟩
      · obtain rfl := hp.unique hfirst
        have hchar := hp.spec.1
        have hlt : w'.position < w'.code.size := by
          rw [code_of_returned hk, List.size_toArray]
          exact (List.getElem?_eq_some_iff.mp hchar).1
        refine ⟨hchar, rfl, ?_⟩
        simp only [hlog, closingEvents_of_lt hh hlt]
        rfl
      · exact absurd hmatched hp.not_closingsMatched
    · intro hmatched
      rcases hend with hfirst | ⟨-, hposition⟩
      · exact absurd hmatched hfirst.not_closingsMatched
      · have hle : w'.code.size ≤ w'.position := by
          rw [code_of_returned hk, List.size_toArray, hposition]
          exact Nat.le_add_right _ _
        refine ⟨hposition, ?_⟩
        simp only [hlog, closingEvents_of_le hh hle]
        rfl

/-- A run that halts inside two loops, one that stops at a closing bracket, and one that leaves a
loop open. -/
theorem run_landing_loops :
    (∃ w, (start "+[[<]]".toList {} {}).run (.below 2) 2 20 = some (w, none) ∧
      w.tape.halted = true ∧ HaltsAt (.below 2) "+[[<]]".toList 2 {} {} 3 ∧ w.position = 6 ∧
      w.log.map Event.line =
        ["bfkit.tape: tape pointer moved below the start of the tape",
          "bfkit.interpreter: halted at code position 6: tape pointer below zero"]) ∧
    (∃ w, (start "+[-]][".toList {} {}).run (.below 2) 1 20 = some (w, none) ∧ w.position = 4 ∧
      w.log.map Event.line =
        ["bfkit.interpreter: stopped at unmatched ']' (code position 4)"]) ∧
    ∃ w, (start "+[.".toList {} {}).run (.below 2) 1 20 = some (w, none) ∧ w.position = 4 ∧
      w.log = [] := by
  have hhalts : HaltsAt (.below 2) "+[[<]]".toList 2 {} {} 3 := ⟨3, _, _, rfl, rfl, rfl, rfl, rfl⟩
  have hfirst : FirstUnmatched "+[-]][".toList 4 := ⟨by decide, by decide⟩
  obtain ⟨w₁, h₁, hhalted⟩ : ∃ w,
      (start "+[[<]]".toList {} {}).run (.below 2) 2 20 = some (w, none) ∧ w.tape.halted = true :=
    ⟨_, rfl, rfl⟩
  obtain ⟨w₂, h₂, hhalted₂⟩ : ∃ w,
      (start "+[-]][".toList {} {}).run (.below 2) 1 20 = some (w, none) ∧ w.tape.halted = false :=
    ⟨_, rfl, rfl⟩
  obtain ⟨w₃, h₃, hhalted₃⟩ : ∃ w, (start "+[.".toList {} {}).run (.below 2) 1 20 = some (w, none) ∧
      w.tape.halted = false := ⟨_, rfl, rfl⟩
  obtain ⟨-, hposition₁, hlines₁⟩ := ((run_landing h₁).1 hhalted).2 3 hhalts
  obtain ⟨-, hposition₂, hlines₂⟩ := ((run_landing h₂).2 hhalted₂).1 4 hfirst
  obtain ⟨hposition₃, hlog₃⟩ := ((run_landing h₃).2 hhalted₃).2 (by decide)
  have hopen₁ : openLoops ("+[[<]]".toList.take 3) = 2 := by decide
  have hopen₃ : openLoops "+[.".toList = 1 := by decide
  rw [hopen₁] at hposition₁
  rw [hopen₃] at hposition₃
  rw [hposition₁] at hlines₁
  exact ⟨⟨w₁, h₁, hhalted, hhalts, hposition₁, hlines₁⟩, ⟨w₂, h₂, hposition₂, hlines₂⟩,
    w₃, h₃, hposition₃, hlog₃⟩

end Walk

end TapeLang
