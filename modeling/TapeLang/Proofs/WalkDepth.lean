import TapeLang.Proofs.Nesting
import TapeLang.Proofs.WalkRuns

/-! How deep a walk goes. A walk enters a body for each bracket that is open where it stands,
however often it has been there, so its depth is at every moment the number of open loops, and its
largest depth is that of the part of the text it has seen. The invariant of a run names the furthest
position that was reached, since a loop that is walked again goes back behind it. -/

namespace TapeLang

namespace Walk

variable {memory : Memory} {text : List Char} {w w' : Walk} {skip : Bool} {frame : Frame}
  {frames : List Frame} {room limit m m' n : Nat} {c : Config}

/-! ### The invariant -/

/-- The loops around a walk, innermost first: behind each of their brackets as many loops are open
as the walk is then in. -/
def Enclosing (text : List Char) (m : Nat) : List Frame → Prop
  | [] => True
  | frame :: rest =>
    frame.bodyStart ≤ m ∧ height (text.take frame.bodyStart) = (rest.length + 1 : Nat) ∧
      Enclosing text m rest

theorem Enclosing.mono (h : Enclosing text m frames) (hm : m ≤ m') :
    Enclosing text m' frames := by
  induction frames with
  | nil => trivial
  | cons frame rest ih => exact ⟨Nat.le_trans h.1 hm, h.2.1, ih h.2.2⟩

/-- A walk of a text with room for `limit` nested loops, that has not been further than `m`. -/
structure Nested (text : List Char) (limit m : Nat) (c : Config) : Prop where
  code : c.walk.code = text.toArray
  sound : c.walk.world.Sound
  depth : c.walk.depth = c.frames.length
  room : c.room + c.frames.length = limit
  summit : Summit text m c.walk.maxDepth
  frames : Enclosing text m c.frames

/-- Such a walk, and it is in as many loops as are open where it stands. A walk that has halted
stands nowhere. -/
structure Tracks (text : List Char) (limit m : Nat) (c : Config) : Prop
    extends Nested text limit m c where
  reached : c.walk.world.halted = false → c.walk.position ≤ m
  here : c.walk.world.halted = false → c.walk.position ≤ text.length →
    height (text.take c.walk.position) = c.frames.length

/-- How a walk ends: for lack of room, or outside of all loops, where it has halted, met a closing
bracket without partner, or seen the whole text. -/
def Concluded (text : List Char) (limit : Nat) (o : Outcome) : Prop :=
  match o.result with
  | .error e => e = .tooDeep ∧ limit < nesting text ∧ o.walk.maxDepth ≤ nesting text
  | .ok _ => o.walk.depth = 0 ∧ ∃ m, Summit text m o.walk.maxDepth ∧
      (o.walk.world.halted = false → FirstUnmatched text m ∨ text.length ≤ m)

/-- A run goes on as the invariant says or ends as it should. -/
def Keeps (text : List Char) (limit : Nat) : Step Config Outcome → Prop
  | .next c => ∃ m, Tracks text limit m c
  | .done o => Concluded text limit o

namespace Nested

theorem getElem? (h : Nested text limit m ⟨w, skip, frames, room⟩) (i : Nat) :
    w.code[i]? = text[i]? := by
  rw [show w.code = text.toArray from h.code, List.getElem?_toArray]

theorem outward (h : Nested text limit m ⟨w, skip, frame :: frames, room⟩) :
    Nested text limit m ⟨{ w with depth := w.depth - 1 }, frame.skip, frames, room + 1⟩ where
  code := h.code
  sound := h.sound
  depth := by
    have := h.depth
    simp only [List.length_cons] at this ⊢
    omega
  room := by
    have := h.room
    simp only [List.length_cons] at this ⊢
    omega
  summit := h.summit
  frames := h.frames.2.2

theorem advance (h : Nested text limit m ⟨w, skip, frames, room⟩) (hi : w.position ≤ m) {l : Nat}
    (hl : height (text.take (w.position + 1)) = l) (hmax : l ≤ w.maxDepth)
    (hhere : w.position < text.length → l = frames.length) :
    Keeps text limit (.next (.advance w skip frames room)) := by
  refine ⟨max m (w.position + 1), ⟨h.code, h.sound, h.depth, h.room, ?_, ?_⟩, ?_, ?_⟩
  · have hsummit := h.summit.extend hi hl
    rw [Nat.max_eq_left hmax] at hsummit
    exact hsummit
  · exact h.frames.mono (Nat.le_max_left _ _)
  · exact fun _ => Nat.le_max_right _ _
  · intro _ hle
    show height (text.take (w.position + 1)) = frames.length
    rw [hl, hhere hle]

end Nested

namespace Tracks

theorem start (text : List Char) (room : Nat) (reader : Reader) (writer : Writer) :
    Tracks text room 0 ⟨Walk.start text reader writer, false, [], room⟩ where
  code := rfl
  sound := sound_start text reader writer
  depth := rfl
  room := rfl
  summit := .start text
  frames := trivial
  reached _ := Nat.le_refl 0
  here _ _ := rfl

/-! ### One step -/

theorem height_succ (h : Tracks text limit m ⟨w, skip, frames, room⟩)
    (hh : w.world.halted = false) {ch : Char} (hc : w.code[w.position]? = some ch) :
    w.position < text.length ∧ frames.length ≤ w.maxDepth ∧
      height (text.take (w.position + 1)) = frames.length + height [ch] := by
  rw [h.getElem?] at hc
  have hlt : w.position < text.length := (List.getElem?_eq_some_iff.mp hc).1
  have hhere : height (text.take w.position) = frames.length := h.here hh (Nat.le_of_lt hlt)
  have hmax : height (text.take w.position) ≤ w.maxDepth := (h.summit.1 _ (h.reached hh)).2
  rw [height_take_succ hc, hhere]
  exact ⟨hlt, by omega, rfl⟩

/-- A character that is no bracket is left behind, whatever it has done to the world. -/
theorem pass (h : Tracks text limit m ⟨w, skip, frames, room⟩) (hh : w.world.halted = false)
    {ch : Char} (hc : w.code[w.position]? = some ch) (hch : height [ch] = 0)
    (hw' : Nested text limit m ⟨w', skip, frames, room⟩) (hposition : w'.position = w.position)
    (hmax : w'.maxDepth = w.maxDepth) :
    Keeps text limit (.next (.advance w' skip frames room)) := by
  obtain ⟨-, hle, hheight⟩ := h.height_succ hh hc
  rw [hch, Int.add_zero, ← hposition] at hheight
  exact hw'.advance (hposition ▸ h.reached hh) hheight (hmax ▸ hle) fun _ => rfl

theorem leave (h : Tracks text limit m ⟨w, skip, frames, room⟩)
    (hend : w.world.halted = false → text.length ≤ w.position) :
    Keeps text limit (Config.leave false w frames room) := by
  cases frames with
  | nil => exact ⟨h.depth, m, h.summit, fun hh => .inr (Nat.le_trans (hend hh) (h.reached hh))⟩
  | cons frame rest =>
    have hout := h.outward
    cases hh : w.world.halted with
    | true =>
      have hnot : ¬ w.world.halted = false := by simp [hh]
      exact ⟨m, ⟨hout.code, hout.sound, hout.depth, hout.room, hout.summit, hout.frames⟩,
        fun hh' => absurd hh' hnot, fun hh' => absurd hh' hnot⟩
    | false =>
      have hi := h.reached hh
      have hlen := hend hh
      obtain ⟨hnonneg, hmax⟩ := h.summit.1 _ hi
      obtain ⟨l, hl⟩ := Int.eq_ofNat_of_zero_le hnonneg
      rw [hl] at hmax
      have hbehind : height (text.take (w.position + 1)) = l := by
        rw [List.take_of_length_le hlen] at hl
        rw [List.take_of_length_le (Nat.le_succ_of_le hlen), hl]
      exact hout.advance hi hbehind (Int.ofNat_le.mp hmax) fun hlt =>
        absurd hlt (Nat.not_lt.mpr hlen)

theorem opening (h : Tracks text limit m ⟨w, skip, frames, room⟩) (memory : Memory)
    (hh : w.world.halted = false) (hc : w.code[w.position]? = some '[') :
    Keeps text limit ((engine memory).step ⟨w, skip, frames, room⟩) := by
  obtain ⟨-, -, hheight⟩ := h.height_succ hh hc
  have hdepth : w.depth = frames.length := h.depth
  have hroom : room + frames.length = limit := h.room
  have hbehind : height (text.take (w.position + 1)) = (frames.length + 1 : Nat) := hheight
  have hsummit : Summit text (max m (w.position + 1)) w.entered.maxDepth := by
    rw [← hdepth] at hbehind
    exact h.summit.extend (h.reached hh) hbehind
  cases room with
  | zero =>
    rw [step_opening_full hh hc]
    refine ⟨rfl, ?_, hsummit.le_nesting⟩
    have hdeeper : w.depth + 1 ≤ w.entered.maxDepth := Nat.le_max_right _ _
    have := hsummit.le_nesting
    omega
  | succ room =>
    rw [step_opening hh hc]
    have hroom' : room + (frames.length + 1) = limit := by omega
    exact ⟨_, ⟨h.code, h.sound, congrArg (· + 1) hdepth, hroom', hsummit,
      Nat.le_max_right _ _, hbehind, h.frames.mono (Nat.le_max_left _ _)⟩,
      fun _ => Nat.le_max_right _ _, fun _ _ => hbehind⟩

/-- Outside of all loops a closing bracket is the first one without partner. -/
theorem firstUnmatched (h : Tracks text limit m ⟨w, skip, [], room⟩) (hh : w.world.halted = false)
    (hc : w.code[w.position]? = some ']') : FirstUnmatched text w.position := by
  obtain ⟨-, -, hheight⟩ := h.height_succ hh hc
  refine ⟨?_, fun n hn => (h.summit.1 n (Nat.le_trans hn (h.reached hh))).1⟩
  rw [hheight]
  decide

theorem closing (h : Tracks text limit m ⟨w, skip, frames, room⟩) (memory : Memory)
    (hh : w.world.halted = false) (hc : w.code[w.position]? = some ']') :
    Keeps text limit ((engine memory).step ⟨w, skip, frames, room⟩) := by
  obtain ⟨hlt, hmax, hheight⟩ := h.height_succ hh hc
  have hchar : height [']'] = -1 := rfl
  rw [hchar] at hheight
  cases frames with
  | nil =>
    -- The bracket has no partner, so the walk cannot have been further than here.
    have hfirst := h.firstUnmatched hh hc
    have hm : m = w.position := by
      apply Nat.le_antisymm
      · apply Nat.le_of_not_lt
        intro hfurther
        exact absurd (h.summit.1 _ hfurther).1 (Int.not_le.mpr hfirst.1)
      · exact h.reached hh
    rw [step_closing hh hc]
    exact ⟨h.depth, m, h.summit, fun _ => .inl (hm ▸ hfirst)⟩
  | cons frame rest =>
    rw [List.length_cons] at hheight hmax
    by_cases hz : w.world.cell = 0
    · have hbehind : height (text.take (w.position + 1)) = rest.length := by omega
      rw [step_closing_zero hh hz hc]
      exact h.outward.advance (h.reached hh) hbehind (Nat.le_of_succ_le hmax) fun _ => rfl
    · rw [step_closing_again hh hz hc]
      exact ⟨m, ⟨h.code, h.sound, h.depth, h.room, h.summit, h.frames⟩, fun _ => h.frames.1,
        fun _ _ => h.frames.2.1⟩

/-- One step keeps the invariant, whatever character it reads. -/
theorem stepped {o : Step Config Outcome} (h : Tracks text limit m c)
    (ho : Stepped memory c o) : Keeps text limit o := by
  cases ho with
  | stuck hstuck =>
    refine h.leave fun hh => ?_
    have hsize := hstuck.size_le hh
    rw [show _ = text.toArray from h.code, List.size_toArray] at hsize
    exact hsize
  | inert hh hc hs => exact h.pass hh hc (height_cons_inert hs []) h.toNested rfl rfl
  | @skipped _ _ _ p hh hc => exact h.pass hh hc (height_prim p) h.toNested rfl rfl
  | @performed _ _ _ p hh hc =>
    rw [perform_eq hh h.sound]
    exact h.pass hh hc (height_prim p)
      ⟨h.code, World.Sound.perform h.sound p, h.depth, h.room, h.summit, h.frames⟩ rfl rfl
  | entered hh hc => exact step_opening hh hc ▸ h.opening memory hh hc
  | full hh hc => exact step_opening_full hh hc ▸ h.opening memory hh hc
  | closing hh hc => exact step_closing hh hc ▸ h.closing memory hh hc

/-! ### Runs -/

theorem after (h : Tracks text limit m c) (memory : Memory) (n : Nat) :
    Keeps text limit ((engine memory).after n c) :=
  Engine.after_of_step (fun ⟨_, h⟩ => h.stepped (Walk.stepped _ _)) ⟨m, h⟩ n

end Tracks

theorem tracks_of_after {reader : Reader} {writer : Writer}
    (h : (engine memory).after n ⟨start text reader writer, false, [], room⟩ = .next c) :
    ∃ m, Tracks text room m c := by
  have hafter := (Tracks.start text room reader writer).after memory n
  rw [h] at hafter
  exact hafter

/-- At every moment of a run the walk is in as many loops as are open where it stands. -/
theorem depth_of_after {reader : Reader} {writer : Writer}
    (h : (engine memory).after n ⟨start text reader writer, false, [], room⟩ = .next c) :
    c.walk.depth = c.frames.length ∧ c.walk.maxDepth ≤ nesting text ∧
      (c.walk.world.halted = false → c.walk.position < text.length →
        c.walk.depth = openLoops (text.take c.walk.position)) := by
  obtain ⟨m, hc⟩ := tracks_of_after h
  refine ⟨hc.depth, hc.summit.le_nesting, fun hh hlt => ?_⟩
  have hopen := hc.summit.openLoops_eq (hc.reached hh)
  rw [hc.here hh (Nat.le_of_lt hlt)] at hopen
  rw [hc.depth, Int.ofNat.inj hopen]

theorem concluded_of_run {reader : Reader} {writer : Writer} {e : Walk × Option Fault}
    (h : (start text reader writer).run memory room n = some e) :
    ∃ o, finish o = e ∧ Concluded text room o := by
  obtain ⟨o, ho, hfinish⟩ := run_eq_some_iff.mp h
  have hafter := (Tracks.start text room reader writer).after memory n
  rw [ho] at hafter
  exact ⟨o, hfinish, hafter⟩

/-- The depth of a walk follows the nesting of its text, never the number of iterations: it is the
number of loops open where the walk stands, so a walk lacks room only when its text nests deeper
than there is room for. -/
theorem depth_follows_nesting (memory : Memory) (text : List Char) (room : Nat) (reader : Reader)
    (writer : Writer) :
    (∀ n c, (engine memory).after n ⟨start text reader writer, false, [], room⟩ = .next c →
      c.walk.depth = c.frames.length ∧ c.walk.maxDepth ≤ nesting text ∧
      (c.walk.world.halted = false → c.walk.position < text.length →
        c.walk.depth = openLoops (text.take c.walk.position))) ∧
    (∀ fuel w fault, (start text reader writer).run memory room fuel = some (w, fault) →
      w.maxDepth ≤ nesting text ∧
      (∀ e, fault = some e → e = .tooDeep ∧ room < nesting text) ∧
      (fault = none → w.depth = 0 ∧
        (w.world.halted = false →
          (∀ p, FirstUnmatched text p → w.maxDepth = nesting (text.take p)) ∧
          (ClosingsMatched text → w.maxDepth = nesting text) ∧
          (Balanced text →
            ∃ program, Program.parse text = .ok program ∧ w.maxDepth = program.depth)))) := by
  refine ⟨fun n c h => depth_of_after h, fun fuel w fault hrun => ?_⟩
  obtain ⟨⟨w', result⟩, hfinish, hconcluded⟩ := concluded_of_run hrun
  cases result with
  | error e =>
    cases hfinish
    obtain ⟨rfl, hdeep, hmax⟩ := hconcluded
    exact ⟨hmax, fun e he => ⟨(Option.some.inj he).symm, hdeep⟩, fun hnone => by contradiction⟩
  | ok again =>
    cases hfinish
    obtain ⟨hdepth, m, hsummit, hend⟩ := hconcluded
    refine ⟨hsummit.le_nesting, fun e he => by contradiction, fun _ => ⟨hdepth, fun hh => ?_⟩⟩
    obtain ⟨hfirst, hmatched⟩ := hsummit.nesting_of_end (hend hh)
    refine ⟨hfirst, hmatched, fun hbalanced => ?_⟩
    obtain ⟨program, hparse, -⟩ := hbalanced.parse (shallow_length text)
    exact ⟨program, hparse, (hmatched hbalanced.1).trans (Program.depth_eq_nesting hparse).symm⟩

/-- Loops that are only skipped are entered all the same, as deep as they nest, and there has to be
room for them. -/
theorem depth_follows_nesting_skipped :
    (∃ w, (start "[[[]]]".toList {} {}).run (.below 2) 3 12 = some (w, none) ∧
      w.depth = 0 ∧
      ∃ program, Program.parse "[[[]]]".toList = .ok program ∧ w.maxDepth = program.depth) ∧
    ∃ w, (start "[[[]]]".toList {} {}).run (.below 2) 2 12 =
        some (w, some .tooDeep) ∧ 2 < nesting "[[[]]]".toList := by
  have hrun : (start "[[[]]]".toList {} {}).run (.below 2) 3 12 =
      some (⟨"[[[]]]".toList.toArray, 6, 0, 3, {}, {}, ⟨#[], 1, false⟩, []⟩, none) := rfl
  obtain ⟨w, hfull⟩ : ∃ w, (start "[[[]]]".toList {} {}).run (.below 2) 2 12 =
      some (w, some .tooDeep) := ⟨_, rfl⟩
  obtain ⟨-, -, hend⟩ := (depth_follows_nesting _ "[[[]]]".toList 3 {} {}).2 _ _ _ hrun
  obtain ⟨hdepth, hdeepest⟩ := hend rfl
  obtain ⟨-, -, hprogram⟩ := hdeepest rfl
  obtain ⟨-, hroom, -⟩ := (depth_follows_nesting _ "[[[]]]".toList 2 {} {}).2 _ _ _ hfull
  exact ⟨⟨_, hrun, hdepth, hprogram (by decide)⟩, w, hfull, (hroom _ rfl).2⟩

end Walk

end TapeLang
