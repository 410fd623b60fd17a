import TapeLang.Proofs.Simulation
import TapeLang.Proofs.WalkSteps

/-! A walk carries out the blocks that its text spells. While it is inside a stretch of text that
spells a block, the brackets around it and the frames of the walk mirror the blocks that the engine
of worlds still has to carry out. -/

namespace TapeLang

namespace Walk

variable {memory : Memory} {w : Walk} {skip : Bool} {frames : List Frame} {room : Nat}

/-! ### What does not change the world -/

theorem look_enter (w : Walk) (frames : List Frame) (room : Nat) :
    (engine memory).look (Config.enter w frames room) = w.world := by
  unfold Config.enter
  split <;> rfl

theorem look_leave (again : Bool) (w : Walk) (frames : List Frame) (room : Nat) :
    (engine memory).look (Config.leave again w frames room) = w.world := by
  unfold Config.leave
  split
  · rfl
  · split
    · exact look_enter _ _ _
    · rfl

theorem Stepped.look_eq {c : Config} {o : Step Config Outcome} (h : Stepped memory c o)
    (hacts : (engine memory).acts c = false) : (engine memory).look o = c.walk.world := by
  cases h with
  | stuck => exact look_leave _ _ _ _
  | inert => rfl
  | skipped => rfl
  | performed hh hc =>
    rw [acts_prim hh hc] at hacts
    contradiction
  | entered => rfl
  | full => rfl
  | closing => exact look_leave _ _ _ _

theorem engine_quiet : (engine memory).Quiet := fun c hacts => (stepped _ c).look_eq hacts

/-! ### Unwinding -/

theorem acts_stuck (h : w.Stuck) : (engine memory).acts ⟨w, skip, frames, room⟩ = false := by
  rcases h.cases with hh | ⟨-, hnone⟩
  · exact acts_halted hh
  · exact acts_end hnone

/-- A walk that is stuck leaves every loop it is in, and each adds one to its position. -/
theorem arrives_unwound (h : w.Stuck) :
    (engine memory).Arrives ⟨w, skip, frames, room⟩ 0
      (.done ⟨{ w with
        position := w.position + frames.length
        depth := w.depth - frames.length }, .ok false⟩) := by
  induction frames generalizing w skip room with
  | nil => exact .of_quiet_step (step_stuck h) (acts_stuck h)
  | cons frame frames ih =>
    have hleave : (engine memory).Arrives ⟨w, skip, frame :: frames, room⟩ 0
        (.next ⟨{ w with position := w.position + 1, depth := w.depth - 1 }, frame.skip, frames,
          room + 1⟩) :=
      .of_quiet_step (step_stuck h) (acts_stuck h)
    have hnext : ({ w with position := w.position + 1, depth := w.depth - 1 } : Walk).Stuck :=
      h.imp_right fun hsize => Nat.le_succ_of_le hsize
    have hrest := hleave.quiet (ih hnext)
    simp only [Nat.add_assoc, Nat.add_comm 1, Nat.sub_sub] at hrest
    exact hrest

/-! ### The loops around a position -/

/-- At the position `q`, where a body ends, the walk is in loops whose blocks are next: each with
its closing bracket, its body before it and the rest of the block behind it. Outside of all these
loops the stretch ends at `stop`, with the frames and the room that the walk had before it. -/
inductive Around (code : Array Char) (stop : Nat) (base : List Frame) (free : Nat) :
    Nat → List Frame → Nat → List (Block Prim) → Prop
  | outermost : Around code stop base free stop base free []
  | loop {start q next room : Nat} {frames : List Frame} {body b : Block Prim}
      {rest : List (Block Prim)} :
      code[q]? = some Symbol.closing.toChar →
      start ≤ q → symbolsBetween code start q = body.spelling → body.depth ≤ room →
      q < next → symbolsBetween code (q + 1) next = b.spelling → b.depth ≤ room + 1 →
      Around code stop base free next frames (room + 1) rest →
      Around code stop base free q (⟨start, false⟩ :: frames) room (.loop body b :: rest)

/-- Where a walk is when blocks are next: before the text of the first of them, or at the end of a
body of which nothing is left. -/
inductive Placed (code : Array Char) (stop : Nat) (base : List Frame) (free : Nat) :
    Nat → List Frame → Nat → List (Block Prim) → Prop
  | inside {i q room : Nat} {frames : List Frame} {b : Block Prim} {rest : List (Block Prim)} :
      i ≤ q → symbolsBetween code i q = b.spelling → b.depth ≤ room →
      Around code stop base free q frames room rest →
      Placed code stop base free i frames room (b :: rest)
  | ended {i q room : Nat} {frames : List Frame} {todo : List (Block Prim)} :
      i ≤ q → symbolsBetween code i q = [] → Around code stop base free q frames room todo →
      Placed code stop base free i frames room todo

/-- The walk `c` is where the engine of worlds is at `t`. -/
structure Follows (code : Array Char) (stop : Nat) (base : List Frame) (free : Nat) (c : Config)
    (t : World.Config) : Prop where
  text : c.walk.code = code
  world : c.walk.world = t.world
  sound : t.world.Sound
  skip : t.world.halted = false → c.skip = false
  placed : t.world.halted = false →
    Placed code stop base free c.walk.position c.frames c.room t.todo

/-- Where a walk comes to when the stretch up to `stop` has been carried out. -/
def Comes (code : Array Char) (stop : Nat) (base : List Frame) (free : Nat)
    (o : Step Config Outcome) (s : World) : Prop :=
  if s.halted then ∃ w, o = .done ⟨w, .ok false⟩ ∧ w.world = s
  else ∃ w, o = .next ⟨w, false, base, free⟩ ∧ w.code = code ∧ w.position = stop ∧ w.world = s ∧
    s.Sound

variable {code : Array Char} {stop free : Nat} {base : List Frame}

theorem Around.le_size {q : Nat} {todo : List (Block Prim)} (hstop : stop ≤ code.size)
    (h : Around code stop base free q frames room todo) : q ≤ code.size := by
  cases h with
  | outermost => exact hstop
  | loop hclose =>
    obtain ⟨hlt, -⟩ := Array.getElem?_eq_some_iff.mp hclose
    exact Nat.le_of_lt hlt

/-! ### Steps of the simulation -/

section Steps

variable {i q : Nat} {p : Prim} {b body : Block Prim} {todo rest : List (Block Prim)}
  (hh : w.world.halted = false) (hs : w.world.Sound) (hstop : stop ≤ w.code.size)
include hh hs hstop

theorem advances_cons (hb : symbolsBetween w.code w.position q = (Block.cons p b).spelling)
    (hd : b.depth ≤ room) (ha : Around w.code stop base free q frames room rest) :
    ∃ c, (engine memory).Advances ⟨w, false, frames, room⟩ 1 c ∧
      Follows w.code stop base free c ⟨w.world.perform p, b :: rest⟩ := by
  obtain ⟨m, him, hmq, hbefore, hc, hrest⟩ := exists_first hb
  have hq := ha.le_size hstop
  have hgap := arrives_inert memory hh hbefore him (by omega) false frames room
  have hstep : (engine memory).Advances ⟨w.seek m, false, frames, room⟩ 1
      ⟨(w.act p).seek (m + 1), false, frames, room⟩ :=
    .of_action (step_prim (w := w.seek m) hh hs hc) (acts_prim (w := w.seek m) hh hc)
  exact ⟨_, hgap.quiet_advances hstep, rfl, rfl, hs.perform p, fun _ => rfl,
    fun _ => .inside hmq hrest hd ha⟩

theorem advances_pass (hz : w.world.cell = 0)
    (hb : symbolsBetween w.code w.position q = (Block.loop body b).spelling)
    (hd : (Block.loop body b).depth ≤ room) (ha : Around w.code stop base free q frames room rest) :
    ∃ c, (engine memory).Advances ⟨w, false, frames, room⟩ 0 c ∧
      Follows w.code stop base free c ⟨w.world, b :: rest⟩ := by
  obtain ⟨m, k, him, hmk, hkq, hbefore, hopen, hbody, hclose, hrest⟩ := exists_loop hb
  rw [Block.depth] at hd
  obtain ⟨room, rfl⟩ : ∃ r, room = r + 1 := ⟨room - 1, by omega⟩
  have hbodyRoom : body.depth ≤ room := by omega
  have hrestRoom : b.depth ≤ room + 1 := by omega
  have hk : k ≤ w.code.size := by have := ha.le_size hstop; omega
  have hgap := arrives_inert memory hh hbefore him (by omega) false frames (room + 1)
  have henter : (engine memory).Advances ⟨w.seek m, false, frames, room + 1⟩ 0
      ⟨(w.seek m).entered, true, ⟨m + 1, false⟩ :: frames, room⟩ := by
    have hskip : ((w.seek m).world.cell == 0) = true := beq_iff_eq.mpr hz
    refine .of_quiet_step ?_ (acts_opening hopen)
    rw [step_opening (w := w.seek m) hh hopen, hskip]
    rfl
  obtain ⟨M, hM⟩ := arrives_skipped (w := (w.seek m).entered) hh hz hbody hmk hk
    (⟨m + 1, false⟩ :: frames) hbodyRoom
  have hleave : (engine memory).Arrives
      ⟨{ (w.seek m).entered with position := k, maxDepth := M }, true, ⟨m + 1, false⟩ :: frames,
        room⟩ 0
      (.next ⟨{ w with position := k + 1, maxDepth := M }, false, frames, room + 1⟩) :=
    .of_quiet_step (step_closing_zero
      (w := { (w.seek m).entered with position := k, maxDepth := M }) hh hz hclose _) acts_skip
  exact ⟨_, hgap.quiet_advances (henter.quiet (hM.quiet hleave)), rfl, rfl, hs, fun _ => rfl,
    fun _ => .inside hkq hrest hrestRoom ha⟩

theorem advances_enter (hz : w.world.cell ≠ 0)
    (hb : symbolsBetween w.code w.position q = (Block.loop body b).spelling)
    (hd : (Block.loop body b).depth ≤ room) (ha : Around w.code stop base free q frames room rest) :
    ∃ c, (engine memory).Advances ⟨w, false, frames, room⟩ 0 c ∧
      Follows w.code stop base free c ⟨w.world, body :: .loop body b :: rest⟩ := by
  obtain ⟨m, k, him, hmk, hkq, hbefore, hopen, hbody, hclose, hrest⟩ := exists_loop hb
  rw [Block.depth] at hd
  obtain ⟨room, rfl⟩ : ∃ r, room = r + 1 := ⟨room - 1, by omega⟩
  have hbodyRoom : body.depth ≤ room := by omega
  have hrestRoom : b.depth ≤ room + 1 := by omega
  have hk : k ≤ w.code.size := by have := ha.le_size hstop; omega
  have hgap := arrives_inert memory hh hbefore him (by omega) false frames (room + 1)
  have henter : (engine memory).Advances ⟨w.seek m, false, frames, room + 1⟩ 0
      ⟨(w.seek m).entered, false, ⟨m + 1, false⟩ :: frames, room⟩ := by
    have hskip : ((w.seek m).world.cell == 0) = false := beq_eq_false_iff_ne.mpr hz
    refine .of_quiet_step ?_ (acts_opening hopen)
    rw [step_opening (w := w.seek m) hh hopen, hskip]
    rfl
  exact ⟨_, hgap.quiet_advances henter, rfl, rfl, hs, fun _ => rfl,
    fun _ => .inside hmk hbody hbodyRoom
      (.loop hclose hmk hbody hbodyRoom hkq hrest hrestRoom ha)⟩

variable (memory) in
/-- At the closing bracket of a loop the walk goes back to the body or behind the loop. -/
theorem advances_closing (hiq : w.position ≤ q)
    (hgap : symbolsBetween w.code w.position q = [])
    (ha : Around w.code stop base free q frames room (.loop body b :: rest)) :
    ∃ c, (engine memory).Advances ⟨w, false, frames, room⟩ 0 c ∧
      Follows w.code stop base free c ⟨w.world,
        if w.world.cell = 0 then b :: rest else body :: .loop body b :: rest⟩ := by
  have hq := ha.le_size hstop
  have hinert := arrives_inert memory hh hgap hiq hq false frames room
  have hloop := ha
  cases ha with
  | @loop start _ next _ frames _ _ _ hclose hstart hbody hbodyRoom hnext hrest hrestRoom houter =>
    by_cases hz : w.world.cell = 0
    · have hleave : (engine memory).Advances ⟨w.seek q, false, ⟨start, false⟩ :: frames, room⟩ 0
          ⟨{ w with position := q + 1, depth := w.depth - 1 }, false, frames, room + 1⟩ :=
        .of_quiet_step (step_closing_zero (w := w.seek q) hh hz hclose _) (acts_closing hclose)
      rw [if_pos hz]
      exact ⟨_, hinert.quiet_advances hleave, rfl, rfl, hs, fun _ => rfl,
        fun _ => .inside hnext hrest hrestRoom houter⟩
    · have hagain : (engine memory).Advances ⟨w.seek q, false, ⟨start, false⟩ :: frames, room⟩ 0
          ⟨w.seek start, false, ⟨start, false⟩ :: frames, room⟩ :=
        .of_quiet_step (step_closing_again (w := w.seek q) hh hz hclose _) (acts_closing hclose)
      rw [if_neg hz]
      exact ⟨_, hinert.quiet_advances hagain, rfl, rfl, hs, fun _ => rfl,
        fun _ => .inside hstart hbody hbodyRoom hloop⟩

end Steps

variable {c : Config} {t t' : World.Config}

/-- Each step of the engine of worlds is matched by the walk, save that the end of a block is
nothing for the walk to do. -/
theorem Follows.next (hstop : stop ≤ code.size) (h : Follows code stop base free c t)
    (hstep : World.engine.step t = .next t') :
    (∃ c', (engine memory).Advances c (World.engine.acts t).toNat c' ∧
        Follows code stop base free c' t') ∨
      World.engine.acts t = false ∧ t'.todo.length < t.todo.length ∧
        Follows code stop base free c t' := by
  obtain ⟨w, skip, frames, room⟩ := c
  obtain ⟨s, todo⟩ := t
  obtain ⟨rfl, rfl, hs, hskip, hplaced⟩ := h
  dsimp only at hstop hs hskip hplaced hstep
  cases hh : w.world.halted with
  | true =>
    rw [World.step_halted hh] at hstep
    contradiction
  | false =>
    obtain rfl : skip = false := hskip hh
    cases hplaced hh with
    | inside hiq hb hd ha =>
      rename_i q b rest
      cases b with
      | nil =>
        rw [World.step_nil hh] at hstep
        cases hstep
        exact .inr ⟨rfl, Nat.lt_succ_self _, rfl, rfl, hs, hskip, fun _ => .ended hiq hb ha⟩
      | cons p b =>
        rw [World.step_cons hh] at hstep
        cases hstep
        rw [World.acts_cons hh]
        exact .inl (advances_cons hh hs hstop hb hd ha)
      | loop body b =>
        rw [World.acts_loop]
        by_cases hz : w.world.cell = 0
        · rw [World.step_pass hh hz] at hstep
          cases hstep
          exact .inl (advances_pass hh hs hstop hz hb hd ha)
        · rw [World.step_again hh hz] at hstep
          cases hstep
          exact .inl (advances_enter hh hs hstop hz hb hd ha)
    | ended hiq hgap ha =>
      have hloop := ha
      cases ha with
      | outermost =>
        rw [World.step_empty] at hstep
        contradiction
      | loop =>
        have hadv := advances_closing memory hh hs hstop hiq hgap hloop
        rw [World.acts_loop]
        by_cases hz : w.world.cell = 0
        · rw [World.step_pass hh hz] at hstep
          cases hstep
          rw [if_pos hz] at hadv
          exact .inl hadv
        · rw [World.step_again hh hz] at hstep
          cases hstep
          rw [if_neg hz] at hadv
          exact .inl hadv

/-- When nothing is left to do, the walk comes to the end of the stretch, or unwinds. -/
theorem Follows.done {r : World} (hstop : stop ≤ code.size) (h : Follows code stop base free c t)
    (hstep : World.engine.step t = .done r) :
    ∃ o, (engine memory).Arrives c (World.engine.acts t).toNat o ∧
      Comes code stop base free o r := by
  obtain ⟨w, skip, frames, room⟩ := c
  obtain ⟨s, todo⟩ := t
  obtain ⟨rfl, rfl, hs, hskip, hplaced⟩ := h
  dsimp only at hstop hs hskip hplaced hstep
  cases hh : w.world.halted with
  | true =>
    rw [World.step_halted hh] at hstep
    cases hstep
    rw [World.acts_halted hh]
    refine ⟨_, arrives_unwound (.inl hh), ?_⟩
    rw [Comes, if_pos hh]
    exact ⟨_, rfl, rfl⟩
  | false =>
    obtain rfl : skip = false := hskip hh
    obtain ⟨rfl, hr | htodo⟩ := World.step_done hstep
    · rw [hh] at hr
      contradiction
    · dsimp only at htodo
      subst htodo
      cases hplaced hh with
      | ended hiq hgap ha =>
        cases ha with
        | outermost =>
          refine ⟨_, arrives_inert memory hh hgap hiq hstop false base free, ?_⟩
          rw [Comes, hh]
          exact ⟨_, rfl, rfl, rfl, rfl, hs⟩

/-- The walk of a stretch of text that spells a block carries out the block. -/
theorem simulation (hstop : stop ≤ code.size) :
    Simulation (engine memory) World.engine (Follows code stop base free)
      (Comes code stop base free) fun t => t.todo.length where
  next := Follows.next hstop
  done := Follows.done hstop

end Walk

end TapeLang
