import TapeLang.Proofs.Parsing
import TapeLang.Proofs.WalkLoops

/-! What whole walks do. A stretch of text that is parsed is carried out as its block; behind it the
walk finishes, at the end of the text or at a closing bracket outside of all loops, or it goes on.
`Does` puts such stretches together, and says of a run that it ends with just the worlds it should,
without fault. -/

namespace TapeLang

namespace Walk

variable {memory : Memory} {w : Walk} {frames base : List Frame} {room stop free : Nat}
  {code : Array Char}

/-! ### The end of a walk -/

/-- A walk has ended with a world, without fault. -/
def Finished (o : Step Config Outcome) (s : World) : Prop :=
  ∃ w again, o = .done ⟨w, .ok again⟩ ∧ w.world = s

theorem Finished.done {o : Step Config Outcome} {s : World} (h : Finished o s) :
    ∃ r, o = .done r := by
  obtain ⟨w, again, ho, -⟩ := h
  exact ⟨_, ho⟩

/-- A stretch behind which the walk finishes is the last that is walked. -/
theorem simulation_to_finish (hstop : stop ≤ code.size)
    (hlast : ∀ w : Walk, w.code = code → w.position = stop → w.world.halted = false →
      ∃ o, (engine memory).Arrives ⟨w, false, base, free⟩ 0 o ∧ Finished o w.world) :
    Simulation (engine memory) World.engine (Follows code stop base free) Finished
      fun t => t.todo.length := by
  refine (simulation hstop).extend fun o s hcomes => ?_
  unfold Comes at hcomes
  split at hcomes
  · obtain ⟨w, ho, hw⟩ := hcomes
    exact .inl ⟨w, false, ho, hw⟩
  · rename_i hh
    obtain ⟨w, rfl, hcode, hpos, rfl, -⟩ := hcomes
    obtain ⟨o, ho, hfinished⟩ := hlast w hcode hpos (Bool.eq_false_iff.mpr hh)
    exact .inr ⟨_, o, rfl, ho, hfinished⟩

/-- At the end of the text the walk finishes, whatever loops it is in. -/
theorem simulation_to_end (hstop : stop = code.size) :
    Simulation (engine memory) World.engine (Follows code stop base free) Finished
      fun t => t.todo.length := by
  refine simulation_to_finish (Nat.le_of_eq hstop) fun w hcode hpos _ => ?_
  have hend : w.Stuck := .inr (Nat.le_of_eq (by rw [hcode, hpos, hstop]))
  exact ⟨_, arrives_unwound hend, _, _, rfl, rfl⟩

/-- Outside of all loops it finishes at a closing bracket. -/
theorem simulation_to_closing (hclose : code[stop]? = some Symbol.closing.toChar) :
    Simulation (engine memory) World.engine (Follows code stop [] free) Finished
      fun t => t.todo.length := by
  obtain ⟨hlt, -⟩ := Array.getElem?_eq_some_iff.mp hclose
  refine simulation_to_finish (Nat.le_of_lt hlt) fun w hcode hpos hh => ?_
  rw [← hcode, ← hpos] at hclose
  exact ⟨_, .of_quiet_step (step_closing hh hclose) (acts_closing hclose), _, _, rfl, rfl⟩

theorem symbolsBetween_of_parse {first behind : List Char} {p : Program}
    (htext : w.code.toList.drop w.position = first ++ behind) (hp : Program.parse first = .ok p) :
    symbolsBetween w.code w.position (w.position + first.length) =
      (p.block.map Op.prim).spelling := by
  rw [symbolsBetween, List.drop_take, Nat.add_sub_cancel_left, htext, List.take_left,
    Program.spelling_of_parse hp]

theorem follows_text {first behind : List Char} {p : Program}
    (htext : w.code.toList.drop w.position = first ++ behind) (hp : Program.parse first = .ok p)
    (hroom : p.depth ≤ room) (hs : w.world.Sound) (frames : List Frame) :
    Follows w.code (w.position + first.length) frames room ⟨w, false, frames, room⟩
      ⟨w.world, [p.block.map Op.prim]⟩ where
  text := rfl
  world := rfl
  sound := hs
  skip _ := rfl
  placed _ := .inside (Nat.le_add_right _ _) (symbolsBetween_of_parse htext hp)
    (Program.depth_of_parse hp ▸ hroom) .outermost

theorem sound_start (text : List Char) (reader : Reader) (writer : Writer) :
    (start text reader writer).world.Sound := by
  show (0 : Int) < 1
  decide

/-- The walk from `c` finishes with just the worlds that `P` allows, and never with a fault. -/
structure Does (memory : Memory) (c : Config) (P : World → Prop) : Prop where
  sound : ∀ {k o}, (engine memory).after k c = .done o → ∃ s, P s ∧ Finished (.done o) s
  complete : ∀ {s}, P s → ∃ k o, (engine memory).after k c = .done o ∧ Finished (.done o) s

namespace Does

variable {c c' : Config} {P Q : World → Prop} {s : World} {n : Nat} {b : Block Prim}

theorem congr (h : Does memory c P) (hPQ : ∀ s, P s ↔ Q s) : Does memory c Q := by
  have hfun : P = Q := funext fun s => propext (hPQ s)
  exact hfun ▸ h

theorem of_next (h : (engine memory).Arrives c n (.next c')) (hP : Does memory c' P) :
    Does memory c P where
  sound hk := by
    obtain ⟨k, hk'⟩ := h.done_iff.mp ⟨_, hk⟩
    exact hP.sound hk'
  complete hs := by
    obtain ⟨k, o, hk, hfinished⟩ := hP.complete hs
    obtain ⟨k', hk'⟩ := h.done_iff.mpr ⟨k, hk⟩
    exact ⟨k', o, hk', hfinished⟩

theorem of_done {o : Outcome} (h : (engine memory).Arrives c n (.done o))
    (hs : Finished (.done o) s) : Does memory c (· = s) where
  sound hk := by
    obtain ⟨j, hj, -⟩ := h
    cases Engine.done_unique hk hj
    exact ⟨s, rfl, hs⟩
  complete hs' := by
    obtain ⟨j, hj, -⟩ := h
    exact ⟨j, o, hj, hs' ▸ hs⟩

/-- A walk that is followed to its end does what the block does. -/
theorem of_simulation {R : Config → World.Config → Prop} {size : World.Config → Nat}
    (h : Simulation (engine memory) World.engine R Finished size) (hR : R c ⟨s, [b]⟩) :
    Does memory c (Executes b s) where
  sound hk := by
    obtain ⟨j, s', hj, hfinished⟩ := h.done_matched (fun _ _ => Finished.done) hR hk
    exact ⟨s', World.executes_iff.mpr ⟨j, hj⟩, hfinished⟩
  complete hs' := by
    obtain ⟨j, hj⟩ := World.executes_iff.mp hs'
    exact h.exists_done (fun _ _ => Finished.done) hR hj

/-- A walk of a stretch does what the block of the stretch does and, unless that has halted it, what
it does from the end of the stretch on. -/
theorem of_stretch {Q : World → World → Prop} (hstop : stop ≤ code.size)
    (hR : Follows code stop base free c ⟨s, [b]⟩)
    (hQ : ∀ w : Walk, w.code = code → w.position = stop → w.world.halted = false → w.world.Sound →
      Does memory ⟨w, false, base, free⟩ (Q w.world)) :
    Does memory c fun s' => ∃ t, Executes b s t ∧ if t.halted then s' = t else Q t s' := by
  have hstretch : ∀ t, Executes b s t →
      Does memory c fun s' => if t.halted then s' = t else Q t s' := by
    intro t ht
    obtain ⟨j, hj⟩ := World.executes_iff.mp ht
    obtain ⟨o, ho, hcomes⟩ := (simulation hstop).arrives_done hR hj
    unfold Comes at hcomes
    split at hcomes
    · rename_i hh
      obtain ⟨w, rfl, hw⟩ := hcomes
      exact (of_done ho ⟨w, false, rfl, hw⟩).congr fun s' => by rw [if_pos hh]
    · rename_i hh
      obtain ⟨w, rfl, hcode, hpos, rfl, hs⟩ := hcomes
      exact (of_next ho (hQ w hcode hpos (Bool.eq_false_iff.mpr hh) hs)).congr fun s' => by
        rw [if_neg hh]
  refine ⟨fun hk => ?_, fun ⟨t, ht, hs'⟩ => (hstretch t ht).complete hs'⟩
  obtain ⟨j, t, hj⟩ := (simulation hstop).done_of_done hR hk
  have ht := World.executes_iff.mpr ⟨j, hj⟩
  obtain ⟨s', hs', hfinished⟩ := (hstretch t ht).sound hk
  exact ⟨s', ⟨t, ht, hs'⟩, hfinished⟩

end Does

/-! ### Runs -/

/-- The walk of a text, with room for a number of nested loops, ends with the world `s` and without
fault. -/
def EndsWith (memory : Memory) (text : List Char) (room : Nat) (reader : Reader) (writer : Writer)
    (s : World) : Prop :=
  ∃ fuel w, (start text reader writer).run memory room fuel = some (w, none) ∧ w.world = s

theorem run_eq_some_iff {fuel : Nat} {r : Walk × Option Fault} :
    w.run memory room fuel = some r ↔
      ∃ o, (engine memory).after fuel ⟨w, false, [], room⟩ = .done o ∧ finish o = r := by
  rw [run, body, Option.map_eq_some_iff]
  exact exists_congr fun o => and_congr_left fun _ => (engine memory).runFor_eq_some_iff

/-- A run that has ended without fault leaves the world of the walk, with the output flushed. -/
theorem finish_of_finished {o : Outcome} {s : World} (h : Finished (.done o) s) :
    (finish o).2 = none ∧ (finish o).1.world = s.flushed := by
  obtain ⟨w, again, hw, rfl⟩ := h
  cases hw
  exact ⟨rfl, rfl⟩

namespace Does

variable {P : World → Prop}

theorem run_eq_some {fuel : Nat} {w' : Walk} {fault : Option Fault}
    (h : Does memory ⟨w, false, [], room⟩ P) (hrun : w.run memory room fuel = some (w', fault)) :
    fault = none ∧ ∃ s, P s ∧ w'.world = s.flushed := by
  obtain ⟨o, ho, hfinish⟩ := run_eq_some_iff.mp hrun
  obtain ⟨s, hs, hfinished⟩ := h.sound ho
  obtain ⟨hnone, hworld⟩ := finish_of_finished hfinished
  rw [hfinish] at hnone hworld
  exact ⟨hnone, s, hs, hworld⟩

theorem endsWith_iff {text : List Char} {reader : Reader} {writer : Writer} {s : World}
    (h : Does memory ⟨start text reader writer, false, [], room⟩ P) :
    EndsWith memory text room reader writer s ↔ ∃ s', P s' ∧ s = s'.flushed := by
  constructor
  · rintro ⟨fuel, w, hrun, rfl⟩
    exact (h.run_eq_some hrun).2
  · rintro ⟨s', hs', rfl⟩
    obtain ⟨k, o, hk, hfinished⟩ := h.complete hs'
    obtain ⟨hnone, hworld⟩ := finish_of_finished hfinished
    exact ⟨k, (finish o).1, run_eq_some_iff.mpr ⟨o, hk, Prod.ext rfl hnone⟩, hworld⟩

end Does

end Walk

end TapeLang
