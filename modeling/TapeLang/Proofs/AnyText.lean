import TapeLang.Proofs.Brackets
import TapeLang.Proofs.WalkRuns

/-! What a walk does with any text, whether its brackets match or not. An unmatched closing bracket
ends the walk. An unmatched opening bracket is passed once, when the cell is not zero, and otherwise
nothing behind it has an effect: in skip mode the walk goes through all the rest of the text. -/

namespace TapeLang

/-- A text that can be parsed leads from one world to another. -/
def CarriesOut (text : List Char) (s s' : World) : Prop :=
  ∃ p, Program.parse text = .ok p ∧ Executes (p.block.map Op.prim) s s'

/-- What texts do in turn when all but the first stand behind an unmatched opening bracket: such a
text is carried out once, unless the run has been halted or the cell at its bracket is zero. Then
the run stops. -/
def CarriesOutAll : List Char → List (List Char) → World → World → Prop
  | first, [], s, s' => CarriesOut first s s'
  | first, next :: rest, s, s' => ∃ t, CarriesOut first s t ∧
      if t.halted then s' = t else if t.cell = 0 then s' = t else CarriesOutAll next rest t s'

theorem carriesOut_iff {text : List Char} {p : Program} (hp : Program.parse text = .ok p)
    {s s' : World} : CarriesOut text s s' ↔ Executes (p.block.map Op.prim) s s' := by
  constructor
  · rintro ⟨p', hp', hs⟩
    cases hp.symm.trans hp'
    exact hs
  · exact fun hs => ⟨p, hp, hs⟩

theorem drop_behind {code : Array Char} {i : Nat} {a b : List Char} {c : Char}
    (h : code.toList.drop i = a ++ c :: b) :
    code[i + a.length]? = some c ∧ code.toList.drop (i + a.length + 1) = b := by
  have hdrop : code.toList.drop (i + a.length) = c :: b := by
    rw [← List.drop_drop, h, List.drop_left]
  constructor
  · have := congrArg List.head? hdrop
    rwa [List.head?_drop, Array.getElem?_toList] at this
  · rw [← List.drop_drop, hdrop]
    rfl

namespace Walk

variable {memory : Memory} {w : Walk} {frames : List Frame} {room : Nat}
  {first behind : List Char} {rest : List (List Char)}

theorem end_le_size (hpos : w.position ≤ w.code.size)
    (htext : w.code.toList.drop w.position = first ++ behind) :
    w.position + first.length ≤ w.code.size := by
  have := congrArg List.length htext
  simp only [List.length_drop, List.length_append, Array.length_toList] at this
  omega

theorem end_eq_size (hpos : w.position ≤ w.code.size)
    (htext : w.code.toList.drop w.position = first) : w.position + first.length = w.code.size := by
  have := congrArg List.length htext
  simp only [List.length_drop, Array.length_toList] at this
  omega

theorem lt_size {c : Char} {i : Nat} (h : w.code[i]? = some c) : i < w.code.size :=
  (Array.getElem?_eq_some_iff.mp h).1

/-- An opening bracket is passed, and what stands behind it is skipped when the cell is zero. -/
theorem arrives_opening (memory : Memory) (hh : w.world.halted = false)
    (hopen : w.code[w.position]? = some '[') (skip : Bool) (frames : List Frame) (room : Nat) :
    (engine memory).Arrives ⟨w, skip, frames, room + 1⟩ 0
      (.next ⟨w.entered, w.world.cell == 0, ⟨w.position + 1, skip⟩ :: frames, room⟩) :=
  .of_quiet_step (step_opening hh hopen) (acts_opening hopen)

/-! ### Skip mode -/

theorem arrives_skipped_text (hh : w.world.halted = false) (hz : w.world.cell = 0)
    (hpos : w.position ≤ w.code.size) (htext : w.code.toList.drop w.position = first ++ behind)
    {p : Program} (hp : Program.parse first = .ok p) (hroom : p.depth ≤ room)
    (frames : List Frame) :
    ∃ w', (engine memory).Arrives ⟨w, true, frames, room⟩ 0 (.next ⟨w', true, frames, room⟩) ∧
      w'.code = w.code ∧ w'.position = w.position + first.length ∧ w'.world = w.world := by
  obtain ⟨M, hskip⟩ := arrives_skipped hh hz (symbolsBetween_of_parse htext hp)
    (Nat.le_add_right _ _) (end_le_size hpos htext) frames (Program.depth_of_parse hp ▸ hroom)
  exact ⟨_, hskip, rfl, rfl, rfl⟩

/-- In skip mode the rest of a text with unmatched opening brackets has no effect. -/
theorem arrives_skipped_all (hh : w.world.halted = false) (hz : w.world.cell = 0)
    (hpos : w.position ≤ w.code.size)
    (htext : w.code.toList.drop w.position = first ++ rest.flatMap ('[' :: ·))
    (hb : ∀ b ∈ first :: rest, Balanced b) (hroom : Shallow room (first ++ rest.flatMap ('[' :: ·)))
    (frames : List Frame) :
    ∃ w', (engine memory).Arrives ⟨w, true, frames, room⟩ 0 (.done ⟨w', .ok false⟩) ∧
      w'.world = w.world := by
  induction rest generalizing w first frames room with
  | nil =>
    obtain ⟨p, hp, hdepth⟩ := (hb first List.mem_cons_self).parse hroom.left
    obtain ⟨w', hskip, hcode, hposition, hworld⟩ :=
      arrives_skipped_text hh hz hpos htext hp hdepth frames
    rw [List.flatMap_nil, List.append_nil] at htext
    have hend : w'.Stuck :=
      .inr (Nat.le_of_eq (by rw [hcode, hposition, end_eq_size hpos htext]))
    exact ⟨_, hskip.quiet (arrives_unwound hend), hworld⟩
  | cons next rest ih =>
    rw [List.forall_mem_cons] at hb
    rw [List.flatMap_cons, List.cons_append] at htext hroom
    obtain ⟨p, hp, hdepth⟩ := hb.1.parse hroom.left
    obtain ⟨w', hskip, hcode, hposition, hworld⟩ :=
      arrives_skipped_text hh hz hpos htext hp hdepth frames
    obtain ⟨hopen, hbehind⟩ := drop_behind htext
    rw [← hcode, ← hposition] at hopen hbehind
    obtain ⟨room, rfl, hinner⟩ := hroom.right hb.1.2
    rw [← hworld] at hh hz
    -- The cell is still zero, so the loop is entered in skip mode too.
    have henter := arrives_opening memory hh hopen true frames room
    rw [beq_iff_eq.mpr hz] at henter
    obtain ⟨w'', hdone, hworld'⟩ := ih (w := w'.entered) hh hz (lt_size hopen) hbehind hb.2 hinner
      (⟨w'.position + 1, true⟩ :: frames)
    exact ⟨w'', hskip.quiet (henter.quiet hdone), hworld'.trans hworld⟩

/-! ### The whole of a text -/

/-- A walk before a text with unmatched opening brackets does what its pieces do. -/
theorem does_all (hpos : w.position ≤ w.code.size)
    (htext : w.code.toList.drop w.position = first ++ rest.flatMap ('[' :: ·))
    (hb : ∀ b ∈ first :: rest, Balanced b) (hroom : Shallow room (first ++ rest.flatMap ('[' :: ·)))
    (hs : w.world.Sound) (frames : List Frame) :
    Does memory ⟨w, false, frames, room⟩ (CarriesOutAll first rest w.world) := by
  induction rest generalizing w first frames room with
  | nil =>
    obtain ⟨p, hp, hdepth⟩ := (hb first List.mem_cons_self).parse hroom.left
    have hfollows := follows_text htext hp hdepth hs frames
    rw [List.flatMap_nil, List.append_nil] at htext
    exact (Does.of_simulation (simulation_to_end (end_eq_size hpos htext)) hfollows).congr
      fun s => (carriesOut_iff hp).symm
  | cons next rest ih =>
    rw [List.forall_mem_cons] at hb
    rw [List.flatMap_cons, List.cons_append] at htext hroom
    obtain ⟨p, hp, hdepth⟩ := hb.1.parse hroom.left
    obtain ⟨hopen, hbehind⟩ := drop_behind htext
    have hfollows := follows_text htext hp hdepth hs frames
    obtain ⟨room, rfl, hinner⟩ := hroom.right hb.1.2
    have hnext : ∀ w' : Walk, w'.code = w.code → w'.position = w.position + first.length →
        w'.world.halted = false → w'.world.Sound →
        Does memory ⟨w', false, frames, room + 1⟩ fun s' =>
          if w'.world.cell = 0 then s' = w'.world else CarriesOutAll next rest w'.world s' := by
      intro w' hcode hposition hh hs
      rw [← hcode, ← hposition] at hopen hbehind
      have henter := arrives_opening memory hh hopen false frames room
      by_cases hz : w'.world.cell = 0
      · rw [beq_iff_eq.mpr hz] at henter
        obtain ⟨w'', hdone, hworld⟩ := arrives_skipped_all (w := w'.entered) hh hz (lt_size hopen)
          hbehind hb.2 hinner (⟨w'.position + 1, false⟩ :: frames)
        refine (Does.of_done (henter.quiet hdone) ⟨w'', false, rfl, hworld⟩).congr fun s' => ?_
        rw [if_pos hz]
        rfl
      · rw [beq_eq_false_iff_ne.mpr hz] at henter
        refine (Does.of_next henter (ih (w := w'.entered) (lt_size hopen) hbehind hb.2 hinner hs
          (⟨w'.position + 1, false⟩ :: frames))).congr fun s' => ?_
        rw [if_neg hz]
        rfl
    refine (Does.of_stretch
      (Q := fun t s' => if t.cell = 0 then s' = t else CarriesOutAll next rest t s')
      (end_le_size hpos htext) hfollows hnext).congr fun s' => ?_
    simp only [CarriesOutAll, carriesOut_iff hp]

section Texts

variable {text : List Char}

/-- The walk of a text without unmatched closing brackets does what its pieces do. -/
theorem does_of_closingsMatched (memory : Memory) (htext : text = first ++ rest.flatMap ('[' :: ·))
    (hb : ∀ b ∈ first :: rest, Balanced b) (hroom : Shallow room text) (reader : Reader)
    (writer : Writer) :
    Does memory ⟨start text reader writer, false, [], room⟩
      (CarriesOutAll first rest ⟨{}, reader, writer⟩) :=
  does_all (w := start text reader writer) (Nat.zero_le _) htext hb (htext ▸ hroom)
    (sound_start text reader writer) []

/-- The walk of a text with an unmatched closing bracket does what stands before the first one. -/
theorem does_of_firstUnmatched (memory : Memory) {p : Nat} (h : FirstUnmatched text p)
    (hroom : Shallow room text) (reader : Reader) (writer : Writer) :
    Does memory ⟨start text reader writer, false, [], room⟩
      (CarriesOut (text.take p) ⟨{}, reader, writer⟩) := by
  obtain ⟨hclose, hbalanced⟩ := h.spec
  obtain ⟨hlt, -⟩ := List.getElem?_eq_some_iff.mp hclose
  have htext : text = text.take p ++ text.drop p := (List.take_append_drop p text).symm
  have hlen : 0 + (text.take p).length = p := by
    rw [Nat.zero_add, List.length_take_of_le (Nat.le_of_lt hlt)]
  obtain ⟨program, hp, hdepth⟩ := hbalanced.parse (htext ▸ hroom).left
  have hfollows := follows_text (w := start text reader writer) htext hp hdepth
    (sound_start text reader writer) []
  have hstop : (start text reader writer).code[0 + (text.take p).length]? =
      some Symbol.closing.toChar := by
    rw [hlen]
    exact (List.getElem?_toArray ..).trans hclose
  exact (Does.of_simulation (simulation_to_closing hstop) hfollows).congr
    fun s => (carriesOut_iff hp).symm

theorem does_of_balanced (memory : Memory) (hb : Balanced text) (hroom : Shallow room text)
    (reader : Reader) (writer : Writer) :
    Does memory ⟨start text reader writer, false, [], room⟩
      (CarriesOut text ⟨{}, reader, writer⟩) := by
  have htext : text = text ++ ([] : List (List Char)).flatMap ('[' :: ·) := by simp
  exact does_of_closingsMatched memory htext (by simpa using hb) hroom reader writer

/-- The walk of any text ends at its first unmatched closing bracket; without one it carries out the
balanced texts between the unmatched opening brackets in turn, until one halts it or the cell is
zero at the next of these brackets. -/
theorem walk_any_text (memory : Memory) (text : List Char) (hroom : Shallow room text)
    (reader : Reader) (writer : Writer) :
    (¬ ClosingsMatched text → ∃ p, FirstUnmatched text p ∧ Balanced (text.take p) ∧
      ∀ s, EndsWith memory text room reader writer s ↔
        EndsWith memory (text.take p) room reader writer s) ∧
    (ClosingsMatched text → ∃ first rest,
      (text = first ++ rest.flatMap ('[' :: ·) ∧ ∀ b ∈ first :: rest, Balanced b) ∧
      (∀ first' rest', text = first' ++ rest'.flatMap ('[' :: ·) →
        (∀ b ∈ first' :: rest', Balanced b) → first' = first ∧ rest' = rest) ∧
      ∀ s, EndsWith memory text room reader writer s ↔
        ∃ s', CarriesOutAll first rest ⟨{}, reader, writer⟩ s' ∧ s = s'.flushed) ∧
    ∀ fuel w fault,
      (start text reader writer).run memory room fuel = some (w, fault) → fault = none := by
  by_cases h : ClosingsMatched text
  · obtain ⟨first, rest, htext, hb⟩ := exists_split h
    have hdoes := does_of_closingsMatched memory htext hb hroom reader writer
    refine ⟨absurd h, fun _ => ⟨first, rest, ⟨htext, hb⟩, fun first' rest' htext' hb' => ?_,
      fun s => hdoes.endsWith_iff⟩, fun fuel w fault hrun => (hdoes.run_eq_some hrun).1⟩
    exact split_unique hb' hb (htext'.symm.trans htext)
  · obtain ⟨p, hp⟩ := exists_firstUnmatched h
    have hdoes := does_of_firstUnmatched memory hp hroom reader writer
    have hbalanced := hp.spec.2
    have hprefix : Shallow room (text.take p) := (List.take_append_drop p text ▸ hroom).left
    have hdoes' := does_of_balanced memory hbalanced hprefix reader writer
    refine ⟨fun _ => ⟨p, hp, hbalanced, fun s => ?_⟩, fun h' => absurd h' h,
      fun fuel w fault hrun => (hdoes.run_eq_some hrun).1⟩
    rw [hdoes.endsWith_iff, hdoes'.endsWith_iff]

/-- A text with two unmatched opening brackets, both of which are passed. -/
theorem walk_any_text_open :
    Shallow 2 "+[.[-".toList ∧ ∃ first rest, "+[.[-".toList = first ++ rest.flatMap ('[' :: ·) ∧
      (∀ b ∈ first :: rest, Balanced b) ∧
      ∃ s, CarriesOutAll first rest {} s ∧ s.tape = {} ∧ s.writer.output = #[1] := by
  have hroom : Shallow 2 "+[.[-".toList := by decide
  have hclosings : ClosingsMatched "+[.[-".toList := by decide
  obtain ⟨first, rest, ⟨htext, hb⟩, -, hends⟩ :=
    (walk_any_text (.below 2) _ hroom {} {}).2.1 hclosings
  have hend : EndsWith (.below 2) "+[.[-".toList 2 {} {} ⟨{}, {}, ⟨#[1], 1, false⟩⟩ :=
    ⟨20, _, rfl, rfl⟩
  obtain ⟨s, hs, heq⟩ := (hends _).mp hend
  refine ⟨hroom, first, rest, htext, hb, s, hs, ?_, ?_⟩
  · exact (congrArg World.tape heq).symm
  · exact (congrArg (·.writer.output) heq).symm

end Texts

end Walk

end TapeLang
