import TapeLang.Proofs.BlockLayout
import TapeLang.Proofs.WalkMachine

/-! Blocks that were not parsed. A block with deltas of any size is written as a text, compiled for
a machine and laid out as statements, and each of the three looks at the deltas on its own. They
agree: what the block does on a machine is what its text does, prepared or walked, and its lines are
those of the block that its text is parsed to. -/

namespace TapeLang

variable {memory : Memory} {text : List Char} {program : Program} {b : Block Op}
  {C room depth size : Nat} {reader : Reader} {writer : Writer} {e : Machine.Ended}

namespace Prepared

/-- A block and the block that its text is parsed to are carried out alike. -/
theorem code_of_parse_source (hp : Program.parse b.source = .ok program) (depth size C : Nat) :
    code ⟨⟨b, depth, size⟩, C⟩ = code ⟨program, C⟩ := by
  cases (Program.parse_source b).symm.trans hp
  exact (Block.map_prim_map_unit b).symm

theorem endsWith_of_parse_source (hp : Program.parse b.source = .ok program) :
    EndsWith ⟨⟨b, depth, size⟩, C⟩ reader writer e ↔ EndsWith ⟨program, C⟩ reader writer e := by
  rw [EndsWith, EndsWith, code_of_parse_source hp]

theorem run_of_parse_source (hp : Program.parse b.source = .ok program) (fuel : Nat) :
    run memory fuel ⟨⟨b, depth, size⟩, C⟩ reader writer =
      run memory fuel ⟨program, C⟩ reader writer := by
  rw [run, run, code_of_parse_source hp]

/-- A prepared program does not run past the end of its tape. -/
def Fits (p : Prepared) (reader : Reader) (writer : Writer) : Prop :=
  ∀ m position capacity, ¬ p.EndsWith reader writer ⟨m, .overflow position capacity⟩

theorem EndsWith.fits {p : Prepared} (h : p.EndsWith reader writer e)
    (hend : e.ending = .completed ∨ e.ending = .halted) : p.Fits reader writer := by
  intro m position capacity hover
  cases h.unique hover
  rcases hend with hend | hend <;> contradiction

/-- Where the program fits on its tape, the walk of its text never comes to the end of that tape. -/
theorem Fits.pointer_lt (h : Fits ⟨program, C⟩ reader writer)
    (hp : Program.parse text = .ok program) (hroom : program.depth ≤ room) (hC : 1 ≤ C) (n : Nat)
    (s : World) (hs : Walk.Shows memory text room reader writer n s) : s.tape.pointer < C := by
  rw [Walk.shows_iff hp hroom] at hs
  obtain ⟨_, ⟨j, rfl, -⟩, rfl⟩ := hs
  rcases Together.within_or_leaves (Together.within_start hC) j with hw | ⟨i, -, hw, hout⟩
  · exact hw j (Nat.le_refl j)
  · -- The step that leads out of the capacity overflows the machine.
    obtain ⟨m, hm, -⟩ :=
      (Together.start hC (program.block.map Op.prim) reader writer).after_overflow hw hout
    exact (h _ C C (endsWith_iff_after.mpr ⟨i + 1, _, hm, rfl⟩)).elim

end Prepared

/-- A block means what its text means, whatever its deltas: the text is parsed to a program that
runs as the block does and has its lines, and where the block does not overflow its tape, the walk
of the text ends with what the block ends with. -/
theorem block_means_source (memory : Memory) (b : Block Op) (depth size : Nat) (hC : 1 ≤ C)
    (hroom : b.depth ≤ room) (reader : Reader) (writer : Writer) :
    ∃ program, Program.parse b.source = .ok program ∧
      (∀ blockRoom, b.depth ≤ blockRoom →
        (Prepared.ofText blockRoom C b.source).result = .ok ⟨program, C⟩) ∧
      (∀ fuel, Prepared.run memory fuel ⟨⟨b, depth, size⟩, C⟩ reader writer =
        Prepared.run memory fuel ⟨program, C⟩ reader writer) ∧
      (∀ e, Prepared.EndsWith ⟨⟨b, depth, size⟩, C⟩ reader writer e ↔
        Prepared.EndsWith ⟨program, C⟩ reader writer e) ∧
      (Prepared.Fits ⟨⟨b, depth, size⟩, C⟩ reader writer →
        (∀ e, Prepared.EndsWith ⟨⟨b, depth, size⟩, C⟩ reader writer e →
          ∃ s, Walk.EndsWith memory b.source room reader writer s ∧
            e.ending = Together.endingOf s ∧ Mirrors C s e.machine) ∧
        ∀ s, Walk.EndsWith memory b.source room reader writer s →
          ∃ m, Prepared.EndsWith ⟨⟨b, depth, size⟩, C⟩ reader writer ⟨m, Together.endingOf s⟩ ∧
            Mirrors C s m) ∧
      ∀ level : Int, Suite.blockLines memory level b =
        Suite.blockLines memory level program.block := by
  have hp := Program.parse_source b
  refine ⟨_, hp, fun blockRoom hd => ?_, Prepared.run_of_parse_source hp,
    fun e => Prepared.endsWith_of_parse_source hp, fun hfits => ?_, fun level => ?_⟩
  · simp only [Prepared.ofText, Program.ofText, hp, if_neg (Nat.not_lt.mpr hd)]
  · simp only [Prepared.Fits, Prepared.endsWith_of_parse_source hp] at hfits ⊢
    have hB : ∀ n s, Walk.Shows memory b.source room reader writer n s → s.tape.pointer < C :=
      Prepared.Fits.pointer_lt hfits hp hroom hC
    exact ⟨fun e => Walk.ends_of_prepared hp hroom hC hB,
      fun s => Prepared.ends_of_walk hp hroom hC hB⟩
  · rw [Suite.blockLines, Suite.blockLines, Suite.ofBlock_map_unit]

/-- A block that goes down by a delta of zero and left by one of three, and halts inside a loop. -/
theorem block_means_source_halt :
    ∃ program, Program.parse "-[.<]".toList = .ok program ∧
      Prepared.EndsWith ⟨program, 1⟩ {} {} ⟨⟨#[255], -1, {}, ⟨#[255], 1, false⟩⟩, .halted⟩ ∧
      (∃ s, Walk.EndsWith (.below 9) "-[.<]".toList 1 {} {} s ∧ s.halted = true ∧
        s.writer.output = #[255]) ∧
      Suite.blockLines (.below 9) 2
          (.cons (.add 0) (.loop (.cons .output (.cons (.move (-3)) .nil)) .nil)) =
        Suite.blockLines (.below 9) 2 program.block := by
  have hsource : Block.source
      (.cons (.add 0) (.loop (.cons .output (.cons (.move (-3)) .nil)) .nil)) =
        "-[.<]".toList := by decide
  have hend : Prepared.EndsWith
      ⟨⟨.cons (.add 0) (.loop (.cons .output (.cons (.move (-3)) .nil)) .nil), 0, 0⟩, 1⟩ {} {}
      ⟨⟨#[255], -1, {}, ⟨#[255], 1, false⟩⟩, .halted⟩ := ⟨9, by decide⟩
  obtain ⟨program, hparse, -, -, hsame, hwalk, hlines⟩ := block_means_source (.below 9)
    (.cons (.add 0) (.loop (.cons .output (.cons (.move (-3)) .nil)) .nil)) 0 0 (Nat.le_refl 1)
    (Nat.le_refl 1) {} {}
  rw [hsource] at hparse hwalk
  obtain ⟨s, hs, hending, hmirrors⟩ := (hwalk (hend.fits (.inr rfl))).1 _ hend
  have hhalted : s.halted = true := by
    rw [World.halted_iff, ← hmirrors.pointer]
    decide
  exact ⟨program, hparse, (hsame _).mp hend,
    ⟨s, hs, hhalted, (congrArg Writer.output hmirrors.writer).symm⟩, hlines 2⟩

end TapeLang
