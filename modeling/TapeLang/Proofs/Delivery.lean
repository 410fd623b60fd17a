import TapeLang.Proofs.ScriptMachine
import TapeLang.Proofs.WalkMachine

/-! What a text delivers, in each of the three ways to run it. A program that completes on a machine
and leaves it cleared does so as well when its text is walked, and when it is written as a
script. -/

namespace TapeLang

/-- A machine of capacity `C` that is left with zero cells and the pointer at the start, and that
has written `bytes`. -/
structure Machine.Cleared (C : Nat) (writer : Writer) (bytes : List UInt8) (m : Machine) :
    Prop where
  pointer : m.pointer = 0
  cells : m.cells = Array.replicate C 0
  output : m.writer.output = writer.output ++ bytes.toArray

/-- A text that writes `bytes` and leaves zero cells, whether it is walked, prepared for a tape of
capacity `C`, or written as a script for one; and where the host has the tape, it is run there. -/
structure Delivers (host : Host) (text : List Char) (C : Nat) (reader : Reader) (writer : Writer)
    (bytes : List UInt8) : Prop where
  walk : ∃ s, Walk.EndsWith host.memory text host.walkRoom reader writer s ∧ s.halted = false ∧
    s.tape.pointer = 0 ∧ (∀ c ∈ s.tape.cells, c = 0) ∧
    s.writer.output = writer.output ++ bytes.toArray
  machine : ∃ p m, (Prepared.ofText host.blockRoom C text).result = .ok p ∧
    p.EndsWith reader writer ⟨m, .completed⟩ ∧
    (host.memory.HasTape C →
      ∃ fuel, p.run host.memory fuel reader writer = .ok (some ⟨m, .completed⟩)) ∧
    m.Cleared C writer bytes
  script : ∃ program m, (Script.ofText text).result = .ok program ∧
    Script.EndsWith C program.block reader writer ⟨m, .returned⟩ ∧
    (host.memory.HasTape C → ∃ fuel,
      Script.runProgram host.memory fuel C program reader writer = .ok (some ⟨m, .returned⟩)) ∧
    m.Cleared C writer bytes

namespace Delivers

variable {host : Host} {text : List Char} {program : Program} {C : Nat} {reader : Reader}
  {writer : Writer} {bytes : List UInt8} {m : Machine}

theorem walk_of_mirrors {s : World} (h : Mirrors C s m) (hm : m.Cleared C writer bytes) :
    s.tape.pointer = 0 ∧ (∀ c ∈ s.tape.cells, c = 0) ∧
      s.writer.output = writer.output ++ bytes.toArray := by
  refine ⟨h.pointer ▸ hm.pointer, fun c hc => ?_, h.writer ▸ hm.output⟩
  obtain ⟨i, hi, rfl⟩ := Array.mem_iff_getElem.mp hc
  have hiC : i < C := Nat.lt_of_lt_of_le hi h.size
  have hcell := h.cells i hiC
  rw [hm.cells] at hcell
  simpa [Tape.get, hi, hiC] using hcell.symm

/-- A program that completes on a machine and leaves it cleared does so in the other two ways. -/
theorem of_prepared (hp : Program.parse text = .ok program) (hroom : program.depth ≤ host.walkRoom)
    (hblock : program.depth ≤ host.blockRoom) (hd : program.depth ≤ Script.depthLimit) (hC : 1 ≤ C)
    (h : Prepared.EndsWith ⟨program, C⟩ reader writer ⟨m, .completed⟩)
    (hm : m.Cleared C writer bytes) : Delivers host text C reader writer bytes where
  walk := by
    obtain ⟨s, hs, hhalted, hmirrors⟩ := Walk.endsWith_of_completed hp hroom hC h
    exact ⟨s, hs, hhalted, walk_of_mirrors hmirrors hm⟩
  machine := by
    refine ⟨⟨program, C⟩, m, ?_, h, fun htape => ?_, hm⟩
    · simp only [Prepared.ofText, Program.ofText, hp, if_neg (Nat.not_lt.mpr hblock)]
    · exact (Prepared.endsWith_iff_run (p := ⟨program, C⟩) htape).mp h
  script := by
    have hscript : Script.EndsWith C program.block reader writer ⟨m, .returned⟩ :=
      (Script.endsWith_of_prepared hC h).1
    refine ⟨program, m, ?_, hscript, fun htape => ?_, hm⟩
    · simp only [Script.ofText, Program.ofText, hp, if_neg (Nat.not_lt.mpr hd)]
    · exact (Script.endsWith_iff_run htape).mp hscript

end Delivers

end TapeLang
