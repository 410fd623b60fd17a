import TapeLang.TextRun
import TapeLang.Proofs.Delivery
import TapeLang.Proofs.Flushing
import TapeLang.Proofs.Slate
import TapeLang.Proofs.TextBytes

/-! Texts that are fed to a program. The program `,+[-.,+]` writes every byte it reads, up to the
first 255; since no other code point has that byte among its own, a text that carries no bytes comes
back as it is, up to the first code point that is written as 255. -/

namespace TapeLang

namespace TextRun

open Text

variable {host : Host} {env : Environment} {chosen : Option String} {name : String}
  {s : Encoding.Charset} {code : List Char} {data result : List CodePoint}
  {bytes out : List UInt8} {C : Nat}

theorem input_eq {codecs : Encoding.Codecs} (hname : Encoding.Denotes codecs name s)
    (hchosen : chosen.getD (Settings.encodingName env) = name)
    (hdata : Encoding.encode codecs name data = .ok bytes) :
    input codecs env chosen data = .ok (name, bytes) := by
  cases chosen with
  | some other =>
    obtain rfl : other = name := hchosen
    show converted (Encoding.encode codecs other data) >>= _ = _
    rw [hdata]
    rfl
  | none =>
    obtain ⟨hnull, c, hfound⟩ := hname.found
    have hsettings : Settings.encoding codecs env none = .ok name := by
      rw [Settings.encoding, hchosen]
      simp only [hnull, hfound, Bool.false_eq_true, if_false]
    simp only [input, hsettings]
    show converted (Encoding.encode codecs name data) >>= _ = _
    rw [hdata]
    rfl

/-- In the encoding of the settings, the text `data` that is fed to `code` comes out as `result`,
both when the code is walked and when it is prepared for a tape. -/
structure Answers (host : Host) (env : Environment) (chosen : Option String) (code : List Char)
    (data result : List CodePoint) : Prop where
  walk : ∃ fuel noted, walk host fuel env chosen code data = some noted ∧
    noted.result = .ok result
  prepared : ∀ C : Nat, 1 ≤ C → host.memory.HasTape C → ∃ p fuel noted,
    (Prepared.ofText host.blockRoom C code).result = .ok p ∧
    prepared host fuel env chosen p data = some noted ∧ noted.result = .ok result

/-- What a program delivers is the answer, once it is read as a text. -/
theorem Answers.of_delivers (hinput : input host.codecs env chosen data = .ok (name, bytes))
    (h : ∀ C, 1 ≤ C → Delivers host code C (.ofBytes bytes) {} out)
    (hresult : Encoding.decode host.codecs name out = .ok result) :
    Answers host env chosen code data result where
  walk := by
    obtain ⟨s, ⟨fuel, w, hrun, rfl⟩, -, -, -, houtput⟩ := (h 1 (Nat.le_refl 1)).walk
    have hout : w.writer.output.toList = out := by
      rw [show w.writer.output = _ from houtput]
      simp
    refine ⟨fuel, ⟨w.log, .ok result⟩, ?_, rfl⟩
    simp only [TextRun.walk, hinput, hrun, Option.map_some, hout, hresult]
    rfl
  prepared C hC htape := by
    obtain ⟨p, m, hp, -, hrun, hcleared⟩ := (h C hC).machine
    obtain ⟨fuel, hrun⟩ := hrun htape
    have hout : m.writer.output.toList = out := by
      rw [hcleared.output]
      simp
    refine ⟨p, fuel, ⟨[], .ok result⟩, hp, ?_, rfl⟩
    simp only [TextRun.prepared, hinput, hrun, Option.map_some, Fault.ofEnding, hout, hresult]
    rfl

end TextRun

namespace Echo

open Slate Block

/-- A program that writes what it reads. -/
def text : String := ",+[-.,+]"

def code : Block Prim := prims ",+" ++ again (prims "-.,+")

theorem parse_text : Program.parse text.toList = .ok ⟨code.map Prim.op, 1, 8⟩ := rfl

theorem turns_round (b : UInt8) (r : Reader) (w : Writer) :
    Turns (prims "-.,+") ⟨[Cell.value b + 1], 0, r, w⟩
      ⟨[Cell.value r.read.1 + 1], 0, r.read.2, w.write b⟩ := by
  refine .prims ?_
  simp

theorem exists_turns_code (x : List UInt8) (w : Writer) :
    ∃ r, Turns code ⟨[0], 0, .ofBytes x, w⟩
      ⟨[256], 0, r, (x.takeWhile (· ≠ 255)).foldl Writer.write w⟩ := by
  obtain ⟨r, hr⟩ := Turns.stream (g := fun v r w => ⟨[v], 0, r, w⟩) (f := id) (fun _ _ _ => rfl)
    turns_round x w
  rw [List.map_id] at hr
  exact ⟨r, (Turns.prims rfl).trans hr⟩

theorem delivers {host : Host} {C : Nat} (hroom : 1 ≤ host.walkRoom) (hblock : 1 ≤ host.blockRoom)
    (hC : 1 ≤ C) (x : List UInt8) (w : Writer) :
    Delivers host text.toList C (.ofBytes x) w (x.takeWhile (· ≠ 255)) := by
  obtain ⟨r, hturns⟩ := exists_turns_code x w
  have hcode : (code.map Prim.op).map Op.prim = code := by rfl
  rw [← hcode] at hturns
  have hend := hturns.completes ⟨code.map Prim.op, 1, 8⟩ (by simp) rfl hC
  refine .of_prepared parse_text hroom hblock (by decide) hC hend ⟨rfl, ?_, ?_⟩
  · exact Slate.cells_machine_of_zeros (by simp) hC
  · exact Writer.output_foldl_write w _

end Echo

namespace Encoding

open Text

variable {host : Host} {name : String} {s : Charset}

/-- A text has bytes just when each of its code points carries one or has bytes of its own. One that
carries none is read again from its bytes, and the program that writes what it reads gives it back
up to the first code point whose bytes include 255. -/
theorem text_fed_and_echoed (hs : s = .utf8 ∨ s = .latin1 ∨ s = .ascii)
    (hname : Denotes host.codecs name s) (text : List CodePoint) :
    ((∃ bytes, encode host.codecs name text = .ok bytes) ↔
      ∀ c ∈ text, (0xDC80 ≤ c.val ∧ c.val ≤ 0xDCFF) ∨ s.Admits c) ∧
    ((∀ c ∈ text, ¬ (0xDC80 ≤ c.val ∧ c.val ≤ 0xDCFF)) →
      ∀ bytes, encode host.codecs name text = .ok bytes →
        decode host.codecs name bytes = .ok text ∧
        (1 ≤ host.walkRoom → 1 ≤ host.blockRoom →
          ∀ env chosen, chosen.getD (Settings.encodingName env) = name →
            TextRun.Answers host env chosen ",+[-.,+]".toList text
              (text.takeWhile fun c => 0xFF ∉ (s.encodePoint? c).getD []))) := by
  have hcarries := carriesBytes_iff.mpr hs
  refine ⟨?_, fun hnone bytes hbytes => ?_⟩
  · rw [hname.encode_eq]
    exact Charset.exists_encodeFrom_iff hcarries s.label 0 text
  · have hencode : s.encodeFrom s.label 0 text = .ok bytes :=
      (hname.encode_eq text).symm.trans hbytes
    have hreads := Charset.reads_of_encodeFrom hnone hencode
    refine ⟨?_, fun hroom hblock env chosen hchosen => ?_⟩
    · rw [hname.decode_eq]
      exact Charset.decodeFrom_of_reads hcarries hreads 0
    · refine .of_delivers (TextRun.input_eq hname hchosen hbytes)
        (fun C hC => Echo.delivers hroom hblock hC bytes {}) ?_
      rw [hname.decode_eq]
      exact Charset.decodeFrom_of_reads hcarries (hreads.before255 hcarries hnone) 0

/-- In Latin-1 the text stops at the one letter that is written as 255, and a code point beyond 255
cannot be fed. -/
theorem text_fed_and_echoed_latin1 :
    Denotes .known "latin-1" .latin1 ∧
    TextRun.Answers ⟨.below 0x100000000, .known, 1000, 1000⟩ { encoding := some "latin-1" } none
      ",+[-.,+]".toList [0x68, 0xE9, 0xFF, 0x69] [0x68, 0xE9] ∧
    ¬ ∃ bytes, encode .known "latin-1" [0x68, 0x20AC] = .ok bytes := by
  have hname : Denotes .known "latin-1" .latin1 := denotes_of_find? rfl rfl
  have hlatin1 : Charset.latin1 = .utf8 ∨ Charset.latin1 = .latin1 ∨ Charset.latin1 = .ascii :=
    .inr (.inl rfl)
  have hnone : ∀ c ∈ ([0x68, 0xE9, 0xFF, 0x69] : List CodePoint),
      ¬ (0xDC80 ≤ c.val ∧ c.val ≤ 0xDCFF) := by
    grind
  have hfed := @text_fed_and_echoed ⟨.below 0x100000000, .known, 1000, 1000⟩ "latin-1" _ hlatin1
    hname
  refine ⟨hname, ?_, ?_⟩
  · exact ((hfed [0x68, 0xE9, 0xFF, 0x69]).2 hnone [0x68, 0xE9, 0xFF, 0x69] rfl).2 (by decide)
      (by decide) { encoding := some "latin-1" } none rfl
  · rw [(hfed [0x68, 0x20AC]).1]
    intro hall
    have heuro : (0xDC80 ≤ 0x20AC ∧ 0x20AC ≤ 0xDCFF) ∨ 0x20AC ≤ 0xFF := hall 0x20AC (by simp)
    omega

end Encoding

end TapeLang
