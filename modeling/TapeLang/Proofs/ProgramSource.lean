import TapeLang.Command
import TapeLang.Proofs.Inert
import TapeLang.Proofs.TextBytes

/-! A program comes from a file or from the standard input. Only in the file are line ends unified.
No symbol is lost or added by that, so the two texts are walked alike, and without events a report
shows nothing of the places in a text. -/

namespace TapeLang

open Text

/-! ### The text of a program file -/

theorem symbols_unifyNewlines (t : List Char) : symbols (unifyNewlines t) = symbols t := by
  have hreturn : Symbol.ofChar? '\r' = none := rfl
  have hfeed : Symbol.ofChar? '\n' = none := rfl
  fun_induction unifyNewlines t with
  | case1 => rfl
  | case2 rest ih =>
    rw [symbols_cons_inert hfeed, symbols_cons_inert hreturn, symbols_cons_inert hfeed, ih]
  | case3 rest _ ih => rw [symbols_cons_inert hfeed, symbols_cons_inert hreturn, ih]
  | case4 c rest _ _ ih =>
    cases hc : Symbol.ofChar? c with
    | none => rw [symbols_cons_inert hc, symbols_cons_inert hc, ih]
    | some s => rw [symbols_cons_symbol hc, symbols_cons_symbol hc, ih]

theorem Encoding.Charset.decodeFrom_latin1 (strict : Bool) (position : Nat) (bytes : List UInt8) :
    decodeFrom .latin1 strict position bytes =
      .ok (bytes.map fun b => CodePoint.ofNat b.toNat) := by
  induction bytes generalizing position with
  | nil => rw [decodeFrom, List.map_nil]
  | cons a rest ih =>
    rw [decodeFrom]
    simp only [front, List.drop_zero, ih]
    rfl

theorem plainText_map_ofNat (bytes : List UInt8) :
    plainText (bytes.map fun b => CodePoint.ofNat b.toNat) = programText bytes := by
  simp only [plainText, programText, List.map_map]
  apply List.map_congr_left
  intro b _
  show Char.ofNat (CodePoint.ofNat b.toNat).val = Char.ofNat b.toNat
  rw [Encoding.Charset.val_ofNat_toNat]

theorem loadProgram_of_read {codecs : Encoding.Codecs} {read : FileReader} {path : Path}
    {bytes : List UInt8} (h : read path = .ok bytes) :
    loadProgram codecs read path Settings.programEncoding =
      .ok (unifyNewlines (programText bytes)) := by
  have hnull : ¬ Settings.programEncoding.toList.contains (Char.ofNat 0) = true := by decide
  have hname : Encoding.Denotes codecs Settings.programEncoding .latin1 :=
    Encoding.denotes_of_find? rfl rfl
  rw [loadProgram, if_neg hnull, h]
  simp only [hname .openFile, Encoding.Scheme.conversion, Encoding.Scheme.decodeFile,
    Encoding.Charset.decodeFrom_latin1]
  rw [plainText_map_ofNat]

namespace Command

/-! ### Reports without events -/

/-- A command line, in its surroundings, comes to a report. -/
def Reports (around : Surroundings) (words : List String) (report : Report) : Prop :=
  ∃ fuel, run fuel around words = some report

/-- The report of a walk of which no events are shown. -/
def quietReport (dump : Bool) (r : Walk.Remains) : Report :=
  match r.fault with
  | some e => failed r.world.writer.output.toList "" (.ofWalk e)
  | none =>
    { outcome := .ok 0
      stdout := r.world.writer.output.toList
      stderr := if dump then cellLines r.world.tape else "" }

section

variable {around : Surroundings} {words : List String} {file : Option String} {dump : Bool}
  {report : Report}

theorem reports_iff (h : Decision.ofWords words = .run ⟨false, .interpret file dump⟩) :
    Reports around words report ↔ ∃ fuel, interpret fuel false around file dump = some report := by
  simp only [Reports, run, h, Invocation.run]

theorem exists_interpret_iff {text : List Char} {input : List UInt8} {encoding : String}
    (hsource : source around file = .ok (text, input))
    (hencoding : Settings.encoding around.host.codecs around.env none = .ok encoding) :
    (∃ fuel, interpret fuel false around file dump = some report) ↔
      ∃ r, Walk.Leaves around.host.memory text around.host.walkRoom (.ofBytes input) stdoutWriter
        r ∧ quietReport dump r = report := by
  have hreport : ∀ fuel, interpret fuel false around file dump =
      ((Walk.start text (.ofBytes input) stdoutWriter).run around.host.memory around.host.walkRoom
        fuel).map (quietReport dump ∘ Walk.remains) := by
    intro fuel
    simp only [interpret, hsource, hencoding]
    rfl
  simp only [hreport, Option.map_eq_some_iff, Walk.Leaves, Function.comp_apply]
  constructor
  · rintro ⟨fuel, e, hrun, rfl⟩
    exact ⟨_, ⟨fuel, e, hrun, rfl⟩, rfl⟩
  · rintro ⟨_, ⟨fuel, e, hrun, rfl⟩, rfl⟩
    exact ⟨fuel, e, hrun, rfl⟩

theorem interpret_iff_of_symbols_eq {around' : Surroundings} {file' : Option String}
    {s t : List Char} {input : List UInt8} (hhost : around.host = around'.host)
    (henv : around.env = around'.env)
    (hs : source around file = .ok (s, input)) (ht : source around' file' = .ok (t, input))
    (h : symbols s = symbols t) :
    (∃ fuel, interpret fuel false around file dump = some report) ↔
      ∃ fuel, interpret fuel false around' file' dump = some report := by
  cases hencoding : Settings.encoding around.host.codecs around.env none with
  | error e =>
    -- The refusal of the encoding comes before the first step of either walk.
    have hencoding' := hencoding
    rw [hhost, henv] at hencoding'
    simp only [interpret, hs, ht, hencoding, hencoding']
  | ok encoding =>
    have hencoding' := hencoding
    rw [hhost, henv] at hencoding'
    rw [exists_interpret_iff hs hencoding, exists_interpret_iff ht hencoding', hhost]
    apply exists_congr
    intro r
    apply and_congr_left
    intro _
    exact ⟨Walk.leaves_of_symbols_eq h.symm, Walk.leaves_of_symbols_eq h⟩

end

/-! ### The two sources -/

section

variable {name : String} {dump : Bool} {fileWords stdinWords : List String}
  {fromFile fromStdin : Surroundings}

/-- On one host, a program is interpreted alike whether its bytes are those of a named file, with
nothing on the standard input, or are themselves the standard input. -/
theorem interpret_file_iff_stdin (bytes : List UInt8)
    (hfileWords : Decision.ofWords fileWords = .run ⟨false, .interpret (some name) dump⟩)
    (hstdinWords : Decision.ofWords stdinWords = .run ⟨false, .interpret none dump⟩)
    (hname : name ≠ "") (hread : fromFile.read (.ofString name) = .ok bytes)
    (hnothing : fromFile.stdin = []) (hstdin : fromStdin.stdin = bytes)
    (hhost : fromFile.host = fromStdin.host) (henv : fromFile.env = fromStdin.env)
    (report : Report) :
    Reports fromFile fileWords report ↔ Reports fromStdin stdinWords report := by
  have hnonempty : ¬ name.isEmpty = true := by
    rwa [String.isEmpty_iff]
  have hfile : source fromFile (some name) = .ok (unifyNewlines (programText bytes), []) := by
    simp only [source, if_neg hnonempty, loadProgram_of_read hread, hnothing]
  have hinput : source fromStdin none = .ok (programText bytes, []) := by
    rw [source, hstdin]
  rw [reports_iff hfileWords, reports_iff hstdinWords]
  exact interpret_iff_of_symbols_eq hhost henv hfile hinput (symbols_unifyNewlines _)

end

/-- Line ends of three kinds, and an unmatched bracket among them. -/
theorem interpret_file_iff_stdin_returns :
    Reports
      { host := ⟨.below 0x100000000, .known, 1000, 1000⟩
        read := fun _ => .ok [43, 13, 10, 46, 13, 93, 10, 43] }
      ["interpret", "--dump-tape", "a.b"]
      { outcome := .ok 0, stdout := [1], stderr := "       0:   1\n" } := by
  have hfileWords : Decision.ofWords ["interpret", "--dump-tape", "a.b"] =
      .run ⟨false, .interpret (some "a.b") true⟩ := by decide +kernel
  have hstdinWords : Decision.ofWords ["interpret", "--dump-tape"] =
      .run ⟨false, .interpret none true⟩ := by decide +kernel
  have hstdin : Reports
      { host := ⟨.below 0x100000000, .known, 1000, 1000⟩
        stdin := [43, 13, 10, 46, 13, 93, 10, 43]
        read := fun path => .error (.notFound path) }
      ["interpret", "--dump-tape"]
      { outcome := .ok 0, stdout := [1], stderr := "       0:   1\n" } :=
    (reports_iff hstdinWords).mpr ⟨20, rfl⟩
  exact (interpret_file_iff_stdin [43, 13, 10, 46, 13, 93, 10, 43] hfileWords hstdinWords
    (by decide) (by rfl) (by rfl) (by rfl) (by rfl) (by rfl) _).mpr hstdin

end Command

end TapeLang
