import Mathlib.Data.List.Forall2
import TapeLang.Proofs.Blame
import TapeLang.Proofs.WalkRuns

/-! Inert characters never matter. Two texts with the same symbols are walked and parsed alike: the
two walks are at different positions, and go back to different ones, but the symbols ahead of these
are the same. Where one of them is at an inert character, the other waits. -/

namespace TapeLang

/-! ### Texts with the same symbols -/

theorem Symbol.toChar_injective {s s' : Symbol} (h : s.toChar = s'.toChar) : s = s' := by
  have hs := Symbol.ofChar?_toChar s
  rw [h, Symbol.ofChar?_toChar] at hs
  exact (Option.some.inj hs).symm

theorem symbols_eq_of_filter_eq {a b : List Char}
    (h : a.filter (symbolChars.contains ·) = b.filter (symbolChars.contains ·)) :
    symbols a = symbols b := by
  rw [← map_toChar_symbols, ← map_toChar_symbols] at h
  exact (List.map_inj_right fun _ _ => Symbol.toChar_injective).mp h

theorem exists_of_symbols_eq_append_cons {t : List Char} {s : Symbol} {xs ys : List Symbol}
    (h : symbols t = xs ++ s :: ys) :
    ∃ a b, t = a ++ s.toChar :: b ∧ symbols a = xs ∧ symbols b = ys := by
  obtain ⟨a, b, rfl, ha, hb⟩ := exists_of_symbols_eq_append h
  obtain ⟨gap, b, rfl, hgap, hb⟩ := exists_of_symbols_eq_cons hb
  refine ⟨a ++ gap, b, by rw [List.append_assoc], ?_, hb⟩
  rw [symbols_append, ha, hgap, List.append_nil]

/-- The symbols of a text from a position on. -/
def ahead (code : Array Char) (i : Nat) : List Symbol := symbols (code.toList.drop i)

section Ahead

variable {code : Array Char} {i : Nat}

theorem ahead_eq_symbolsBetween : ahead code i = symbolsBetween code i code.size := by
  rw [ahead, symbolsBetween, ← Array.length_toList, List.take_length]

theorem ahead_of_none (h : code[i]? = none) : ahead code i = [] := by
  rw [ahead, List.drop_eq_nil_of_le]
  · rfl
  · rw [Array.length_toList]
    exact Array.getElem?_eq_none_iff.mp h

theorem drop_of_getElem? {c : Char} (h : code[i]? = some c) :
    code.toList.drop i = c :: code.toList.drop (i + 1) := by
  obtain ⟨hlt, rfl⟩ := Array.getElem?_eq_some_iff.mp h
  rw [List.drop_eq_getElem_cons (by simpa using hlt)]
  simp

theorem ahead_of_inert {c : Char} (h : code[i]? = some c) (hc : Symbol.ofChar? c = none) :
    ahead code i = ahead code (i + 1) := by
  rw [ahead, drop_of_getElem? h, symbols_cons_inert hc, ahead]

theorem ahead_of_symbol {s : Symbol} (h : code[i]? = some s.toChar) :
    ahead code i = s :: ahead code (i + 1) := by
  rw [ahead, drop_of_getElem? h, symbols_cons_symbol (Symbol.ofChar?_toChar s), ahead]

end Ahead

namespace Walk

/-! ### Walks of two texts -/

/-- The walk as it is, at a position of another text. -/
def on (w : Walk) (code : Array Char) (position : Nat) : Walk := { w with code, position }

variable {memory : Memory} {w : Walk} {a b code : Array Char} {i j : Nat} {skip : Bool}
  {frames frames' : List Frame} {room : Nat}

/-- A walk goes on to the next symbol, if there is one. -/
theorem arrives_next_symbol (hh : w.world.halted = false) {s : Symbol} {ss : List Symbol}
    (h : ahead code i = s :: ss) (skip : Bool) (frames : List Frame) (room : Nat) :
    ∃ m, code[m]? = some s.toChar ∧ ahead code (m + 1) = ss ∧
      (engine memory).Arrives ⟨w.on code i, skip, frames, room⟩ 0
        (.next ⟨w.on code m, skip, frames, room⟩) := by
  rw [ahead_eq_symbolsBetween] at h
  obtain ⟨m, him, hm, hgap, hc, hrest⟩ := exists_first h
  rw [← ahead_eq_symbolsBetween] at hrest
  exact ⟨m, hc, hrest,
    arrives_inert (w := w.on code i) memory hh hgap him (Nat.le_of_lt hm) skip frames room⟩

theorem arrives_text_end (hh : w.world.halted = false) (h : ahead code i = []) (skip : Bool)
    (frames : List Frame) (room : Nat) :
    ∃ m, code[m]? = none ∧ (engine memory).Arrives ⟨w.on code i, skip, frames, room⟩ 0
      (.next ⟨w.on code m, skip, frames, room⟩) := by
  rcases Nat.lt_or_ge i code.size with hlt | hge
  · rw [ahead_eq_symbolsBetween] at h
    exact ⟨code.size, Array.getElem?_eq_none (Nat.le_refl _),
      arrives_inert (w := w.on code i) memory hh h (Nat.le_of_lt hlt) (Nat.le_refl _) skip frames
        room⟩
  · exact ⟨i, Array.getElem?_eq_none hge, .refl (engine memory) _⟩

/-- Frames of two walks whose bodies start with the same symbols. -/
def SameFrame (a b : Array Char) (f g : Frame) : Prop :=
  f.skip = g.skip ∧ ahead a f.bodyStart = ahead b g.bodyStart

/-- Walks of two texts that differ in their positions only, with the same symbols ahead of these.
Once the pointer is below the first cell positions do not matter any more. -/
inductive Alike (a b : Array Char) : Config → Config → Prop
  | intro {w : Walk} {i j : Nat} {skip : Bool} {frames frames' : List Frame} {room : Nat} :
      w.world.Sound → (w.world.halted = false → ahead a i = ahead b j) →
      List.Forall₂ (SameFrame a b) frames frames' →
      Alike a b ⟨w.on a i, skip, frames, room⟩ ⟨w.on b j, skip, frames', room⟩

/-- The moments that such walks come to with a step each. -/
inductive AlikeStep (a b : Array Char) : Step Config Outcome → Step Config Outcome → Prop
  | next {c d : Config} : Alike a b c d → AlikeStep a b (.next c) (.next d)
  | done {w : Walk} {i j : Nat} {result : Except Fault Bool} :
      AlikeStep a b (.done ⟨w.on a i, result⟩) (.done ⟨w.on b j, result⟩)

theorem current_on : (w.on code i).tape.current = w.tape.current := rfl

theorem alike_enter (hs : w.world.Sound) (hi : w.world.halted = false → ahead a i = ahead b j)
    (hf : List.Forall₂ (SameFrame a b) frames frames') :
    AlikeStep a b (Config.enter (w.on a i) frames room)
      (Config.enter (w.on b j) frames' room) := by
  unfold Config.enter
  rw [current_on, current_on]
  cases w.tape.current with
  | ok c => exact .next (.intro hs hi hf)
  | error e => exact .done

theorem alike_leave (again : Bool) (hs : w.world.Sound)
    (hi : w.world.halted = false → ahead a (i + 1) = ahead b (j + 1))
    (hf : List.Forall₂ (SameFrame a b) frames frames') :
    AlikeStep a b (Config.leave again (w.on a i) frames room)
      (Config.leave again (w.on b j) frames' room) := by
  cases hf with
  | nil => exact .done
  | cons hframe hrest =>
    cases again with
    | true => exact alike_enter (w := w) hs (fun _ => hframe.2) (.cons hframe hrest)
    | false =>
      simp only [Config.leave, Config.advance]
      rw [hframe.1]
      exact .next (.intro (w := { w with depth := w.depth - 1 }) hs hi hrest)

/-- At the same symbol, both at the end of their texts, or with the pointer below the first cell,
two walks do the same. -/
theorem alike_step (hs : w.world.Sound) (hf : List.Forall₂ (SameFrame a b) frames frames')
    (hat : w.world.halted = true ∨ (a[i]? = none ∧ b[j]? = none) ∨
      ∃ s : Symbol, a[i]? = some s.toChar ∧ b[j]? = some s.toChar ∧
        ahead a (i + 1) = ahead b (j + 1)) :
    AlikeStep a b ((engine memory).step ⟨w.on a i, skip, frames, room⟩)
      ((engine memory).step ⟨w.on b j, skip, frames', room⟩) := by
  cases hh : w.world.halted with
  | true =>
    rw [step_halted (w := w.on a i) hh, step_halted (w := w.on b j) hh]
    exact alike_leave false hs (fun h => by rw [hh] at h; contradiction) hf
  | false =>
    rcases hat with hhalted | ⟨hai, hbj⟩ | ⟨s, hai, hbj, hrest⟩
    · rw [hh] at hhalted
      contradiction
    · have hnone : ∀ {code : Array Char} {k : Nat}, code[k]? = none → ahead code (k + 1) = [] := by
        intro code k hk
        apply ahead_of_none
        rw [Array.getElem?_eq_none_iff] at hk ⊢
        omega
      rw [step_end (w := w.on a i) hh hai, step_end (w := w.on b j) hh hbj]
      exact alike_leave false hs (fun _ => (hnone hai).trans (hnone hbj).symm) hf
    · cases s with
      | prim p =>
        cases skip with
        | true =>
          rw [step_skipped (w := w.on a i) hh hai, step_skipped (w := w.on b j) hh hbj]
          exact .next (.intro (w := w) hs (fun _ => hrest) hf)
        | false =>
          rw [step_prim (w := w.on a i) hh hs hai, step_prim (w := w.on b j) hh hs hbj]
          exact .next (.intro (w := w.act p) (hs.perform p) (fun _ => hrest) hf)
      | opening =>
        cases room with
        | zero =>
          rw [step_opening_full (w := w.on a i) hh hai, step_opening_full (w := w.on b j) hh hbj]
          exact .done (w := w.entered)
        | succ room =>
          rw [step_opening (w := w.on a i) hh hai, step_opening (w := w.on b j) hh hbj]
          exact .next (.intro (w := w.entered) hs (fun _ => hrest) (.cons ⟨rfl, hrest⟩ hf))
      | closing =>
        rw [step_closing (w := w.on a i) hh hai, step_closing (w := w.on b j) hh hbj]
        exact alike_leave _ hs (fun _ => hrest) hf

theorem acts_on (h : a[i]? = b[j]?) :
    (engine memory).acts ⟨w.on a i, skip, frames, room⟩ =
      (engine memory).acts ⟨w.on b j, skip, frames', room⟩ := by
  simp only [engine, Config.acts, on]
  rw [h]
  rfl

/-- The second of two such walks takes a step that the first takes too, maybe behind some inert
characters, or it passes over an inert character of its own. -/
theorem Alike.cases {c d : Config} (h : Alike a b c d) :
    (∃ c', (engine memory).Arrives c 0 (.next c') ∧
      (engine memory).acts c' = (engine memory).acts d ∧
      AlikeStep a b ((engine memory).step c') ((engine memory).step d)) ∨
    ∃ d', (engine memory).step d = .next d' ∧ (engine memory).acts d = false ∧
      b.size - d'.walk.position < b.size - d.walk.position ∧ Alike a b c d' := by
  cases h with
  | @intro w i j skip frames frames' room hs hi hf =>
    cases hh : w.world.halted with
    | true =>
      refine .inl ⟨_, .refl (engine memory) _, ?_, alike_step hs hf (.inl hh)⟩
      rw [acts_halted (w := w.on a i) hh, acts_halted (w := w.on b j) hh]
    | false =>
      cases hbj : b[j]? with
      | none =>
        obtain ⟨m, ham, harrives⟩ :=
          arrives_text_end hh ((hi hh).trans (ahead_of_none hbj)) skip frames room
        exact .inl ⟨_, harrives, acts_on (ham.trans hbj.symm),
          alike_step hs hf (.inr (.inl ⟨ham, hbj⟩))⟩
      | some ch =>
        cases hch : Symbol.ofChar? ch with
        | none =>
          have hlt : j < b.size := (Array.getElem?_eq_some_iff.mp hbj).1
          refine .inr ⟨_, step_inert (w := w.on b j) hh hbj hch,
            acts_inert (w := w.on b j) hbj hch, ?_, ?_⟩
          · show b.size - (j + 1) < b.size - j
            omega
          · exact .intro (w := w) hs (fun hh => (hi hh).trans (ahead_of_inert hbj hch)) hf
        | some s =>
          obtain rfl := Symbol.toChar_of_ofChar? hch
          obtain ⟨m, ham, hrest, harrives⟩ :=
            arrives_next_symbol hh ((hi hh).trans (ahead_of_symbol hbj)) skip frames room
          exact .inl ⟨_, harrives, acts_on (ham.trans hbj.symm),
            alike_step hs hf (.inr (.inr ⟨s, ham, hbj, hrest⟩))⟩

def AlikeEnd (a b : Array Char) (o : Step Config Outcome) (r : Outcome) : Prop :=
  AlikeStep a b o (.done r)

theorem AlikeEnd.done {o : Step Config Outcome} {r : Outcome} (h : AlikeEnd a b o r) :
    ∃ r', o = .done r' := by
  cases h
  exact ⟨_, rfl⟩

theorem alike_simulation :
    Simulation (engine memory) (engine memory) (Alike a b) (AlikeEnd a b)
      fun d => b.size - d.walk.position where
  next := by
    intro c d d' h hstep
    rcases h.cases with ⟨c', harrives, hacts, halike⟩ | ⟨d₁, hd₁, hacts, hlt, halike⟩
    · rw [hstep] at halike
      cases hc' : (engine memory).step c' with
      | done r =>
        rw [hc'] at halike
        cases halike
      | next c'' =>
        rw [hc'] at halike
        cases halike with
        | next h' =>
          rw [← hacts]
          exact .inl ⟨c'', harrives.quiet_advances (.of_step hc'), h'⟩
    · cases hd₁.symm.trans hstep
      exact .inr ⟨hacts, hlt, halike⟩
  done := by
    intro c d r h hstep
    rcases h.cases with ⟨c', harrives, hacts, halike⟩ | ⟨d₁, hd₁, -⟩
    · rw [hstep] at halike
      refine ⟨(engine memory).step c', ?_, halike⟩
      rw [← hacts]
      exact harrives.quiet (.of_step rfl)
    · cases hd₁.symm.trans hstep

/-! ### Whole walks -/

/-- What is left of a run when the text and the places in it are left out: what it acted on, its
depth at the end and its largest depth, and the fault that ended it if there was one. -/
structure Remains where
  world : World
  depth : Nat
  maxDepth : Nat
  fault : Option Fault

def remains (e : Walk × Option Fault) : Remains := ⟨e.1.world, e.1.depth, e.1.maxDepth, e.2⟩

/-- The walk of a text, with room for a number of nested loops, ends and leaves `r`. -/
def Leaves (memory : Memory) (text : List Char) (room : Nat) (reader : Reader) (writer : Writer)
    (r : Remains) : Prop :=
  ∃ fuel e, (start text reader writer).run memory room fuel = some e ∧ remains e = r

theorem remains_finish_on (w : Walk) (result : Except Fault Bool) (a b : Array Char) (i j : Nat) :
    remains (finish ⟨w.on a i, result⟩) = remains (finish ⟨w.on b j, result⟩) := by
  cases result <;> rfl

theorem leaves_of_symbols_eq {s t : List Char} (h : symbols s = symbols t) {reader : Reader}
    {writer : Writer} {r : Remains} (ht : Leaves memory t room reader writer r) :
    Leaves memory s room reader writer r := by
  obtain ⟨fuel, e, hrun, rfl⟩ := ht
  obtain ⟨o, ho, rfl⟩ := run_eq_some_iff.mp hrun
  have hstart : Alike s.toArray t.toArray ⟨start s reader writer, false, [], room⟩
      ⟨start t reader writer, false, [], room⟩ :=
    .intro (w := start s reader writer) (sound_start s reader writer) (fun _ => h) .nil
  obtain ⟨n, o', ho', hend⟩ := alike_simulation.exists_done (fun _ _ => AlikeEnd.done) hstart ho
  cases hend
  exact ⟨n, _, run_eq_some_iff.mpr ⟨_, ho', rfl⟩, remains_finish_on ..⟩

end Walk

/-! ### Parsing -/

section Parsing

variable {s t : List Char}

theorem Program.parse_of_symbols_eq (h : symbols s = symbols t) {p : Program}
    (hp : parse s = .ok p) : parse t = .ok p := by
  rw [parse_of_symbols (h.symm.trans (symbols_of_parse hp)), ← eq_of_parse hp]

theorem Balanced.of_symbols_eq (h : symbols s = symbols t) (hs : Balanced s) : Balanced t := by
  obtain ⟨p, hp, -⟩ := hs.parse (shallow_length s)
  exact Program.balanced_of_parse (Program.parse_of_symbols_eq h hp)

theorem ClosingsMatched.of_symbols_eq (h : symbols s = symbols t) (hs : ClosingsMatched s) :
    ClosingsMatched t := by
  apply Decidable.byContradiction
  intro hnot
  -- The first unmatched closing bracket of `t` has its counterpart in `s`.
  obtain ⟨a, b, rfl, ha⟩ := exists_unmatched_closing hnot
  rw [symbols_append, symbols_cons_symbol (s := .closing) rfl] at h
  obtain ⟨a', b', rfl, ha', -⟩ := exists_of_symbols_eq_append_cons h
  have hneg := (firstUnmatched_of_balanced (ha.of_symbols_eq ha'.symm) b').1
  exact absurd (hs _) (Int.not_le.mpr hneg)

/-- An unmatched bracket with its index among the symbols of a text in place of its offset. -/
def Unmatched.among (text : List Char) : Unmatched → Unmatched
  | .opening offset => .opening (symbols (text.take offset)).length
  | .closing offset => .closing (symbols (text.take offset)).length

/-- Two texts with the same symbols are parsed to the same program, or brackets of the same kind
and with the same index among the symbols are blamed. -/
theorem Program.parse_among (h : symbols s = symbols t) :
    (parse s).mapError (·.among s) = (parse t).mapError (·.among t) := by
  by_cases hclosings : ClosingsMatched s
  · by_cases hb : Balanced s
    · obtain ⟨p, hp, -⟩ := hb.parse (shallow_length s)
      rw [hp, parse_of_symbols_eq h hp]
      rfl
    · obtain ⟨a, last, rfl, ha, hlast⟩ := exists_last_piece hclosings hb
      rw [symbols_append, symbols_cons_symbol (s := .opening) rfl] at h
      obtain ⟨a', last', rfl, ha', hlast'⟩ := exists_of_symbols_eq_append_cons h.symm
      rw [parse_of_open ha hlast]
      show _ = (parse (a' ++ '[' :: last')).mapError _
      rw [parse_of_open (ha.of_symbols_eq ha'.symm) (hlast.of_symbols_eq hlast'.symm)]
      simp [Except.mapError, Unmatched.among, ha']
  · obtain ⟨a, b, rfl, ha⟩ := exists_unmatched_closing hclosings
    rw [symbols_append, symbols_cons_symbol (s := .closing) rfl] at h
    obtain ⟨a', b', rfl, ha', -⟩ := exists_of_symbols_eq_append_cons h.symm
    rw [parse_of_closing ha b]
    show _ = (parse (a' ++ ']' :: b')).mapError _
    rw [parse_of_closing (ha.of_symbols_eq ha'.symm) b']
    simp [Except.mapError, Unmatched.among, ha']

theorem Program.parse_error_of_symbols_eq (h : symbols s = symbols t) {e : Unmatched}
    (he : parse s = .error e) :
    ∃ e', parse t = .error e' ∧ e'.among t = e.among s := by
  have hamong := parse_among h
  rw [he] at hamong
  cases ht : parse t with
  | ok p =>
    rw [ht] at hamong
    contradiction
  | error e' =>
    rw [ht] at hamong
    exact ⟨e', rfl, (Except.error.inj hamong).symm⟩

theorem Prepared.ofText_of_error {e : Unmatched} (h : Program.parse t = .error e) (room C : Nat) :
    Prepared.ofText room C t = ⟨[], .error (.ofUnmatched t e)⟩ := by
  simp only [Prepared.ofText, Program.ofText, h]

theorem Script.ofText_of_error {e : Unmatched} (h : Program.parse t = .error e) :
    Script.ofText t = ⟨[], .error (.ofUnmatched t e)⟩ := by
  simp only [Script.ofText, Program.ofText, h]

/-- Inert characters never matter: two texts that are the same without them are walked alike,
whatever their brackets, and are parsed, prepared and written as a module alike, or the same bracket
is blamed in both. -/
theorem inert_characters_irrelevant (memory : Memory)
    (h : s.filter (symbolChars.contains ·) = t.filter (symbolChars.contains ·))
    (room blockRoom C : Nat) (reader : Reader) (writer : Writer) :
    (∀ r, Walk.Leaves memory s room reader writer r ↔ Walk.Leaves memory t room reader writer r) ∧
    (Program.parse s).mapError (·.among s) = (Program.parse t).mapError (·.among t) ∧
    (∀ program, Program.parse s = .ok program →
      Prepared.ofText blockRoom C s = Prepared.ofText blockRoom C t ∧
      Script.ofText s = Script.ofText t ∧
      (Script.ofText s).result.map (Script.moduleText C ·.block) =
        (Script.ofText t).result.map (Script.moduleText C ·.block)) ∧
    ∀ e, Program.parse s = .error e → ∃ e', e'.among t = e.among s ∧
      Prepared.ofText blockRoom C s = ⟨[], .error (.ofUnmatched s e)⟩ ∧
      Prepared.ofText blockRoom C t = ⟨[], .error (.ofUnmatched t e')⟩ ∧
      Script.ofText s = ⟨[], .error (.ofUnmatched s e)⟩ ∧
      Script.ofText t = ⟨[], .error (.ofUnmatched t e')⟩ := by
  have hsymbols := symbols_eq_of_filter_eq h
  refine ⟨fun r => ⟨Walk.leaves_of_symbols_eq hsymbols.symm, Walk.leaves_of_symbols_eq hsymbols⟩,
    Program.parse_among hsymbols, fun program hs => ?_, fun e hs => ?_⟩
  · have ht := Program.parse_of_symbols_eq hsymbols hs
    have hscript : Script.ofText s = Script.ofText t := by
      simp only [Script.ofText, Program.ofText, hs, ht]
    refine ⟨?_, hscript, by rw [hscript]⟩
    simp only [Prepared.ofText, Program.ofText, hs, ht]
  · obtain ⟨e', ht, hamong⟩ := Program.parse_error_of_symbols_eq hsymbols hs
    exact ⟨e', hamong, Prepared.ofText_of_error hs _ C, Prepared.ofText_of_error ht _ C,
      Script.ofText_of_error hs, Script.ofText_of_error ht⟩

/-- Two spellings of a program that goes round a loop twice. -/
theorem inert_characters_irrelevant_comment :
    "++[>,.<-]".toList.filter (symbolChars.contains ·) =
      "two: ++[ > , . < -] done".toList.filter (symbolChars.contains ·) ∧
    ∃ r, Walk.Leaves (.below 2) "two: ++[ > , . < -] done".toList 1 (.ofBytes [7])
      {} r ∧ r.world.writer.output = #[7, 255] ∧ r.maxDepth = 1 := by
  have hsame : "++[>,.<-]".toList.filter (symbolChars.contains ·) =
      "two: ++[ > , . < -] done".toList.filter (symbolChars.contains ·) := by decide
  have hplain : Walk.Leaves (.below 2) "++[>,.<-]".toList 1 (.ofBytes [7]) {}
      ⟨⟨⟨#[0, 255], 0⟩, ⟨[], true⟩, ⟨#[7, 255], 1, false⟩⟩, 0, 1, none⟩ := ⟨40, _, rfl, rfl⟩
  exact ⟨hsame, _, ((inert_characters_irrelevant _ hsame 1 1 1 _ _).1 _).mp hplain, rfl, rfl⟩

end Parsing

end TapeLang
