import TapeLang.Block

/-! Texts and the blocks they spell. A text spells a block when its symbols are those of the block;
inert characters may stand anywhere between them, so a text that spells a block is taken apart at
its symbols. -/

namespace TapeLang

theorem symbols_append (s t : List Char) : symbols (s ++ t) = symbols s ++ symbols t :=
  List.filterMap_append

theorem symbols_cons_inert {c : Char} (h : Symbol.ofChar? c = none) (t : List Char) :
    symbols (c :: t) = symbols t :=
  List.filterMap_cons_none h

theorem symbols_cons_symbol {c : Char} {s : Symbol} (h : Symbol.ofChar? c = some s)
    (t : List Char) : symbols (c :: t) = s :: symbols t :=
  List.filterMap_cons_some h

theorem inert_of_symbols_eq_nil {t : List Char} (h : symbols t = []) :
    ∀ c ∈ t, Symbol.ofChar? c = none :=
  List.filterMap_eq_nil_iff.mp h

/-- A text with a first symbol is cut at the character of that symbol. -/
theorem exists_of_symbols_eq_cons {t : List Char} {s : Symbol} {ss : List Symbol}
    (h : symbols t = s :: ss) :
    ∃ before after, t = before ++ s.toChar :: after ∧ symbols before = [] ∧ symbols after = ss := by
  obtain ⟨before, c, after, rfl, hbefore, hc, hafter⟩ := List.filterMap_eq_cons_iff.mp h
  rw [← Symbol.toChar_of_ofChar? hc]
  exact ⟨before, after, rfl, List.filterMap_eq_nil_iff.mpr hbefore, hafter⟩

theorem exists_of_symbols_eq_append {t : List Char} {xs ys : List Symbol}
    (h : symbols t = xs ++ ys) : ∃ a b, t = a ++ b ∧ symbols a = xs ∧ symbols b = ys :=
  List.filterMap_eq_append_iff.mp h

/-- The characters of the eight symbols, as they stand in a text. -/
def symbolChars : List Char := ['+', '-', '<', '>', '[', ']', ',', '.']

/-- The characters of the symbols of a text are the text without its inert characters. -/
theorem map_toChar_symbols (t : List Char) :
    (symbols t).map Symbol.toChar = t.filter (symbolChars.contains ·) := by
  induction t with
  | nil => rfl
  | cons c t ih =>
    cases hc : Symbol.ofChar? c with
    | none =>
      have hout : symbolChars.contains c = false := by
        apply Bool.eq_false_iff.mpr
        intro hin
        simp only [symbolChars, List.contains_eq_mem, List.mem_cons, List.not_mem_nil, or_false,
          decide_eq_true_eq] at hin
        rcases hin with rfl | rfl | rfl | rfl | rfl | rfl | rfl | rfl <;>
          simp [Symbol.ofChar?] at hc
      rw [symbols_cons_inert hc, List.filter_cons_of_neg (by simp only [hout, Bool.false_eq_true,
        not_false_eq_true]), ih]
    | some s =>
      have hin : symbolChars.contains c = true := by
        rw [← Symbol.toChar_of_ofChar? hc]
        cases s with
        | prim p => cases p <;> rfl
        | opening => rfl
        | closing => rfl
      rw [symbols_cons_symbol hc, List.map_cons, Symbol.toChar_of_ofChar? hc,
        List.filter_cons_of_pos hin, ih]

/-! ### Symbols between two positions -/

/-- The symbols of a text from one position up to another. -/
def symbolsBetween (code : Array Char) (i j : Nat) : List Symbol :=
  symbols ((code.toList.take j).drop i)

variable {code : Array Char} {i j : Nat}

theorem drop_take_cut {α : Type} {l a b : List α} (h : (l.take j).drop i = a ++ b) (hij : i ≤ j) :
    (l.take (i + a.length)).drop i = a ∧ (l.take j).drop (i + a.length) = b ∧
      i + a.length ≤ j := by
  have hlen := congrArg List.length h
  simp only [List.length_drop, List.length_take, List.length_append] at hlen
  have hle : i + a.length ≤ j := by omega
  refine ⟨?_, ?_, hle⟩
  · have htake : ((l.take j).drop i).take a.length = a := by rw [h, List.take_left]
    rw [List.take_drop, List.take_take, Nat.min_eq_left hle] at htake
    exact htake
  · rw [← List.drop_drop, h, List.drop_left]

/-- Where symbols stand in two groups, the text is cut between the groups. -/
theorem exists_cut {xs ys : List Symbol} (h : symbolsBetween code i j = xs ++ ys) (hij : i ≤ j) :
    ∃ m, i ≤ m ∧ m ≤ j ∧ symbolsBetween code i m = xs ∧ symbolsBetween code m j = ys := by
  obtain ⟨a, b, hab, rfl, rfl⟩ := exists_of_symbols_eq_append h
  obtain ⟨ha, hb, hle⟩ := drop_take_cut hab hij
  exact ⟨i + a.length, by omega, hle, by rw [symbolsBetween, ha], by rw [symbolsBetween, hb]⟩

/-- The first symbol after a position stands at some position, behind inert characters. -/
theorem exists_first {s : Symbol} {ss : List Symbol} (h : symbolsBetween code i j = s :: ss) :
    ∃ m, i ≤ m ∧ m < j ∧ symbolsBetween code i m = [] ∧ code[m]? = some s.toChar ∧
      symbolsBetween code (m + 1) j = ss := by
  have hij : i ≤ j := by
    apply Nat.le_of_not_lt
    intro hlt
    rw [symbolsBetween, List.drop_eq_nil_of_le (by rw [List.length_take]; omega)] at h
    contradiction
  obtain ⟨before, after, hcut, hbefore, rfl⟩ := exists_of_symbols_eq_cons h
  obtain ⟨ha, hb, hle⟩ := drop_take_cut hcut hij
  have hlen := congrArg List.length hcut
  simp only [List.length_drop, List.length_take, List.length_append, List.length_cons] at hlen
  have hget : (code.toList.take j)[i + before.length]? = some s.toChar := by
    have := congrArg List.head? hb
    rwa [List.head?_drop] at this
  rw [List.getElem?_take_of_lt (by omega), Array.getElem?_toList] at hget
  refine ⟨i + before.length, by omega, by omega, by rw [symbolsBetween, ha, hbefore], hget, ?_⟩
  rw [symbolsBetween, ← List.drop_drop, hb]
  rfl

theorem symbolsBetween_append {m : Nat} (him : i ≤ m) (hmj : m ≤ j) :
    symbolsBetween code i j = symbolsBetween code i m ++ symbolsBetween code m j := by
  have hleft : (code.toList.take m).drop i = ((code.toList.take j).drop i).take (m - i) := by
    rw [← List.drop_take, List.take_take, Nat.min_eq_left hmj]
  have hright : (code.toList.take j).drop m = ((code.toList.take j).drop i).drop (m - i) := by
    rw [List.drop_drop, Nat.add_sub_cancel' him]
  rw [symbolsBetween, symbolsBetween, symbolsBetween, ← symbols_append, hleft, hright,
    List.take_append_drop]

/-- A loop in a text has its two brackets, with the body between them and the rest behind. -/
theorem exists_loop {body rest : List Symbol}
    (h : symbolsBetween code i j = .opening :: (body ++ .closing :: rest)) :
    ∃ m q, i ≤ m ∧ m < q ∧ q < j ∧ symbolsBetween code i m = [] ∧
      code[m]? = some Symbol.opening.toChar ∧ symbolsBetween code (m + 1) q = body ∧
      code[q]? = some Symbol.closing.toChar ∧ symbolsBetween code (q + 1) j = rest := by
  obtain ⟨m, him, hmj, hbefore, hopen, hinside⟩ := exists_first h
  obtain ⟨c, hmc, hcj, hbody, hbehind⟩ := exists_cut hinside hmj
  obtain ⟨q, hcq, hqj, hgap, hclose, hrest⟩ := exists_first hbehind
  refine ⟨m, q, him, by omega, hqj, hbefore, hopen, ?_, hclose, hrest⟩
  rw [symbolsBetween_append hmc hcq, hbody, hgap, List.append_nil]

theorem inert_of_symbolsBetween_eq_nil (h : symbolsBetween code i j = []) (hij : i < j)
    (hj : j ≤ code.size) :
    ∃ c, code[i]? = some c ∧ Symbol.ofChar? c = none ∧ symbolsBetween code (i + 1) j = [] := by
  have hi : i < code.size := by omega
  have hcons : (code.toList.take j).drop i = code[i] :: (code.toList.take j).drop (i + 1) := by
    rw [List.drop_eq_getElem_cons (by simp; omega)]
    simp
  rw [symbolsBetween, hcons] at h
  have hc : Symbol.ofChar? code[i] = none := inert_of_symbols_eq_nil h _ (by simp)
  rw [symbols_cons_inert hc] at h
  exact ⟨code[i], by simp [hi], hc, h⟩

namespace Block

/-- The symbols of a block of primitives. -/
def spelling : Block Prim → List Symbol
  | .nil => []
  | .cons p rest => .prim p :: rest.spelling
  | .loop body rest => .opening :: (body.spelling ++ .closing :: rest.spelling)

theorem spelling_map_prim (b : Block Op) : (b.map Op.prim).spelling = b.symbols := by
  induction b with
  | nil => rfl
  | cons o rest ih => rw [map, spelling, ih, symbols_cons]
  | loop body rest ihBody ihRest => rw [map, spelling, ihBody, ihRest, symbols_loop]

theorem depth_map {α β : Type} (f : α → β) (b : Block α) : (b.map f).depth = b.depth := by
  induction b with
  | nil => rfl
  | cons a rest ih => rw [map, depth, depth, ih]
  | loop body rest ihBody ihRest => rw [map, depth, depth, ihBody, ihRest]

end Block

end TapeLang
