import Mathlib.Data.List.Induction
import TapeLang.Proofs.AnyText
import TapeLang.Proofs.Nesting
import TapeLang.Proofs.WalkReturns

/-! Walks in skip mode. On a zero cell such a walk passes one character with each step and has no
effect: every loop that it enters is skipped too, since the cell is still zero. It is in as many
loops as what it has passed is high, so it ends at the first closing bracket that closes more than
was opened on the way, which is the partner of the bracket before the body. Where no bracket does
so, it leaves its loops one by one at the end of the text. -/

namespace TapeLang

/-- The number of opening brackets from a position on that have no partner. -/
def openLoopsFrom (text : List Char) (b : Nat) : Nat :=
  (List.range text.length).countP fun i => b ≤ i ∧ Unclosed text i

theorem unclosed_drop {t : List Char} {b i : Nat} : Unclosed (t.drop b) i ↔ Unclosed t (b + i) := by
  rw [unclosed_iff, unclosed_iff, List.getElem?_drop, List.drop_drop, Nat.add_assoc]

theorem openLoopsFrom_eq {t : List Char} {b : Nat} (h : b ≤ t.length) :
    openLoopsFrom t b = openLoops (t.drop b) := by
  obtain ⟨k, hk⟩ := Nat.exists_eq_add_of_le h
  rw [openLoopsFrom, openLoops, List.length_drop, hk, List.range_add, List.countP_append,
    List.countP_map, Nat.add_sub_cancel_left]
  have hbefore : (List.range b).countP (fun i => b ≤ i ∧ Unclosed t i) = 0 := by
    rw [List.countP_eq_zero]
    intro i hi
    have := List.mem_range.mp hi
    simp only [decide_eq_true_eq, not_and]
    omega
  rw [hbefore, Nat.zero_add]
  congr 1
  funext i
  simp only [Function.comp, unclosed_drop, decide_eq_decide]
  exact and_iff_right (Nat.le_add_right b i)

theorem shallow_concat {t : List Char} {room : Nat} {c : Char} :
    Shallow room (t ++ [c]) ↔ Shallow room t ∧ height (t ++ [c]) ≤ room := by
  constructor
  · intro h
    have hall := h (t ++ [c]).length
    rw [List.take_length] at hall
    exact ⟨h.left, hall⟩
  · rintro ⟨h, hall⟩ n
    rcases Nat.lt_or_ge t.length n with hlt | hle
    · rwa [List.take_of_length_le (by rw [List.length_append]; exact hlt)]
    · rw [List.take_append_of_le_length hle]
      exact h n

/-- In a text that nests too deep there is a first bracket that does so. -/
theorem exists_first_too_deep {t : List Char} {room : Nat} (h : ¬ Shallow room t) :
    ∃ a b, t = a ++ '[' :: b ∧ Shallow room a ∧ height a = room := by
  induction t using List.reverseRecOn with
  | nil => exact absurd (fun n => by simp) h
  | append_singleton t c ih =>
    by_cases ht : Shallow room t
    · have hhigh : ¬ height (t ++ [c]) ≤ room := fun hle => h (shallow_concat.mpr ⟨ht, hle⟩)
      have hbefore := ht t.length
      rw [List.take_length] at hbefore
      rw [height_append] at hhigh
      rcases height_singleton c with ⟨rfl, hc⟩ | ⟨-, hc⟩ | hc
      · exact ⟨t, [], rfl, ht, by omega⟩
      · omega
      · omega
    · obtain ⟨a, b, rfl, ha⟩ := ih ht
      exact ⟨a, b ++ [c], by simp, ha⟩

/-! ### The partner of a bracket in parsing -/

namespace Program

/-- When parsing comes to the closing bracket at `q`, the innermost open loop is the one that it
opened at `i`. -/
def Closes (text : List Char) (i q : Nat) : Prop :=
  text[q]? = some ']' ∧ ∃ r before rest, ({} : Reading).text 0 (text.take q) = .ok r ∧
    r.opened = ⟨i, before⟩ :: rest

theorem closes_iff {t : List Char} {i q : Nat} :
    Closes t i q ↔ ClosingsMatched (t.take q) ∧ Partners t i q := by
  constructor
  · rintro ⟨hclose, r, before, rest, hr, hopened⟩
    have hmatched := Reading.closingsMatched_of_text hr
    have hnot : ¬ Balanced (t.take q) := by
      intro hbalanced
      obtain ⟨r', hr', hheight⟩ := Reading.text_of_closingsMatched hmatched
      cases hr.symm.trans hr'
      rw [hopened, hbalanced.2, List.length_cons] at hheight
      omega
    -- The innermost open loop is the one before the last piece of what has been read.
    obtain ⟨a, last, hcut, ha, hlast⟩ := exists_last_piece hmatched hnot
    obtain ⟨r', before', rest', hr', hopened'⟩ := Reading.text_of_open ha hlast
    rw [hcut] at hr
    cases hr.symm.trans hr'
    rw [hopened] at hopened'
    obtain rfl : i = a.length := congrArg Pending.offset (List.cons.inj hopened').1
    have hopen : (t.take q)[a.length]? = some '[' := by simp [hcut]
    have hlt : a.length < q := by
      have := (List.getElem?_eq_some_iff.mp hopen).1
      exact Nat.lt_of_lt_of_le this (List.length_take_le q t)
    rw [List.getElem?_take_of_lt hlt] at hopen
    refine ⟨hmatched, hlt, hopen, hclose, ?_⟩
    rwa [hcut, List.drop_length_add_append, List.drop_succ_cons, List.drop_zero]
  · rintro ⟨hmatched, hlt, hopen, hclose, hbetween⟩
    have hhere : (t.take q)[i]? = some '[' := by rw [List.getElem?_take_of_lt hlt, hopen]
    have hlen : i < (t.take q).length := (List.getElem?_eq_some_iff.mp hhere).1
    have hcut := split_at hhere
    rw [hcut] at hmatched
    obtain ⟨r, before, rest, hr, hopened⟩ := Reading.text_of_open hmatched.left hbetween
    rw [← hcut] at hr
    rw [List.length_take_of_le (Nat.le_of_lt hlen)] at hopened
    exact ⟨hclose, r, before, rest, hr, hopened⟩

end Program

namespace Walk

variable {memory : Memory} {w : Walk} {limit n : Nat} {c : Config} {o : Step Config Outcome}

/-! ### One step -/

/-- A walk in skip mode, begun at `w` with room for `limit` loops: the bodies around it are skipped
too, and it differs from `w` in position and depth only. -/
structure Skipping (w : Walk) (limit : Nat) (c : Config) : Prop where
  skip : c.skip = true
  frames : ∀ frame ∈ c.frames, frame.skip = true
  walk : c.walk = { w with
    position := c.walk.position
    depth := w.depth + c.frames.length
    maxDepth := c.walk.maxDepth }
  room : c.room + c.frames.length = limit

/-- What a step of such a walk comes to. It goes on behind the character, in one loop more or less
if that is a bracket; it returns at a closing bracket or at the end, outside of all loops; or it
meets an opening bracket and has no room. -/
def Skipping.Passed (w : Walk) (limit : Nat) (c : Config) : Step Config Outcome → Prop
  | .next c' => Skipping w limit c' ∧ c'.walk.position = c.walk.position + 1 ∧
      ∀ ch, c.walk.code[c.walk.position]? = some ch →
        (c'.frames.length : Int) = c.frames.length + height [ch]
  | .done ⟨w', .ok again⟩ => again = false ∧ c.frames = [] ∧ w' = c.walk ∧
      ∀ ch, c.walk.code[c.walk.position]? = some ch → ch = ']'
  | .done ⟨w', .error e⟩ => e = .tooDeep ∧ c.room = 0 ∧
      c.walk.code[c.walk.position]? = some '[' ∧ w' = c.walk.entered

namespace Skipping

theorem start (w : Walk) (room : Nat) : Skipping w room ⟨w, true, [], room⟩ :=
  ⟨rfl, by simp, rfl, rfl⟩

theorem code_eq (h : Skipping w limit c) : c.walk.code = w.code := by rw [h.walk]

theorem world_eq (h : Skipping w limit c) : c.walk.world = w.world := by
  rw [h.walk]
  rfl

theorem not_halted (h : Skipping w limit c) (hh : w.world.halted = false) :
    c.walk.world.halted = false := by
  rw [h.world_eq, hh]

theorem cell_zero (h : Skipping w limit c) (hz : w.world.cell = 0) : c.walk.world.cell = 0 := by
  rw [h.world_eq, hz]

theorem advance {v : Walk} {skip : Bool} {frames : List Frame} {room : Nat}
    (h : Skipping w limit ⟨v, skip, frames, room⟩) :
    Skipping w limit (.advance v skip frames room) := by
  refine ⟨h.skip, h.frames, ?_, h.room⟩
  have hwalk : v = _ := h.walk
  show ({ v with position := v.position + 1 } : Walk) = _
  rw [hwalk]
  rfl

theorem leave {v : Walk} {skip : Bool} {frame : Frame} {frames : List Frame} {room : Nat}
    (h : Skipping w limit ⟨v, skip, frame :: frames, room⟩) :
    Skipping w limit (.advance { v with depth := v.depth - 1 } frame.skip frames (room + 1)) := by
  obtain ⟨hframe, hframes⟩ := List.forall_mem_cons.mp h.frames
  have hwalk : v = _ := h.walk
  have hroom : room + (frames.length + 1) = limit := h.room
  refine ⟨hframe, hframes, ?_, ?_⟩
  · show ({ v with position := v.position + 1, depth := v.depth - 1 } : Walk) = _
    rw [hwalk]
    rfl
  · show room + 1 + frames.length = limit
    omega

theorem entered {v : Walk} {skip : Bool} {frames : List Frame} {room : Nat}
    (h : Skipping w limit ⟨v, skip, frames, room + 1⟩) (hz : w.world.cell = 0) :
    Skipping w limit ⟨v.entered, v.world.cell == 0, ⟨v.position + 1, skip⟩ :: frames, room⟩ := by
  have hwalk : v = _ := h.walk
  have hroom : room + 1 + frames.length = limit := h.room
  refine ⟨beq_iff_eq.mpr (h.cell_zero hz), List.forall_mem_cons.mpr ⟨h.skip, h.frames⟩, ?_, ?_⟩
  · show v.entered = _
    rw [hwalk]
    rfl
  · show room + (frames.length + 1) = limit
    omega

theorem passed (h : Skipping w limit c) (hh : w.world.halted = false) (hz : w.world.cell = 0)
    (ho : Stepped memory c o) : Passed w limit c o := by
  cases ho with
  | @stuck v skip frames room hstuck =>
    have hnone : v.code[v.position]? = none :=
      Array.getElem?_eq_none (hstuck.size_le (h.not_halted hh))
    have hnot : ∀ {P : Char → Prop} (ch : Char), v.code[v.position]? = some ch → P ch := by
      intro P ch hch
      rw [hnone] at hch
      contradiction
    cases frames with
    | nil => exact ⟨rfl, rfl, rfl, hnot⟩
    | cons frame frames => exact ⟨h.leave, rfl, hnot⟩
  | inert hh' hc hs =>
    refine ⟨h.advance, rfl, fun ch hch => ?_⟩
    cases hc.symm.trans hch
    rw [height_cons_inert hs]
    rfl
  | @skipped _ _ _ p hh' hc =>
    refine ⟨h.advance, rfl, fun ch hch => ?_⟩
    cases hc.symm.trans hch
    rw [height_prim]
    rfl
  | performed hh' hc => exact absurd h.skip Bool.false_ne_true
  | entered hh' hc =>
    refine ⟨h.entered hz, rfl, fun ch hch => ?_⟩
    cases hc.symm.trans hch
    rfl
  | full hh' hc => exact ⟨rfl, rfl, hc, rfl⟩
  | @closing v skip frames room hh' hc =>
    have hagain : (v.world.cell != 0) = false := bne_eq_false_iff_eq.mpr (h.cell_zero hz)
    rw [hagain]
    cases frames with
    | nil => exact ⟨rfl, rfl, rfl, fun ch hch => (Option.some.inj (hc.symm.trans hch)).symm⟩
    | cons frame frames =>
      refine ⟨h.leave, rfl, fun ch hch => ?_⟩
      cases hc.symm.trans hch
      show (frames.length : Int) = (frames.length + 1 : Nat) + -1
      omega

end Skipping

/-! ### Runs -/

/-- A skip walk of a body passes a text and ends at a position, with nothing changed but that and
the largest depth, when there is room for the loops on the way. When there is not, it is given up,
and has had no effect either. -/
def SkipsTo (memory : Memory) (w : Walk) (room : Nat) (passed : List Char) (last : Nat) : Prop :=
  (Shallow room passed → ∃ fuel deepest, w.body memory room fuel true =
    some ⟨{ w with position := last, maxDepth := deepest }, .ok false⟩) ∧
  (¬ Shallow room passed → ∃ fuel w', w.body memory room fuel true = some ⟨w', .error .tooDeep⟩ ∧
    w'.world = w.world)

section Runs

variable {passed behind : List Char} (hh : w.world.halted = false) (hz : w.world.cell = 0)
include hh hz

theorem skipping_of_after (h : (engine memory).after n ⟨w, true, [], limit⟩ = .next c) :
    Skipping w limit c := by
  refine Engine.after_next_of_step (P := Skipping w limit) (fun {s t} hs hstep => ?_)
    (.start w limit) h
  have hpassed := hs.passed hh hz (stepped memory s)
  rw [hstep] at hpassed
  exact hpassed.1

/-- A text that closes no more than it opens, and opens no more than there is room for, is passed
with one step for each character. -/
theorem exists_after_passed (htext : w.code.toList.drop w.position = passed ++ behind)
    (hmatched : ClosingsMatched passed) (hroom : Shallow limit passed) :
    ∃ c, (engine memory).after passed.length ⟨w, true, [], limit⟩ = .next c ∧ Skipping w limit c ∧
      c.walk.position = w.position + passed.length ∧ (c.frames.length : Int) = height passed := by
  induction passed using List.reverseRecOn generalizing behind with
  | nil => exact ⟨_, rfl, .start w limit, rfl, rfl⟩
  | append_singleton passed ch ih =>
    rw [List.append_assoc, List.singleton_append] at htext
    obtain ⟨c, hc, hskipping, hposition, hframes⟩ := ih htext hmatched.left hroom.left
    have hchar : c.walk.code[c.walk.position]? = some ch := by
      rw [hskipping.code_eq, hposition]
      exact (drop_behind htext).1
    have hlow := hmatched (passed ++ [ch]).length
    have hhigh := (shallow_concat.mp hroom).2
    rw [List.take_length, height_append, ← hframes] at hlow
    rw [height_append, ← hframes] at hhigh
    have hpassed := hskipping.passed hh hz (stepped memory c)
    cases hstep : (engine memory).step c with
    | next c' =>
      rw [hstep] at hpassed
      obtain ⟨hskipping', hnext, hlength⟩ := hpassed
      rw [List.length_append, List.length_singleton, height_append, ← hframes]
      exact ⟨c', Engine.after_then_step hc hstep, hskipping', by omega, hlength ch hchar⟩
    | done o =>
      -- The walk returns only where the height falls below zero, and fails only where it rises
      -- above the limit.
      rw [hstep] at hpassed
      obtain ⟨w', e | again⟩ := o
      · obtain ⟨-, hfull, hopen, -⟩ := hpassed
        have hlimit := hskipping.room
        cases hchar.symm.trans hopen
        rw [height_opening, height_nil] at hhigh
        omega
      · obtain ⟨-, hnil, -, hclose⟩ := hpassed
        rw [hclose ch hchar, hnil, height_closing, height_nil] at hlow
        exact absurd hlow (by decide)

theorem given_up_of_deep (htext : w.code.toList.drop w.position = passed ++ behind)
    (hmatched : ClosingsMatched passed) (hdeep : ¬ Shallow limit passed) :
    ∃ fuel w', w.body memory limit fuel true = some ⟨w', .error .tooDeep⟩ ∧
      w'.world = w.world := by
  obtain ⟨a, b, rfl, ha, hheight⟩ := exists_first_too_deep hdeep
  rw [List.append_assoc, List.cons_append] at htext
  obtain ⟨⟨v, skip, frames, room⟩, hc, hskipping, hposition, hframes⟩ :=
    exists_after_passed hh hz htext hmatched.left ha
  have hchar : v.code[v.position]? = some '[' := by
    rw [hskipping.code_eq, hposition]
    exact (drop_behind htext).1
  obtain rfl : room = 0 := by
    have hlimit : room + frames.length = limit := hskipping.room
    have hfull : (frames.length : Int) = limit := hframes.trans hheight
    omega
  have hstep : (engine memory).step ⟨v, skip, frames, 0⟩ = .done ⟨v.entered, .error .tooDeep⟩ :=
    step_opening_full (hskipping.not_halted hh) hchar
  exact ⟨a.length + 1, _, body_eq_some_iff.mpr (Engine.after_then_step hc hstep),
    hskipping.world_eq⟩

theorem skipsTo_closing (htext : w.code.toList.drop w.position = passed ++ ']' :: behind)
    (hbalanced : Balanced passed) :
    SkipsTo memory w limit passed (w.position + passed.length) := by
  refine ⟨fun hroom => ?_, given_up_of_deep hh hz htext hbalanced.1⟩
  obtain ⟨⟨v, skip, frames, room⟩, hc, hskipping, hposition, hframes⟩ :=
    exists_after_passed hh hz htext hbalanced.1 hroom
  have hchar : v.code[v.position]? = some ']' := by
    rw [hskipping.code_eq, hposition]
    exact (drop_behind htext).1
  rw [hbalanced.2] at hframes
  obtain rfl : frames = [] := List.eq_nil_of_length_eq_zero (Int.ofNat.inj hframes)
  have hagain : (v.world.cell != 0) = false := bne_eq_false_iff_eq.mpr (hskipping.cell_zero hz)
  have hstep : (engine memory).step ⟨v, skip, [], room⟩ = .done ⟨v, .ok false⟩ := by
    rw [step_closing (hskipping.not_halted hh) hchar, hagain]
    rfl
  have hwalk : v = { w with position := w.position + passed.length, maxDepth := v.maxDepth } :=
    hposition ▸ hskipping.walk
  refine ⟨passed.length + 1, v.maxDepth, body_eq_some_iff.mpr ?_⟩
  rw [← hwalk]
  exact Engine.after_then_step hc hstep

theorem skipsTo_end (htext : w.code.toList.drop w.position = passed)
    (hmatched : ClosingsMatched passed) (hsize : w.position ≤ w.code.size) :
    SkipsTo memory w limit passed (w.code.size + openLoops passed) := by
  have hcut : w.code.toList.drop w.position = passed ++ [] := by rw [htext, List.append_nil]
  refine ⟨fun hroom => ?_, given_up_of_deep hh hz hcut hmatched⟩
  obtain ⟨⟨v, skip, frames, room⟩, hc, hskipping, hposition, hframes⟩ :=
    exists_after_passed hh hz hcut hmatched hroom
  have hend : v.position = w.code.size := hposition.trans (end_eq_size hsize htext)
  have hstuck : v.Stuck := .inr (Nat.le_of_eq (by rw [hskipping.code_eq, hend]))
  obtain ⟨j, hj, -⟩ : (engine memory).Arrives ⟨v, skip, frames, room⟩ 0 _ := arrives_unwound hstuck
  have hopen : frames.length = openLoops passed := by
    have := openLoops_take fun m (_ : m ≤ passed.length) => hmatched m
    rw [List.take_length, ← hframes] at this
    exact (Int.ofNat.inj this).symm
  have hwalk : v = _ := hskipping.walk
  have hdepth : v.depth - frames.length = w.depth := by
    rw [hwalk]
    exact Nat.add_sub_cancel _ _
  refine ⟨passed.length + j, v.maxDepth, body_eq_some_iff.mpr ?_⟩
  rw [Engine.after_add_next hc, hj, ← hopen, ← hend, hdepth, hwalk]

end Runs

/-- A skip walk has no effect. It ends at the partner of the bracket before it, which is where
parsing closes the loop, or else as far behind the text as loops are left open; and it is given up
when the loops on the way nest too deep. -/
theorem skip_walk_finds_partner {i : Nat} (hopen : w.code[i]? = some '[')
    (hposition : w.position = i + 1) (hpointer : 0 ≤ w.tape.pointer)
    (hcell : w.tape.current = .ok 0) (memory : Memory) (room : Nat) :
    (∀ d, FirstUnmatched (w.code.toList.drop (i + 1)) d →
      SkipsTo memory w room ((w.code.toList.drop (i + 1)).take d) (i + 1 + d) ∧
      (Balanced w.code.toList → ∀ q, Program.Closes w.code.toList i q ↔ q = i + 1 + d)) ∧
    ((∀ d, ¬ FirstUnmatched (w.code.toList.drop (i + 1)) d) →
      SkipsTo memory w room (w.code.toList.drop (i + 1))
        (w.code.size + openLoopsFrom w.code.toList (i + 1))) ∧
    ∀ n c, (engine memory).after n ⟨w, true, [], room⟩ = .next c →
      c.skip = true ∧ (∀ frame ∈ c.frames, frame.skip = true) ∧ c.walk.world = w.world := by
  have hh : w.world.halted = false := World.not_halted_iff.mpr hpointer
  have hz : w.world.cell = 0 := Except.ok.inj ((current_of_not_halted hh).symm.trans hcell)
  have hlt : i < w.code.size := (Array.getElem?_eq_some_iff.mp hopen).1
  have hlist : w.code.toList[i]? = some '[' := by rw [Array.getElem?_toList, hopen]
  have hrest : w.code.toList.drop w.position = w.code.toList.drop (i + 1) := by rw [hposition]
  refine ⟨fun d hd => ⟨?_, fun hbalanced q => ?_⟩, fun hnone => ?_, fun n c hc => ?_⟩
  · obtain ⟨hclose, hbalanced⟩ := hd.spec
    have hlength := List.length_take_of_le (Nat.le_of_lt (List.getElem?_eq_some_iff.mp hclose).1)
    have hskips : SkipsTo memory w room _ _ :=
      skipsTo_closing hh hz (hrest.trans (split_at hclose)) hbalanced
    rwa [hposition, hlength] at hskips
  · constructor
    · intro hq
      obtain ⟨-, hpartners⟩ := Program.closes_iff.mp hq
      obtain ⟨d', rfl⟩ := Nat.exists_eq_add_of_le hpartners.1
      rw [((partners_iff hlist).mp hpartners).unique hd]
    · rintro rfl
      have hmatched := hbalanced.1
      rw [← List.take_append_drop (i + 1 + d) w.code.toList] at hmatched
      exact Program.closes_iff.mpr ⟨hmatched.left, (partners_iff hlist).mpr hd⟩
  · have hmatched : ClosingsMatched (w.code.toList.drop (i + 1)) := by
      by_contra hnot
      obtain ⟨d, hd⟩ := exists_firstUnmatched hnot
      exact hnone d hd
    rw [openLoopsFrom_eq (by rwa [Array.length_toList])]
    exact skipsTo_end hh hz hrest hmatched (by omega)
  · have h := skipping_of_after hh hz hc
    exact ⟨h.skip, h.frames, h.world_eq⟩

/-- A body with a loop and an input in it, for which there is room or not, and a body that is not
closed, with another one in it. -/
theorem skip_walk_finds_partner_loops :
    (∃ w : Walk, w = ⟨"-[[+],]".toList.toArray, 2, 4, 5, ⟨#[7, 0], 1⟩, .ofBytes [9], {}, []⟩ ∧
      (∃ fuel deepest, w.body (.below 2) 1 fuel true =
        some ⟨{ w with position := 6, maxDepth := deepest }, .ok false⟩) ∧
      Program.Closes w.code.toList 1 6 ∧
      ∃ fuel w', w.body (.below 2) 0 fuel true = some ⟨w', .error .tooDeep⟩ ∧ w'.world = w.world) ∧
    ∃ w : Walk, w = ⟨"[[.][>".toList.toArray, 1, 1, 1, {}, {}, {}, []⟩ ∧
      ∃ fuel deepest, w.body (.below 2) 1 fuel true =
        some ⟨{ w with position := 7, maxDepth := deepest }, .ok false⟩ := by
  have hfirst : FirstUnmatched ("-[[+],]".toList.drop 2) 4 := ⟨by decide, by decide⟩
  obtain ⟨hclosed, -, -⟩ := skip_walk_finds_partner (i := 1)
    (w := ⟨"-[[+],]".toList.toArray, 2, 4, 5, ⟨#[7, 0], 1⟩, .ofBytes [9], {}, []⟩) rfl rfl
    (by decide) rfl (.below 2) 1
  obtain ⟨hfull, -, -⟩ := skip_walk_finds_partner (i := 1)
    (w := ⟨"-[[+],]".toList.toArray, 2, 4, 5, ⟨#[7, 0], 1⟩, .ofBytes [9], {}, []⟩) rfl rfl
    (by decide) rfl (.below 2) 0
  obtain ⟨-, hopen, -⟩ := skip_walk_finds_partner (i := 0)
    (w := ⟨"[[.][>".toList.toArray, 1, 1, 1, {}, {}, {}, []⟩) rfl rfl (by decide) rfl (.below 2) 1
  have hcount : openLoopsFrom "[[.][>".toList 1 = 1 := by decide
  have hnone : ∀ d, ¬ FirstUnmatched ("[[.][>".toList.drop 1) d :=
    fun d hd => hd.not_closingsMatched (by decide)
  obtain ⟨⟨hends, -⟩, hcloses⟩ := hclosed 4 hfirst
  obtain ⟨fuel, deepest, hbehind⟩ := (hopen hnone).1 (by decide)
  refine ⟨⟨_, rfl, hends (by decide), (hcloses (by decide) 6).mpr rfl, (hfull 4 hfirst).1.2
    (by decide)⟩, _, rfl, fuel, deepest, ?_⟩
  rw [hbehind, hcount]
  rfl

theorem given_up_of_openings (memory : Memory) {room n : Nat} (h : room < n) :
    ∃ fuel w', ((start (List.replicate (n + 1) '[') {} {}).seek 1).body memory room fuel true =
      some ⟨w', .error .tooDeep⟩ := by
  have hheight : ∀ m, height ((List.replicate n '[').take m) = (min m n : Nat) := by
    intro m
    simp [height, List.take_replicate, List.count_replicate]
  have hdeep : ¬ Shallow room (List.replicate n '[') := by
    intro hroom
    have := hroom n
    rw [hheight] at this
    omega
  have hmatched : ClosingsMatched (List.replicate n '[') := by
    intro m
    rw [hheight]
    omega
  have hskips : SkipsTo memory ((start (List.replicate (n + 1) '[') {} {}).seek 1) room _ _ :=
    skipsTo_end rfl rfl rfl hmatched (by simp [seek, start])
  obtain ⟨fuel, w', hbody, -⟩ := hskips.2 hdeep
  exact ⟨fuel, w', hbody⟩

/-- However much room a host has for nested loops, a skip walk does not return whatever the text:
there is no room for as many opening brackets as that and two more. -/
theorem skip_walk_given_up :
    ¬ ∃ (memory : Memory) (room : Nat), ∀ (w : Walk) (i : Nat), w.code[i]? = some '[' →
      w.position = i + 1 → 0 ≤ w.tape.pointer → w.tape.current = .ok 0 →
      ∃ fuel w', w.body memory room fuel true = some ⟨w', .ok false⟩ := by
  rintro ⟨memory, room, hreturns⟩
  obtain ⟨fuel, w', hbody⟩ := hreturns ((start (List.replicate (room + 2) '[') {} {}).seek 1) 0 rfl
    rfl (Int.le_refl 0) rfl
  obtain ⟨fuel', w'', hbody'⟩ := given_up_of_openings memory (Nat.lt_succ_self room)
  cases runFor_unique hbody hbody'

end Walk

end TapeLang
