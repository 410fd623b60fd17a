import TapeLang.Bundle
import TapeLang.Proofs.Delivery
import TapeLang.Proofs.Flushing
import TapeLang.Proofs.Slate

/-! The bundled program `rot13` rotates the letters of its input. A round of its loop works on the
first eight cells. It counts the byte down and its copy up, and divides it by 32 on the way: the
quotient is 2 or 3 for the two rows of letters, and the remainder is then the place of the letter.
For such a byte the place is divided by 13, and the quotient says whether the letter is in the first
half of the alphabet, in the second, or none. Every loop of a round ends where the round expects it,
so the work cells are zero again when the next byte is read. -/

namespace TapeLang

namespace Rot13

/-- A byte; one that is a letter is moved by thirteen places in the alphabet of its case. -/
def rotate (b : UInt8) : UInt8 :=
  if 65 ≤ b ∧ b ≤ 90 then 65 + (b - 65 + 13) % 26
  else if 97 ≤ b ∧ b ≤ 122 then 97 + (b - 97 + 13) % 26
  else b

/-- What the program writes: the bytes before the first 255, each of them rotated. -/
def cipher (x : List UInt8) : List UInt8 := (x.takeWhile (· ≠ 255)).map rotate

theorem toNat_rotate (b : UInt8) :
    (rotate b).toNat =
      if 65 ≤ b.toNat ∧ b.toNat ≤ 90 then 65 + (b.toNat - 65 + 13) % 26
      else if 97 ≤ b.toNat ∧ b.toNat ≤ 122 then 97 + (b.toNat - 97 + 13) % 26
      else b.toNat := by
  simp only [rotate, UInt8.le_iff_toNat_le, UInt8.reduceToNat]
  split
  · rename_i h
    have hsub : (b - 65).toNat = b.toNat - 65 :=
      UInt8.toNat_sub_of_le b 65 (UInt8.le_iff_toNat_le.mpr h.1)
    simp only [UInt8.toNat_add, UInt8.toNat_mod, hsub, UInt8.reduceToNat]
    omega
  · split
    · rename_i h
      have hsub : (b - 97).toNat = b.toNat - 97 :=
        UInt8.toNat_sub_of_le b 97 (UInt8.le_iff_toNat_le.mpr h.1)
      simp only [UInt8.toNat_add, UInt8.toNat_mod, hsub, UInt8.reduceToNat]
      omega
    · rfl

theorem rotate_rotate (b : UInt8) : rotate (rotate b) = b := by
  rw [← UInt8.toNat_inj, toNat_rotate, toNat_rotate]
  grind

theorem rotate_eq_255_iff {b : UInt8} : rotate b = 255 ↔ b = 255 := by
  rw [← UInt8.toNat_inj, ← UInt8.toNat_inj, toNat_rotate]
  simp only [UInt8.reduceToNat]
  grind

theorem cipher_cons {b : UInt8} (hb : b ≠ 255) (x : List UInt8) :
    cipher (b :: x) = rotate b :: cipher x := by
  rw [cipher, List.takeWhile_cons_of_pos (by simpa using hb), List.map_cons, cipher]

/-- Without 255 in the input, the output is turned back into the input. -/
theorem cipher_cipher {x : List UInt8} (h : 255 ∉ x) : cipher (cipher x) = x := by
  induction x with
  | nil => rfl
  | cons b x ih =>
    obtain ⟨hb, hx⟩ := List.ne_and_not_mem_of_not_mem_cons h
    have hrotate : rotate b ≠ 255 := fun heq => hb (rotate_eq_255_iff.mp heq).symm
    rw [cipher_cons hb.symm, cipher_cons hrotate, rotate_rotate, ih hx]

/-! ### The program in pieces -/

open Slate Block

/-- Sets the divisor to 32 and the copy of the byte to 1. -/
def prepare : Block Prim := prims ">>++++" ++ again (prims ">++++++++<-") ++ prims "<+<-"

/-- A round of the division by 32, from the byte: it counts the copy and the remainder up and the
divisor down, and where the divisor is used up, the remainder becomes the divisor again. -/
def round32 : Block Prim :=
  prims ">+>+>-" ++ again (prims ">>>") ++ prims "<" ++
    again (again (prims ">+<-") ++ prims ">>+>") ++ prims "<<<<<-"

/-- Divides by 32 and puts a flag in the place of the divisor. -/
def split32 : Block Prim :=
  prims "-" ++ again (prepare ++ again round32) ++ prims ">>>" ++ again (prims "-") ++ prims "+"

/-- Clears the flag unless the quotient is 2 or 3, and clears the quotient. -/
def screen : Block Prim :=
  prims ">--" ++ again (prims "-" ++ again (prims "<->+++" ++ again (prims "-"))) ++ prims "<"

/-- A round of the division by 13, from the place of the letter. -/
def round13 : Block Prim :=
  prims ">-" ++ again (prims ">+>>") ++ prims ">" ++
    again (prims "+" ++ again (prims "<+>-") ++ prims ">+>>") ++ prims "<<<<<-"

/-- Divides the place of the letter by 13, and restores the divisor. -/
def split13 : Block Prim :=
  prims "++++++++++++<" ++ again round13 ++ prims ">>" ++ again (prims "<+>-") ++ prims ">"

/-- Takes the divisor off the copy of the byte for a letter of the second half, and clears it for a
byte that is no letter. -/
def lower : Block Prim :=
  again (prims "-" ++ again (prims "-<<" ++ again (prims "-") ++ prims ">>") ++ prims "<<" ++
    again (prims "<<->>-") ++ prims ">>")

/-- Adds what is left of the divisor to the copy of the byte. -/
def raise : Block Prim := prims "<<" ++ again (prims "<<+>>-")

/-- Writes the copy of the byte and reads the next byte. -/
def deliver : Block Prim :=
  prims "<" ++ again (prims "-") ++ prims "<." ++ again (prims "-") ++ prims "<-,+"

def round : Block Prim := split32 ++ screen ++ again (split13 ++ lower ++ raise) ++ deliver

def code : Block Prim := prims "-,+" ++ again round

theorem parse_rot13 : Program.parse Bundle.rot13.toList = .ok ⟨code.map Prim.op, 5, 190⟩ := by
  have hsymbols : symbols Bundle.rot13.toList = (code.map Prim.op).symbols := by
    unfold Bundle.rot13
    simp only [String.toList_append, symbols_append]
    decide +kernel
  exact (Program.parse_of_symbols hsymbols).trans (congrArg Except.ok (by decide +kernel))

/-! ### The division by 32 -/

variable {r : Reader} {w : Writer}

theorem turns_prepare (x : Int) :
    Turns prepare ⟨[x, 0, 0, 0, 0, 0, 0, 0], 0, r, w⟩ ⟨[x - 1, 1, 0, 32, 0, 0, 0, 0], 0, r, w⟩ :=
  calc
    Turns (prims ">>++++") ⟨[x, 0, 0, 0, 0, 0, 0, 0], 0, r, w⟩
      ⟨[x, 0, 4, 0, 0, 0, 0, 0], 2, r, w⟩ := .prims rfl
    Turns (again (prims ">++++++++<-")) _ ⟨[x, 0, 0, 32, 0, 0, 0, 0], 2, r, w⟩ :=
      .drain (g := fun c a => ⟨[x, 0, c, a, 0, 0, 0, 0], 2, r, w⟩) (d := 8) (c := 4)
        (fun _ _ => rfl) (fun c a => .prims (by simp; omega)) (by decide) (by decide) 0
    Turns (prims "<+<-") _ _ := .prims rfl

theorem turns_round32 {d y m v q : Int} (hv : (v - 1) % 256 ≠ 0) :
    Turns round32 ⟨[d, y, m, v, q, 0, 0, 0], 0, r, w⟩
      ⟨[d - 1, y + 1, m + 1, v - 1, q, 0, 0, 0], 0, r, w⟩ :=
  calc
    Turns (prims ">+>+>-") ⟨[d, y, m, v, q, 0, 0, 0], 0, r, w⟩
      ⟨[d, y + 1, m + 1, v - 1, q, 0, 0, 0], 3, r, w⟩ := .prims rfl
    -- the divisor is not used up: the pointer goes on to a zero cell, where the carry is passed
    Turns (again (prims ">>>")) _ ⟨[d, y + 1, m + 1, v - 1, q, 0, 0, 0], 6, r, w⟩ :=
      .once rfl hv (.prims rfl) rfl rfl
    Turns (prims "<") _ ⟨[d, y + 1, m + 1, v - 1, q, 0, 0, 0], 5, r, w⟩ := .prims rfl
    Turns (again (again (prims ">+<-") ++ prims ">>+>")) _ _ := .pass rfl rfl
    Turns (prims "<<<<<-") _ _ := .prims rfl

theorem turns_round32_carry {d y m q : Int} (h0 : 0 ≤ m) (hm : m < 255) :
    Turns round32 ⟨[d, y, m, 1, q, 0, 0, 0], 0, r, w⟩
      ⟨[d - 1, y + 1, 0, m + 1, q + 1, 0, 0, 0], 0, r, w⟩ :=
  have hcarry : Turns (again (prims ">+<-") ++ prims ">>+>")
      ⟨[d, y + 1, m + 1, 0, q, 0, 0, 0], 2, r, w⟩
      ⟨[d, y + 1, 0, m + 1, q + 1, 0, 0, 0], 5, r, w⟩ :=
    calc
      Turns (again (prims ">+<-")) ⟨[d, y + 1, m + 1, 0, q, 0, 0, 0], 2, r, w⟩
          ⟨[d, y + 1, 0, 0 + 1 * (m + 1), q, 0, 0, 0], 2, r, w⟩ :=
        .drain (g := fun c a => ⟨[d, y + 1, c, a, q, 0, 0, 0], 2, r, w⟩)
          (fun _ _ => rfl) (fun c a => .prims (by simp)) (by omega) (by omega) 0
      Turns (prims ">>+>") _ _ := .prims (by simp)
  calc
    Turns (prims ">+>+>-") ⟨[d, y, m, 1, q, 0, 0, 0], 0, r, w⟩
      ⟨[d, y + 1, m + 1, 0, q, 0, 0, 0], 3, r, w⟩ := .prims rfl
    -- the divisor is used up: the pointer stays, and the next loop is met at the remainder
    Turns (again (prims ">>>")) _ _ := .pass rfl rfl
    Turns (prims "<") _ ⟨[d, y + 1, m + 1, 0, q, 0, 0, 0], 2, r, w⟩ := .prims rfl
    Turns (again (again (prims ">+<-") ++ prims ">>+>")) _ _ :=
      .once rfl (by omega) hcarry rfl rfl
    Turns (prims "<<<<<-") _ _ := .prims rfl

/-- The slate after `i` rounds of the division by 32 of `n`. -/
def divided32 (r : Reader) (w : Writer) (n i : Nat) : Slate :=
  ⟨[n - i, i + 1, (i % 32 : Nat), 32 - (i % 32 : Nat), (i / 32 : Nat), 0, 0, 0], 0, r, w⟩

theorem turns_divided32 (n i : Nat) :
    Turns round32 (divided32 r w n i) (divided32 r w n (i + 1)) := by
  by_cases hi : i % 32 = 31
  · have hs : divided32 r w n i =
        ⟨[n - i, i + 1, 31, 1, (i / 32 : Nat), 0, 0, 0], 0, r, w⟩ := by
      simp only [divided32, Slate.mk.injEq, List.cons.injEq, true_and, and_true]
      omega
    have ht : divided32 r w n (i + 1) =
        ⟨[n - i - 1, i + 1 + 1, 0, 31 + 1, (i / 32 : Nat) + 1, 0, 0, 0], 0, r, w⟩ := by
      simp only [divided32, Slate.mk.injEq, List.cons.injEq, and_true]
      omega
    rw [hs, ht]
    exact turns_round32_carry (by decide) (by decide)
  · have ht : divided32 r w n (i + 1) =
        ⟨[n - i - 1, i + 1 + 1, (i % 32 : Nat) + 1, 32 - (i % 32 : Nat) - 1, (i / 32 : Nat), 0, 0,
          0], 0, r, w⟩ := by
      simp only [divided32, Slate.mk.injEq, List.cons.injEq, and_true]
      omega
    rw [ht]
    exact turns_round32 (by omega)

/-- What is left of the divisor depends on whether the loop is entered at all, but is cleared
next. -/
theorem exists_turns_divide (x : Nat) (hx : x < 256) : ∃ v, 0 ≤ v ∧ v < 256 ∧
    Turns (again (prepare ++ again round32)) ⟨[x, 0, 0, 0, 0, 0, 0, 0], 0, r, w⟩
      ⟨[0, x, ((x - 1) % 32 : Nat), v, ((x - 1) / 32 : Nat), 0, 0, 0], 0, r, w⟩ := by
  cases x with
  | zero => exact ⟨0, by decide, by decide, .pass rfl rfl⟩
  | succ n =>
    have hstart : divided32 r w n 0 = ⟨[(n + 1 : Nat) - 1, 1, 0, 32, 0, 0, 0, 0], 0, r, w⟩ := by
      simp [divided32]
    have hend : divided32 r w n n = ⟨[0, (n + 1 : Nat), (n % 32 : Nat), 32 - (n % 32 : Nat),
        (n / 32 : Nat), 0, 0, 0], 0, r, w⟩ := by
      simp [divided32]
    have hrounds : Turns (again round32) (divided32 r w n 0) (divided32 r w n n) :=
      .counted (f := divided32 r w n) (by omega) (fun i _ => rfl) fun i _ => turns_divided32 n i
    rw [hstart, hend] at hrounds
    exact ⟨32 - (n % 32 : Nat), by omega, by omega,
      .once rfl (by omega) ((turns_prepare _).trans hrounds) rfl rfl⟩

theorem turns_split32 (x : Nat) (hx : x < 256) :
    Turns split32 ⟨[x + 1, 0, 0, 0, 0, 0, 0, 0], 0, r, w⟩
      ⟨[0, x, ((x - 1) % 32 : Nat), 1, ((x - 1) / 32 : Nat), 0, 0, 0], 3, r, w⟩ := by
  obtain ⟨v, h0, hv, hdivide⟩ := exists_turns_divide (r := r) (w := w) x hx
  calc
    Turns (prims "-") ⟨[x + 1, 0, 0, 0, 0, 0, 0, 0], 0, r, w⟩
      ⟨[x, 0, 0, 0, 0, 0, 0, 0], 0, r, w⟩ := .prims (by simp)
    Turns (again (prepare ++ again round32)) _ _ := hdivide
    Turns (prims ">>>") _
      ⟨[0, x, ((x - 1) % 32 : Nat), v, ((x - 1) / 32 : Nat), 0, 0, 0], 3, r, w⟩ := .prims rfl
    Turns (again (prims "-")) _ _ := .clear rfl h0 hv
    Turns (prims "+") _ _ := .prims rfl

/-! ### The quotient -/

/-- The flag is left for the quotients of the two rows of letters. -/
theorem turns_screen (x m : Int) {q : Nat} (hq : q < 8) :
    Turns screen ⟨[0, x, m, 1, q, 0, 0, 0], 3, r, w⟩
      ⟨[0, x, m, if q = 2 ∨ q = 3 then 1 else 0, 0, 0, 0, 0], 3, r, w⟩ := by
  have hloop : Turns (again (prims "-" ++ again (prims "<->+++" ++ again (prims "-"))))
      ⟨[0, x, m, 1, q - 1 - 1, 0, 0, 0], 4, r, w⟩
      ⟨[0, x, m, if q = 2 ∨ q = 3 then 1 else 0, 0, 0, 0, 0], 4, r, w⟩ := by
    by_cases h2 : q = 2
    · subst h2
      exact .pass rfl rfl
    · by_cases h3 : q = 3
      · subst h3
        exact .once rfl (by decide) ((Turns.prims rfl).trans (.pass rfl rfl)) rfl rfl
      · rw [if_neg (by omega)]
        have hclear : Turns (prims "<->+++" ++ again (prims "-"))
            ⟨[0, x, m, 1, q - 1 - 1 - 1, 0, 0, 0], 4, r, w⟩
            ⟨[0, x, m, 0, 0, 0, 0, 0], 4, r, w⟩ :=
          calc
            Turns (prims "<->+++") ⟨[0, x, m, 1, q - 1 - 1 - 1, 0, 0, 0], 4, r, w⟩
              ⟨[0, x, m, 0, q, 0, 0, 0], 4, r, w⟩ := .prims (by simp)
            Turns (again (prims "-")) _ _ := .clear rfl (by omega) (by omega)
        exact .once rfl (by omega)
          ((Turns.prims rfl).trans (.once rfl (by omega) hclear rfl rfl)) rfl rfl
  calc
    Turns (prims ">--") ⟨[0, x, m, 1, q, 0, 0, 0], 3, r, w⟩
      ⟨[0, x, m, 1, q - 1 - 1, 0, 0, 0], 4, r, w⟩ := .prims rfl
    Turns (again (prims "-" ++ again (prims "<->+++" ++ again (prims "-")))) _ _ := hloop
    Turns (prims "<") _ _ := .prims rfl

/-! ### The division by 13 -/

theorem turns_round13 {x d v m q : Int} (hv : (v - 1) % 256 ≠ 0) :
    Turns round13 ⟨[0, x, d, v, m, q, 0, 0], 2, r, w⟩
      ⟨[0, x, d - 1, v - 1, m + 1, q, 0, 0], 2, r, w⟩ :=
  calc
    Turns (prims ">-") ⟨[0, x, d, v, m, q, 0, 0], 2, r, w⟩
      ⟨[0, x, d, v - 1, m, q, 0, 0], 3, r, w⟩ := .prims rfl
    Turns (again (prims ">+>>")) _ ⟨[0, x, d, v - 1, m + 1, q, 0, 0], 6, r, w⟩ :=
      .once rfl hv (.prims rfl) rfl rfl
    Turns (prims ">") _ ⟨[0, x, d, v - 1, m + 1, q, 0, 0], 7, r, w⟩ := .prims rfl
    Turns (again (prims "+" ++ again (prims "<+>-") ++ prims ">+>>")) _ _ := .pass rfl rfl
    Turns (prims "<<<<<-") _ _ := .prims rfl

theorem turns_round13_carry {x d m q : Int} (h0 : 0 < m) (hm : m < 255) :
    Turns round13 ⟨[0, x, d, 1, m, q, 0, 0], 2, r, w⟩
      ⟨[0, x, d - 1, m + 1, 0, q + 1, 0, 0], 2, r, w⟩ :=
  have hcarry : Turns (prims "+" ++ again (prims "<+>-") ++ prims ">+>>")
      ⟨[0, x, d, 0, m, q, 0, 0], 4, r, w⟩ ⟨[0, x, d, m + 1, 0, q + 1, 0, 0], 7, r, w⟩ :=
    calc
      Turns (prims "+") ⟨[0, x, d, 0, m, q, 0, 0], 4, r, w⟩
          ⟨[0, x, d, 0, m + 1, q, 0, 0], 4, r, w⟩ := .prims rfl
      Turns (again (prims "<+>-")) _ ⟨[0, x, d, 0 + 1 * (m + 1), 0, q, 0, 0], 4, r, w⟩ :=
        .drain (g := fun c a => ⟨[0, x, d, a, c, q, 0, 0], 4, r, w⟩)
          (fun _ _ => rfl) (fun c a => .prims (by simp)) (by omega) (by omega) 0
      Turns (prims ">+>>") _ _ := .prims (by simp)
  calc
    Turns (prims ">-") ⟨[0, x, d, 1, m, q, 0, 0], 2, r, w⟩
      ⟨[0, x, d, 0, m, q, 0, 0], 3, r, w⟩ := .prims rfl
    Turns (again (prims ">+>>")) _ _ := .pass rfl rfl
    Turns (prims ">") _ ⟨[0, x, d, 0, m, q, 0, 0], 4, r, w⟩ := .prims rfl
    Turns (again (prims "+" ++ again (prims "<+>-") ++ prims ">+>>")) _ _ :=
      .once rfl (by omega) hcarry rfl rfl
    Turns (prims "<<<<<-") _ _ := .prims rfl

/-- The slate after `i` rounds of the division by 13 of `m`. -/
def divided13 (r : Reader) (w : Writer) (x : Int) (m i : Nat) : Slate :=
  ⟨[0, x, m - i, 13 - (i % 13 : Nat), (i % 13 : Nat), (i / 13 : Nat), 0, 0], 2, r, w⟩

theorem turns_divided13 (x : Int) (m i : Nat) :
    Turns round13 (divided13 r w x m i) (divided13 r w x m (i + 1)) := by
  by_cases hi : i % 13 = 12
  · have hs : divided13 r w x m i =
        ⟨[0, x, m - i, 1, 12, (i / 13 : Nat), 0, 0], 2, r, w⟩ := by
      simp only [divided13, Slate.mk.injEq, List.cons.injEq, true_and, and_true]
      omega
    have ht : divided13 r w x m (i + 1) =
        ⟨[0, x, m - i - 1, 12 + 1, 0, (i / 13 : Nat) + 1, 0, 0], 2, r, w⟩ := by
      simp only [divided13, Slate.mk.injEq, List.cons.injEq, true_and, and_true]
      omega
    rw [hs, ht]
    exact turns_round13_carry (by decide) (by decide)
  · have ht : divided13 r w x m (i + 1) = ⟨[0, x, m - i - 1, 13 - (i % 13 : Nat) - 1,
        (i % 13 : Nat) + 1, (i / 13 : Nat), 0, 0], 2, r, w⟩ := by
      simp only [divided13, Slate.mk.injEq, List.cons.injEq, true_and, and_true]
      omega
    rw [ht]
    exact turns_round13 (by omega)

theorem turns_split13 (x : Int) {m : Nat} (hm : m < 32) :
    Turns split13 ⟨[0, x, m, 1, 0, 0, 0, 0], 3, r, w⟩
      ⟨[0, x, 0, 13, 0, (m / 13 : Nat), 0, 0], 5, r, w⟩ := by
  have hstart : divided13 r w x m 0 = ⟨[0, x, m, 13, 0, 0, 0, 0], 2, r, w⟩ := by
    simp [divided13]
  have hend : divided13 r w x m m =
      ⟨[0, x, 0, 13 - (m % 13 : Nat), (m % 13 : Nat), (m / 13 : Nat), 0, 0], 2, r, w⟩ := by
    simp [divided13]
  have hrounds : Turns (again round13) (divided13 r w x m 0) (divided13 r w x m m) :=
    .counted (f := divided13 r w x m) (by omega) (fun i _ => rfl) fun i _ => turns_divided13 x m i
  rw [hstart, hend] at hrounds
  calc
    Turns (prims "++++++++++++<") ⟨[0, x, m, 1, 0, 0, 0, 0], 3, r, w⟩
      ⟨[0, x, m, 13, 0, 0, 0, 0], 2, r, w⟩ := .prims (by simp)
    Turns (again round13) _ _ := hrounds
    Turns (prims ">>") _
      ⟨[0, x, 0, 13 - (m % 13 : Nat), (m % 13 : Nat), (m / 13 : Nat), 0, 0], 4, r, w⟩ := .prims rfl
    Turns (again (prims "<+>-")) _
        ⟨[0, x, 0, 13 - (m % 13 : Nat) + 1 * (m % 13 : Nat), 0, (m / 13 : Nat), 0, 0], 4, r, w⟩ :=
      .drain (g := fun c a => ⟨[0, x, 0, a, c, (m / 13 : Nat), 0, 0], 4, r, w⟩)
        (fun _ _ => rfl) (fun c a => .prims (by simp)) (by omega) (by omega) _
    Turns (prims ">") _ _ := .prims (by simp)

/-! ### The shift -/

theorem turns_lower (x : Int) {q : Nat} (hq : q < 3) :
    Turns lower ⟨[0, x, 0, 13, 0, q, 0, 0], 5, r, w⟩
      ⟨[0, x - if q = 1 then 13 else 0, 0, if q = 0 then 13 else 0, 0, 0, 0, 0], 5, r, w⟩ := by
  match q, hq with
  | 0, _ =>
    have hpass : Turns lower ⟨[0, x, 0, 13, 0, 0, 0, 0], 5, r, w⟩ _ := .pass rfl rfl
    simpa using hpass
  | 1, _ =>
    refine .once rfl (by decide) ?_ rfl rfl
    calc
      Turns (prims "-") ⟨[0, x, 0, 13, 0, 1, 0, 0], 5, r, w⟩
        ⟨[0, x, 0, 13, 0, 0, 0, 0], 5, r, w⟩ := .prims rfl
      Turns (again (prims "-<<" ++ again (prims "-") ++ prims ">>")) _ _ := .pass rfl rfl
      Turns (prims "<<") _ ⟨[0, x, 0, 13, 0, 0, 0, 0], 3, r, w⟩ := .prims rfl
      Turns (again (prims "<<->>-")) _ ⟨[0, x + -1 * 13, 0, 0, 0, 0, 0, 0], 3, r, w⟩ :=
        .drain (g := fun c a => ⟨[0, a, 0, c, 0, 0, 0, 0], 3, r, w⟩)
          (fun _ _ => rfl) (fun c a => .prims (by simp; omega)) (by decide) (by decide) x
      Turns (prims ">>") _ _ := .prims (by simp; omega)
  | 2, _ =>
    have hclear : Turns (prims "-<<" ++ again (prims "-") ++ prims ">>")
        ⟨[0, x, 0, 13, 0, 1, 0, 0], 5, r, w⟩ ⟨[0, x, 0, 0, 0, 0, 0, 0], 5, r, w⟩ :=
      calc
        Turns (prims "-<<") ⟨[0, x, 0, 13, 0, 1, 0, 0], 5, r, w⟩
          ⟨[0, x, 0, 13, 0, 0, 0, 0], 3, r, w⟩ := .prims rfl
        Turns (again (prims "-")) _ _ := .clear rfl (by decide) (by decide)
        Turns (prims ">>") _ _ := .prims rfl
    refine .once rfl (by decide) ?_ rfl rfl
    calc
      Turns (prims "-") ⟨[0, x, 0, 13, 0, 2, 0, 0], 5, r, w⟩
        ⟨[0, x, 0, 13, 0, 1, 0, 0], 5, r, w⟩ := .prims rfl
      Turns (again (prims "-<<" ++ again (prims "-") ++ prims ">>")) _ _ :=
        .once rfl (by decide) hclear rfl rfl
      Turns (prims "<<") _ ⟨[0, x, 0, 0, 0, 0, 0, 0], 3, r, w⟩ := .prims rfl
      Turns (again (prims "<<->>-")) _ _ := .pass rfl rfl
      Turns (prims ">>") _ _ := .prims (by simp)

theorem turns_raise (x : Int) {c : Int} (h0 : 0 ≤ c) (hc : c < 256) :
    Turns raise ⟨[0, x, 0, c, 0, 0, 0, 0], 5, r, w⟩
      ⟨[0, x + 1 * c, 0, 0, 0, 0, 0, 0], 3, r, w⟩ :=
  calc
    Turns (prims "<<") ⟨[0, x, 0, c, 0, 0, 0, 0], 5, r, w⟩
      ⟨[0, x, 0, c, 0, 0, 0, 0], 3, r, w⟩ := .prims rfl
    Turns (again (prims "<<+>>-")) _ _ :=
      .drain (g := fun c a => ⟨[0, a, 0, c, 0, 0, 0, 0], 3, r, w⟩)
        (fun _ _ => rfl) (fun c a => .prims (by simp)) h0 hc x

/-- What becomes of a byte in the two rows of letters, from its place in the row. -/
def shifted (x m : Nat) : Int := x - (if m / 13 = 1 then 13 else 0) + if m / 13 = 0 then 13 else 0

theorem turns_letter (x : Nat) {m : Nat} (hm : m < 32) :
    Turns (split13 ++ lower ++ raise) ⟨[0, x, m, 1, 0, 0, 0, 0], 3, r, w⟩
      ⟨[0, shifted x m, 0, 0, 0, 0, 0, 0], 3, r, w⟩ := by
  have hraise := turns_raise (r := r) (w := w) (x - if m / 13 = 1 then 13 else 0)
    (c := if m / 13 = 0 then 13 else 0) (by split <;> decide) (by split <;> decide)
  rw [Int.one_mul] at hraise
  calc
    Turns split13 _ _ := turns_split13 x hm
    Turns lower _ _ := turns_lower x (by omega)
    Turns raise _ _ := hraise

theorem wrap_shifted {b : UInt8} (h : (b.toNat - 1) / 32 = 2 ∨ (b.toNat - 1) / 32 = 3) :
    Cell.wrap (shifted b.toNat ((b.toNat - 1) % 32)) = rotate b := by
  have hb := b.toNat_lt
  rw [← UInt8.toNat_inj, Cell.toNat_wrap, toNat_rotate, shifted]
  grind

theorem rotate_of_other {b : UInt8} (h : ¬ ((b.toNat - 1) / 32 = 2 ∨ (b.toNat - 1) / 32 = 3)) :
    rotate b = b := by
  rw [← UInt8.toNat_inj, toNat_rotate]
  grind

/-! ### The loop over the input -/

theorem turns_deliver {y m : Int} (hy0 : 0 ≤ y) (hy : y < 256) (hm0 : 0 ≤ m) (hm : m < 256) :
    Turns deliver ⟨[0, y, m, 0, 0, 0, 0, 0], 3, r, w⟩
      ⟨[Cell.value r.read.1 + 1, 0, 0, 0, 0, 0, 0, 0], 0, r.read.2, w.write (Cell.wrap y)⟩ :=
  calc
    Turns (prims "<") ⟨[0, y, m, 0, 0, 0, 0, 0], 3, r, w⟩
      ⟨[0, y, m, 0, 0, 0, 0, 0], 2, r, w⟩ := .prims rfl
    Turns (again (prims "-")) _ ⟨[0, y, 0, 0, 0, 0, 0, 0], 2, r, w⟩ := .clear rfl hm0 hm
    Turns (prims "<.") _ ⟨[0, y, 0, 0, 0, 0, 0, 0], 1, r, w.write (Cell.wrap y)⟩ := .prims rfl
    Turns (again (prims "-")) _ _ := .clear rfl hy0 hy
    Turns (prims "<-,+") _ _ := .prims rfl

/-- A round writes the byte it starts with, rotated, and is ready for the next one. -/
theorem turns_round (b : UInt8) :
    Turns round ⟨[Cell.value b + 1, 0, 0, 0, 0, 0, 0, 0], 0, r, w⟩
      ⟨[Cell.value r.read.1 + 1, 0, 0, 0, 0, 0, 0, 0], 0, r.read.2, w.write (rotate b)⟩ := by
  have hb := b.toNat_lt
  have hscreen := (turns_split32 (r := r) (w := w) b.toNat hb).trans
    (turns_screen b.toNat ((b.toNat - 1) % 32 : Nat) (q := (b.toNat - 1) / 32) (by omega))
  by_cases hq : (b.toNat - 1) / 32 = 2 ∨ (b.toNat - 1) / 32 = 3
  · rw [if_pos hq] at hscreen
    rw [← wrap_shifted hq]
    refine (hscreen.trans (.once rfl (by decide) (turns_letter _ (by omega)) rfl rfl)).trans
      (turns_deliver ?_ ?_ (by decide) (by decide))
    · unfold shifted
      grind
    · unfold shifted
      grind
  · rw [if_neg hq] at hscreen
    have hsame : rotate b = Cell.wrap b.toNat :=
      (rotate_of_other hq).trans (Cell.wrap_value b).symm
    rw [hsame]
    exact (hscreen.trans (.pass rfl rfl)).trans
      (turns_deliver (by omega) (by omega) (by omega) (by omega))

theorem exists_turns_rounds (x : List UInt8) (w : Writer) :
    ∃ r, Turns (again round)
      ⟨[Cell.value (Reader.ofBytes x).read.1 + 1, 0, 0, 0, 0, 0, 0, 0], 0,
        (Reader.ofBytes x).read.2, w⟩
      ⟨[256, 0, 0, 0, 0, 0, 0, 0], 0, r, (cipher x).foldl Writer.write w⟩ :=
  Turns.stream (g := fun v r w => ⟨[v, 0, 0, 0, 0, 0, 0, 0], 0, r, w⟩) (fun _ _ _ => rfl)
    (fun b _ _ => turns_round b) x w

theorem exists_turns_code (x : List UInt8) (w : Writer) :
    ∃ r, Turns code ⟨[0, 0, 0, 0, 0, 0, 0, 0], 0, .ofBytes x, w⟩
      ⟨[256, 0, 0, 0, 0, 0, 0, 0], 0, r, (cipher x).foldl Writer.write w⟩ := by
  obtain ⟨r, hr⟩ := exists_turns_rounds x w
  exact ⟨r, (Turns.prims rfl).trans hr⟩

/-! ### The three ways to run it -/

theorem delivers {host : Host} {C : Nat} (hroom : 5 ≤ host.walkRoom) (hblock : 5 ≤ host.blockRoom)
    (hC : 8 ≤ C) (x : List UInt8) (w : Writer) :
    Delivers host Bundle.rot13.toList C (.ofBytes x) w (cipher x) := by
  obtain ⟨r, hturns⟩ := exists_turns_code x w
  have hcode : (code.map Prim.op).map Op.prim = code := by decide +kernel
  rw [← hcode] at hturns
  have hend := hturns.completes ⟨code.map Prim.op, 5, 190⟩ (by simp) rfl hC
  refine .of_prepared parse_rot13 hroom hblock (by decide) (by omega) hend ⟨rfl, ?_, ?_⟩
  · exact Slate.cells_machine_of_zeros (by simp) hC
  · exact Writer.output_foldl_write w (cipher x)

/-- The bundled program `rot13` rotates the letters of any input, up to its first 255, in each of
the three ways to run it and on every tape of eight cells or more; so an input without 255 comes
back when the program is run on its own output. -/
theorem rot13_rotates {host : Host} {C : Nat} (hroom : 5 ≤ host.walkRoom)
    (hblock : 5 ≤ host.blockRoom) (hC : 8 ≤ C) :
    ∃ text, Bundle.load? "rot13" = some text ∧
      (∀ x writer, Delivers host text.toList C (.ofBytes x) writer
        ((x.takeWhile (· ≠ 255)).map rotate)) ∧
      ∀ x writer writer', 255 ∉ x → ∃ y,
        Delivers host text.toList C (.ofBytes x) writer y ∧
        Delivers host text.toList C (.ofBytes y) writer' x := by
  have hload : Bundle.load? "rot13" = some Bundle.rot13 := rfl
  refine ⟨Bundle.rot13, hload, delivers hroom hblock hC, fun x w w' hx => ?_⟩
  have hback := delivers hroom hblock hC (cipher x) w'
  rw [cipher_cipher hx] at hback
  exact ⟨cipher x, delivers hroom hblock hC x w, hback⟩

/-- On eight cells, an input with both cases, a mark and bytes behind 255; and what stands before
the 255 comes back. -/
theorem rot13_rotates_mixed :
    255 ∉ ([72, 105, 33] : List UInt8) ∧ ∃ text, Bundle.load? "rot13" = some text ∧
      Delivers ⟨.below 9, .known, 5, 5⟩ text.toList 8 (.ofBytes [72, 105, 33, 255, 65])
        {} [85, 118, 33] ∧
      ∃ y,
        Delivers ⟨.below 9, .known, 5, 5⟩ text.toList 8 (.ofBytes [72, 105, 33]) {} y ∧
        Delivers ⟨.below 9, .known, 5, 5⟩ text.toList 8 (.ofBytes y) {}
          [72, 105, 33] := by
  have hx : 255 ∉ ([72, 105, 33] : List UInt8) := by decide
  obtain ⟨text, hload, hdelivers, hback⟩ :=
    @rot13_rotates ⟨.below 9, .known, 5, 5⟩ 8 (Nat.le_refl 5) (Nat.le_refl 5)
      (Nat.le_refl 8)
  exact ⟨hx, text, hload, hdelivers [72, 105, 33, 255, 65] {}, hback [72, 105, 33] {} {} hx⟩

end Rot13

end TapeLang
