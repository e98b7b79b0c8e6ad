import NCloud.Lib.Reader
import Mathlib.Data.List.TakeWhile

/-!
# Decimal numbers

Numbers written in decimal, and the front of a string read as one, as the functions of
the C library do: after blanks and a sign, up to the first character that is no digit.
-/

namespace Decimal

open Wire

/-- `0` to `9`. -/
def IsDigit (b : UInt8) : Prop := 48 ≤ b ∧ b ≤ 57

instance : DecidablePred IsDigit := fun _ => inferInstanceAs (Decidable (_ ∧ _))

/-- The character of a digit. -/
def digit (n : Nat) : UInt8 := UInt8.ofNat (48 + n)

/-- The digits of a number that has at most `fuel` of them. -/
def digits : (fuel : Nat) → Nat → Bytes
  | 0, _ => []
  | fuel + 1, n => if n < 10 then [digit n] else digits fuel (n / 10) ++ [digit (n % 10)]

/-- A number in decimal. -/
def text (n : Nat) : Bytes := digits (n + 1) n

/-- Digits, most significant first, on top of what came before. -/
def valueFrom (acc : Nat) (s : Bytes) : Nat := s.foldl (fun acc b => acc * 10 + (b.toNat - 48)) acc

/-- The number at the front of a string, if there is a digit there. -/
def read (s : Bytes) : Option Nat :=
  match s.takeWhile (fun b => decide (IsDigit b)) with
  | [] => none
  | ds => some (valueFrom 0 ds)

/-- `isspace`. -/
def IsBlank (b : UInt8) : Prop := b = 32 ∨ 9 ≤ b ∧ b ≤ 13

instance : DecidablePred IsBlank := fun _ => inferInstanceAs (Decidable (_ ∨ _))

/-- A number after blanks and a sign, which may be a minus. -/
def signed (s : Bytes) : Option (Bool × Nat) :=
  match s.dropWhile (fun b => decide (IsBlank b)) with
  | 45 :: s => (read s).map (true, ·)
  | 43 :: s => (read s).map (false, ·)
  | s => (read s).map (false, ·)

/-- `std::stol`; `none` where it throws. -/
def stol (s : Bytes) : Option Int :=
  match signed s with
  | some (true, n) => if n ≤ 2 ^ 63 then some (-n) else none
  | some (false, n) => if n < 2 ^ 63 then some n else none
  | none => none

/-- `std::stoi`; `none` where it throws. -/
def stoi (s : Bytes) : Option Int :=
  match signed s with
  | some (true, n) => if n ≤ 2 ^ 31 then some (-n) else none
  | some (false, n) => if n < 2 ^ 31 then some n else none
  | none => none

/-- `std::stoul`, which takes a minus sign and counts down from `2 ^ 64`. -/
def stoul (s : Bytes) : Option Nat :=
  match signed s with
  | some (neg, n) =>
      if n < 2 ^ 64 then some (if neg then (2 ^ 64 - n) % 2 ^ 64 else n) else none
  | none => none

theorem toNat_digit {n : Nat} (h : n < 10) : (digit n).toNat = 48 + n := by
  show (UInt8.ofNat (48 + n)).toNat = 48 + n
  rw [UInt8.toNat_ofNat']
  omega

theorem isDigit_digit {n : Nat} (h : n < 10) : IsDigit (digit n) := by
  have h' := toNat_digit h
  refine ⟨UInt8.le_iff_toNat_le.mpr ?_, UInt8.le_iff_toNat_le.mpr ?_⟩
  · rw [h']
    exact Nat.le_add_right 48 n
  · rw [h']
    exact (by omega : 48 + n ≤ 57)

theorem isDigit_of_mem_digits {fuel n : Nat} {b : UInt8} (h : b ∈ digits fuel n) : IsDigit b := by
  induction fuel generalizing n with
  | zero => exact absurd h List.not_mem_nil
  | succ fuel ih =>
      rw [digits] at h
      split at h
      · rw [List.mem_singleton] at h
        subst h
        exact isDigit_digit (by omega)
      · rcases List.mem_append.mp h with h | h
        · exact ih h
        · rw [List.mem_singleton] at h
          subst h
          exact isDigit_digit (by omega)

/-- Enough digits make up the number. -/
theorem valueFrom_digits {fuel n : Nat} (h : n < fuel) : valueFrom 0 (digits fuel n) = n := by
  induction fuel generalizing n with
  | zero => omega
  | succ fuel ih =>
      rw [digits]
      split
      · rename_i hn
        show 0 * 10 + ((digit n).toNat - 48) = n
        rw [toNat_digit hn]
        omega
      · have hdiv := ih (n := n / 10) (by omega)
        rw [valueFrom, List.foldl_append]
        show valueFrom 0 (digits fuel (n / 10)) * 10 + ((digit (n % 10)).toNat - 48) = n
        rw [hdiv, toNat_digit (by omega)]
        omega

theorem digits_ne_nil (fuel n : Nat) : digits (fuel + 1) n ≠ [] := by
  rw [digits]
  split
  · exact List.cons_ne_nil _ _
  · exact List.append_ne_nil_of_right_ne_nil _ (List.cons_ne_nil _ _)

theorem digits_length_le {k fuel n : Nat} (hk : 0 < k) (h : n < 10 ^ k) : (digits fuel n).length ≤ k := by
  induction fuel generalizing k n with
  | zero => exact Nat.zero_le _
  | succ fuel ih =>
      rw [digits]
      split
      · exact hk
      · rename_i hn
        obtain ⟨k, rfl⟩ : ∃ j, k = j + 1 := ⟨k - 1, by omega⟩
        have hpos : 0 < k := by
          rcases Nat.eq_zero_or_pos k with rfl | hpos
          · exact absurd h hn
          · exact hpos
        rw [Nat.pow_succ] at h
        rw [List.length_append, List.length_singleton]
        exact Nat.succ_le_succ (ih hpos (by omega))

/-- A number has few digits. -/
theorem text_length_le {k n : Nat} (hk : 0 < k) (h : n < 10 ^ k) : (text n).length ≤ k :=
  digits_length_le hk h

/-- A string cut where a property ends. -/
theorem cut_append {p : UInt8 → Bool} {body rest : Bytes} (hbody : ∀ b ∈ body, p b = true)
    (hrest : ∀ b, rest.head? = some b → p b = false) :
    (body ++ rest).takeWhile p = body ∧ (body ++ rest).dropWhile p = rest := by
  rw [List.takeWhile_append_of_pos hbody, List.dropWhile_append_of_pos hbody]
  cases rest with
  | nil => exact ⟨List.append_nil body, rfl⟩
  | cons b rest =>
      have hb : ¬ p b = true := by
        rw [hrest b rfl]
        exact Bool.false_ne_true
      rw [List.takeWhile_cons_of_neg hb, List.dropWhile_cons_of_neg hb]
      exact ⟨List.append_nil body, rfl⟩

/-- The digits of a number, and what follows. -/
theorem cut_text (n : Nat) {rest : Bytes} (h : ∀ b, rest.head? = some b → ¬ IsDigit b) :
    (text n ++ rest).takeWhile (fun b => decide (IsDigit b)) = text n ∧
      (text n ++ rest).dropWhile (fun b => decide (IsDigit b)) = rest :=
  cut_append (fun _ hb => decide_eq_true (isDigit_of_mem_digits hb)) (fun b hb => decide_eq_false (h b hb))

/-- **What is written is read back**, up to the first character that is no digit. -/
theorem read_text (n : Nat) {rest : Bytes} (h : ∀ b, rest.head? = some b → ¬ IsDigit b) :
    read (text n ++ rest) = some n := by
  rw [read, (cut_text n h).1]
  split
  · rename_i hnil
    exact absurd hnil (digits_ne_nil n n)
  · exact congrArg some (valueFrom_digits (Nat.lt_succ_self n))

/-- The first digit of a number. -/
theorem text_cons (n : Nat) : ∃ b s, text n = b :: s ∧ IsDigit b := by
  cases htext : text n with
  | nil => exact absurd htext (digits_ne_nil n n)
  | cons b s =>
      have hmem : b ∈ digits (n + 1) n := by
        show b ∈ text n
        rw [htext]
        exact List.mem_cons_self
      exact ⟨b, s, rfl, isDigit_of_mem_digits hmem⟩

theorem not_isBlank_of_isDigit {b : UInt8} (h : IsDigit b) : ¬ IsBlank b := by
  have hlow : 48 ≤ b.toNat := UInt8.le_iff_toNat_le.mp h.1
  rintro (rfl | ⟨_, h⟩)
  · exact absurd hlow (by decide)
  · have h : b.toNat ≤ 13 := UInt8.le_iff_toNat_le.mp h
    omega

/-- A number has neither blanks nor a sign in front. -/
theorem signed_text_append (n : Nat) {rest : Bytes} (h : ∀ b, rest.head? = some b → ¬ IsDigit b) :
    signed (text n ++ rest) = some (false, n) := by
  have hread := read_text n h
  obtain ⟨b, s, htext, hb⟩ := text_cons n
  have hlow : 48 ≤ b.toNat := UInt8.le_iff_toNat_le.mp hb.1
  rw [signed, htext, List.cons_append, List.dropWhile_cons_of_neg (by simpa using not_isBlank_of_isDigit hb)]
  split
  · rename_i heq
    obtain ⟨rfl, -⟩ := List.cons.inj heq
    exact absurd hlow (by decide)
  · rename_i heq
    obtain ⟨rfl, -⟩ := List.cons.inj heq
    exact absurd hlow (by decide)
  · rw [← List.cons_append, ← htext, hread]
    rfl

theorem signed_text (n : Nat) : signed (text n) = some (false, n) := by
  have h : signed (text n ++ []) = some (false, n) := signed_text_append n fun b hb => absurd hb (by simp)
  rwa [List.append_nil] at h

theorem stoul_text_append {n : Nat} (hn : n < 2 ^ 64) {rest : Bytes} (h : ∀ b, rest.head? = some b → ¬ IsDigit b) :
    stoul (text n ++ rest) = some n := by
  rw [stoul, signed_text_append n h]
  exact if_pos hn

theorem stoul_text {n : Nat} (h : n < 2 ^ 64) : stoul (text n) = some n := by
  rw [stoul, signed_text]
  exact if_pos h

theorem stoi_text_append {n : Nat} (hn : n < 2 ^ 31) {rest : Bytes} (h : ∀ b, rest.head? = some b → ¬ IsDigit b) :
    stoi (text n ++ rest) = some (n : Int) := by
  rw [stoi, signed_text_append n h]
  exact if_pos hn

/-- Different numbers have different texts. -/
theorem text_injective {n m : Nat} (h : text n = text m) : n = m := by
  have hn := signed_text n
  rw [h, signed_text m] at hn
  simpa using hn.symm

end Decimal
