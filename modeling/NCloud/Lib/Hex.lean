import NCloud.Lib.Decimal

/-!
# Hexadecimal numbers

Numbers written in hexadecimal, and the front of a string read as one by `strtoul` with base
16: digits of either case, and before them `0x` if a digit follows it.
-/

namespace Hex

open Wire

/-- `0` to `9`, `A` to `F` and `a` to `f`. -/
def IsDigit (b : UInt8) : Prop := 48 ≤ b ∧ b ≤ 57 ∨ 65 ≤ b ∧ b ≤ 70 ∨ 97 ≤ b ∧ b ≤ 102

instance : DecidablePred IsDigit := fun _ => inferInstanceAs (Decidable (_ ∨ _ ∨ _))

/-- What a digit is worth. -/
def digitValue (b : UInt8) : Nat := if b ≤ 57 then b.toNat - 48 else if b ≤ 70 then b.toNat - 55 else b.toNat - 87

/-- The character of a digit. -/
def digit (n : Nat) : UInt8 := if n < 10 then UInt8.ofNat (48 + n) else UInt8.ofNat (87 + n)

/-- The digits of a number that has at most `fuel` of them. -/
def digits : (fuel : Nat) → Nat → Bytes
  | 0, _ => []
  | fuel + 1, n => if n < 16 then [digit n] else digits fuel (n / 16) ++ [digit (n % 16)]

/-- A number in hexadecimal, as `std::hex` writes it. -/
def text (n : Nat) : Bytes := digits (n + 1) n

/-- The number that digits spell. -/
def value (ds : Bytes) : Nat := ds.foldl (fun acc b => acc * 16 + digitValue b) 0

/-- The part of a string that is skipped, as a number of characters. -/
def skipped : Bytes → Nat
  | 48 :: x :: d :: _ => if (x = 120 ∨ x = 88) ∧ IsDigit d then 2 else 0
  | _ => 0

/-- The digits that follow. -/
def front (s : Bytes) : Bytes := (s.drop (skipped s)).takeWhile (fun b => decide (IsDigit b))

/-- `std::stoul` with base 16 of a string that starts with neither a blank nor a sign: the
number, and how many characters it has; `none` where it throws. -/
def stoul (s : Bytes) : Option (Nat × Nat) :=
  if front s = [] then none
  else if value (front s) < 2 ^ 64 then some (value (front s), skipped s + (front s).length)
  else none

/-! ## Writing and reading back -/

theorem digit_spec : ∀ n < 16, IsDigit (digit n) ∧ digitValue (digit n) = n := by decide

theorem isDigit_of_mem_digits {fuel n : Nat} {b : UInt8} (h : b ∈ digits fuel n) : IsDigit b := by
  induction fuel generalizing n with
  | zero => exact absurd h List.not_mem_nil
  | succ fuel ih =>
      rw [digits] at h
      split at h
      · rename_i hn
        rw [List.mem_singleton.mp h]
        exact (digit_spec n hn).1
      · rcases List.mem_append.mp h with h | h
        · exact ih h
        · rw [List.mem_singleton.mp h]
          exact (digit_spec (n % 16) (Nat.mod_lt n (by decide))).1

theorem isDigit_of_mem_text {n : Nat} {b : UInt8} (h : b ∈ text n) : IsDigit b := isDigit_of_mem_digits h

theorem value_digits {fuel n : Nat} (h : n < fuel) : value (digits fuel n) = n := by
  induction fuel generalizing n with
  | zero => omega
  | succ fuel ih =>
      rw [digits]
      split
      · rename_i hn
        show 0 * 16 + digitValue (digit n) = n
        rw [(digit_spec n hn).2, Nat.zero_mul, Nat.zero_add]
      · have hdiv := ih (n := n / 16) (by omega)
        rw [value, List.foldl_append]
        show value (digits fuel (n / 16)) * 16 + digitValue (digit (n % 16)) = n
        rw [hdiv, (digit_spec (n % 16) (Nat.mod_lt n (by decide))).2]
        omega

theorem text_ne_nil (n : Nat) : text n ≠ [] := by
  rw [text, digits]
  split
  · exact List.cons_ne_nil _ _
  · exact List.append_ne_nil_of_right_ne_nil _ (List.cons_ne_nil _ _)

theorem length_digits_le {k fuel n : Nat} (hk : 0 < k) (h : n < 16 ^ k) : (digits fuel n).length ≤ k := by
  induction fuel generalizing k n with
  | zero => exact Nat.zero_le _
  | succ fuel ih =>
      rw [digits]
      split
      · exact hk
      · rename_i hn
        obtain ⟨k, rfl⟩ : ∃ j, k = j + 1 := ⟨k - 1, by omega⟩
        have hpos : 0 < k := by
          rcases Nat.eq_zero_or_pos k with rfl | hpos
          · exact absurd h hn
          · exact hpos
        rw [Nat.pow_succ] at h
        rw [List.length_append, List.length_singleton]
        exact Nat.succ_le_succ (ih hpos (by omega))

theorem skipped_of_isDigit {s : Bytes} (h : ∀ b ∈ s, IsDigit b) : skipped s = 0 := by
  unfold skipped
  split
  · rename_i x d rest
    have hx := h x (List.mem_cons_of_mem _ List.mem_cons_self)
    rw [if_neg]
    rintro ⟨rfl | rfl, -⟩
    · exact absurd hx (by decide)
    · exact absurd hx (by decide)
  · rfl

theorem front_of_isDigit {s : Bytes} (h : ∀ b ∈ s, IsDigit b) : front s = s := by
  rw [front, skipped_of_isDigit h, List.drop_zero, List.takeWhile_eq_self_iff]
  exact fun b hb => decide_eq_true (h b hb)

/-- A string of digits is read to its end. -/
theorem stoul_of_isDigit {s : Bytes} (hne : s ≠ []) (h : ∀ b ∈ s, IsDigit b) (hlt : value s < 2 ^ 64) :
    stoul s = some (value s, s.length) := by
  rw [stoul, front_of_isDigit h, if_neg hne, if_pos hlt, skipped_of_isDigit h, Nat.zero_add]

end Hex
