import NCloud.Lib.Reader

/-!
# Base64

The encoding of RFC 4648: three bytes are 24 bits, and 24 bits are four characters for six
bits each. A last group of one or two bytes is filled up with zero bits and padded. The
decoder is strict: padding stands only at the end, and the bits that were filled up are zero.
-/

namespace Base64

open Wire

/-- The alphabet. -/
def alphabet : Bytes := ascii "ABCDEFGHIJKLMNOPQRSTUVWXYZabcdefghijklmnopqrstuvwxyz0123456789+/"

/-- `=`. -/
def pad : UInt8 := 61

/-- The character for six bits. -/
def char (v : Nat) : UInt8 := alphabet.getD v 0

/-- The four characters for 24 bits. -/
def quad (n : Nat) : Bytes := [char (n / 2 ^ 18 % 64), char (n / 2 ^ 12 % 64), char (n / 2 ^ 6 % 64), char (n % 64)]

/-- A group of bytes, filled up with zeros, as a number. -/
def group (a b c : UInt8) : Nat := a.toNat * 2 ^ 16 + b.toNat * 2 ^ 8 + c.toNat

/-- The encoding of a byte string. -/
def encode : Bytes → Bytes
  | [] => []
  | [a] => (quad (group a 0 0)).take 2 ++ [pad, pad]
  | [a, b] => (quad (group a b 0)).take 3 ++ [pad]
  | a :: b :: c :: rest => quad (group a b c) ++ encode rest

/-- The six bits of a character. -/
def value (c : UInt8) : Option Nat := if c ∈ alphabet then some (alphabet.idxOf c) else none

/-- The three bytes of 24 bits. -/
def bytes (n : Nat) : Bytes := [UInt8.ofNat (n / 2 ^ 16), UInt8.ofNat (n / 2 ^ 8), UInt8.ofNat n]

/-- A last group of two characters and two of padding, of three and one, or of four. -/
def decodeLast (c₁ c₂ c₃ c₄ : UInt8) : Option Bytes := do
  let v₁ ← value c₁
  let v₂ ← value c₂
  if c₃ = pad ∧ c₄ = pad then
    if v₂ % 16 = 0 then return (bytes (v₁ * 2 ^ 18 + v₂ * 2 ^ 12)).take 1 else none
  else
    let v₃ ← value c₃
    if c₄ = pad then
      if v₃ % 4 = 0 then return (bytes (v₁ * 2 ^ 18 + v₂ * 2 ^ 12 + v₃ * 2 ^ 6)).take 2 else none
    else
      let v₄ ← value c₄
      return bytes (v₁ * 2 ^ 18 + v₂ * 2 ^ 12 + v₃ * 2 ^ 6 + v₄)

/-- The byte string that characters stand for. -/
def decode : Bytes → Option Bytes
  | [] => some []
  | [c₁, c₂, c₃, c₄] => decodeLast c₁ c₂ c₃ c₄
  | c₁ :: c₂ :: c₃ :: c₄ :: rest => do
      let v₁ ← value c₁
      let v₂ ← value c₂
      let v₃ ← value c₃
      let v₄ ← value c₄
      let s ← decode rest
      return bytes (v₁ * 2 ^ 18 + v₂ * 2 ^ 12 + v₃ * 2 ^ 6 + v₄) ++ s
  | _ => none

/-! ## Decoding what was encoded -/

theorem value_char {v : Nat} (h : v < 64) : value (char v) = some v ∧ char v ≠ pad := by
  have hall : ∀ v < 64, value (char v) = some v ∧ char v ≠ pad := by decide +kernel
  exact hall v h

theorem decode_cons {c₁ c₂ c₃ c₄ : UInt8} {v₁ v₂ v₃ v₄ : Nat} {rest s : Bytes} (h₁ : value c₁ = some v₁)
    (h₂ : value c₂ = some v₂) (h₃ : value c₃ = some v₃) (h₄ : value c₄ = some v₄) (hpad₃ : c₃ ≠ pad)
    (hpad₄ : c₄ ≠ pad) (hrest : decode rest = some s) :
    decode (c₁ :: c₂ :: c₃ :: c₄ :: rest) = some (bytes (v₁ * 2 ^ 18 + v₂ * 2 ^ 12 + v₃ * 2 ^ 6 + v₄) ++ s) := by
  cases rest with
  | nil =>
      obtain rfl : [] = s := Option.some.inj hrest
      rw [decode, decodeLast, h₁, h₂, List.append_nil]
      show (if c₃ = pad ∧ c₄ = pad then _ else _) = _
      rw [if_neg fun h => hpad₃ h.1, h₃]
      show (if c₄ = pad then _ else _) = _
      rw [if_neg hpad₄, h₄]
      rfl
  | cons c rest =>
      rw [decode, h₁, h₂, h₃, h₄, hrest]
      · rfl
      · exact nofun

/-- The 24 bits are there again. -/
theorem quad_spec {n : Nat} (h : n < 2 ^ 24) :
    n / 2 ^ 18 % 64 * 2 ^ 18 + n / 2 ^ 12 % 64 * 2 ^ 12 + n / 2 ^ 6 % 64 * 2 ^ 6 + n % 64 = n := by
  omega

theorem group_lt (a b c : UInt8) : group a b c < 2 ^ 24 := by
  have ha := a.toNat_lt
  have hb := b.toNat_lt
  have hc := c.toNat_lt
  rw [group]
  omega

theorem ofNat_eq {n : Nat} {a : UInt8} (h : n % 256 = a.toNat) : UInt8.ofNat n = a := by
  refine UInt8.toNat_inj.mp ?_
  rw [UInt8.toNat_ofNat']
  exact h

theorem bytes_group (a b c : UInt8) : bytes (group a b c) = [a, b, c] := by
  have ha := a.toNat_lt
  have hb := b.toNat_lt
  have hc := c.toNat_lt
  have h₁ : UInt8.ofNat (group a b c / 2 ^ 16) = a := ofNat_eq (by rw [group]; omega)
  have h₂ : UInt8.ofNat (group a b c / 2 ^ 8) = b := ofNat_eq (by rw [group]; omega)
  have h₃ : UInt8.ofNat (group a b c) = c := ofNat_eq (by rw [group]; omega)
  rw [bytes, h₁, h₂, h₃]

theorem decode_quad {n : Nat} (h : n < 2 ^ 24) {rest s : Bytes} (hrest : decode rest = some s) :
    decode (quad n ++ rest) = some (bytes n ++ s) := by
  have hmod : ∀ m, m % 64 < 64 := fun m => Nat.mod_lt m (by decide)
  have hall := decode_cons (value_char (hmod (n / 2 ^ 18))).1 (value_char (hmod (n / 2 ^ 12))).1
    (value_char (hmod (n / 2 ^ 6))).1 (value_char (hmod n)).1 (value_char (hmod _)).2 (value_char (hmod _)).2 hrest
  rwa [quad_spec h] at hall

/-- A last group of one byte. -/
theorem decode_one (a : UInt8) : decode ((quad (group a 0 0)).take 2 ++ [pad, pad]) = some [a] := by
  have ha := a.toNat_lt
  have hn : group a 0 0 = a.toNat * 2 ^ 16 := by simp [group]
  have hmod : ∀ m, m % 64 < 64 := fun m => Nat.mod_lt m (by decide)
  have hzero : group a 0 0 / 2 ^ 12 % 64 % 16 = 0 := by omega
  have hbits : group a 0 0 / 2 ^ 18 % 64 * 2 ^ 18 + group a 0 0 / 2 ^ 12 % 64 * 2 ^ 12 = group a 0 0 := by omega
  show decodeLast (char (group a 0 0 / 2 ^ 18 % 64)) (char (group a 0 0 / 2 ^ 12 % 64)) pad pad = some [a]
  rw [decodeLast, (value_char (hmod _)).1, (value_char (hmod _)).1]
  simp only [Option.bind_eq_bind, Option.bind_some, and_self, if_true]
  rw [if_pos hzero, hbits, bytes_group]
  rfl

/-- A last group of two. -/
theorem decode_two (a b : UInt8) : decode ((quad (group a b 0)).take 3 ++ [pad]) = some [a, b] := by
  have ha := a.toNat_lt
  have hb := b.toNat_lt
  have hn : group a b 0 = a.toNat * 2 ^ 16 + b.toNat * 2 ^ 8 := by simp [group]
  have hmod : ∀ m, m % 64 < 64 := fun m => Nat.mod_lt m (by decide)
  have hzero : group a b 0 / 2 ^ 6 % 64 % 4 = 0 := by omega
  have hbits : group a b 0 / 2 ^ 18 % 64 * 2 ^ 18 + group a b 0 / 2 ^ 12 % 64 * 2 ^ 12 +
      group a b 0 / 2 ^ 6 % 64 * 2 ^ 6 = group a b 0 := by omega
  show decodeLast (char (group a b 0 / 2 ^ 18 % 64)) (char (group a b 0 / 2 ^ 12 % 64))
    (char (group a b 0 / 2 ^ 6 % 64)) pad = some [a, b]
  rw [decodeLast, (value_char (hmod _)).1, (value_char (hmod _)).1]
  simp only [Option.bind_eq_bind, Option.bind_some, and_true, if_true]
  rw [if_neg (value_char (hmod _)).2, (value_char (hmod _)).1, Option.bind_some, if_pos hzero, hbits, bytes_group]
  rfl

/-- **Round trip.** -/
theorem decode_encode (s : Bytes) : decode (encode s) = some s := by
  induction s using encode.induct with
  | case1 => rfl
  | case2 a => exact decode_one a
  | case3 a b => exact decode_two a b
  | case4 a b c rest ih =>
      rw [encode, decode_quad (group_lt a b c) ih, bytes_group]
      rfl

end Base64
