import Mathlib.Data.Nat.NthRoot.Defs
import Mathlib.Data.Nat.Prime.Basic
import NCloud.Lib.Blocks

/-!
# SHA-256

FIPS 180-4 for messages of whole bytes. Rotations are those of bit vectors, words are read
and written as the numbers they stand for, and the constants are what the standard says of
them: the first bits of the fractional parts of roots of primes.
-/

namespace Sha2

/-! ## Functions and constants -/

/-- `ROTR`. -/
def rotr (n : Nat) (x : UInt32) : UInt32 := ⟨x.toBitVec.rotateRight n⟩

/-- `Ch`. -/
def ch (x y z : UInt32) : UInt32 := (x &&& y) ^^^ (~~~x &&& z)

/-- `Maj`. -/
def maj (x y z : UInt32) : UInt32 := (x &&& y) ^^^ (x &&& z) ^^^ (y &&& z)

/-- `Σ₀`. -/
def sum0 (x : UInt32) : UInt32 := rotr 2 x ^^^ rotr 13 x ^^^ rotr 22 x

/-- `Σ₁`. -/
def sum1 (x : UInt32) : UInt32 := rotr 6 x ^^^ rotr 11 x ^^^ rotr 25 x

/-- `σ₀`. -/
def sigma0 (x : UInt32) : UInt32 := rotr 7 x ^^^ rotr 18 x ^^^ (x >>> 3)

/-- `σ₁`. -/
def sigma1 (x : UInt32) : UInt32 := rotr 17 x ^^^ rotr 19 x ^^^ (x >>> 10)

/-- The first 64 primes. -/
def primes : List Nat := (List.range 312).filter Nat.Prime

/-- The first 32 bits of the fractional parts of their cube roots. -/
def constants : List UInt32 := primes.map (fun p => UInt32.ofNat (Nat.nthRoot 3 (p * 2 ^ 96)))

/-- The first 32 bits of the fractional parts of the square roots of the first eight. -/
def initialWords : List UInt32 := (primes.take 8).map (fun p => UInt32.ofNat (Nat.nthRoot 2 (p * 2 ^ 64)))

/-! ## The computation -/

/-- Eight words: a hash value, or the working variables. -/
structure Hash where
  a : UInt32
  b : UInt32
  c : UInt32
  d : UInt32
  e : UInt32
  f : UInt32
  g : UInt32
  h : UInt32
  deriving DecidableEq

/-- `H⁽⁰⁾`. -/
def initial : Hash where
  a := initialWords.getD 0 0
  b := initialWords.getD 1 0
  c := initialWords.getD 2 0
  d := initialWords.getD 3 0
  e := initialWords.getD 4 0
  f := initialWords.getD 5 0
  g := initialWords.getD 6 0
  h := initialWords.getD 7 0

/-- Four bytes as one word. -/
def word (b₀ b₁ b₂ b₃ : UInt8) : UInt32 :=
  UInt32.ofNat (b₀.toNat * 2 ^ 24 + b₁.toNat * 2 ^ 16 + b₂.toNat * 2 ^ 8 + b₃.toNat)

/-- A number as `w` bytes, the most significant one first. -/
def bigEndian (w n : Nat) : List UInt8 := (List.range w).map (fun i => UInt8.ofNat (n / 256 ^ (w - 1 - i)))

/-- The message schedule of a block. -/
def schedule (block : List UInt8) (t : Nat) : UInt32 :=
  if t < 16 then
    word (block.getD (4 * t) 0) (block.getD (4 * t + 1) 0) (block.getD (4 * t + 2) 0) (block.getD (4 * t + 3) 0)
  else
    sigma1 (schedule block (t - 2)) + schedule block (t - 7) + sigma0 (schedule block (t - 15)) +
      schedule block (t - 16)
termination_by t

/-- One step of the computation. -/
def step (block : List UInt8) (v : Hash) (t : Nat) : Hash :=
  let t₁ := v.h + sum1 v.e + ch v.e v.f v.g + constants.getD t 0 + schedule block t
  let t₂ := sum0 v.a + maj v.a v.b v.c
  ⟨t₁ + t₂, v.a, v.b, v.c, v.d + t₁, v.e, v.f, v.g⟩

/-- The next hash value. -/
def compress (hash : Hash) (block : List UInt8) : Hash :=
  let v := (List.range 64).foldl (step block) hash
  ⟨v.a + hash.a, v.b + hash.b, v.c + hash.c, v.d + hash.d, v.e + hash.e, v.f + hash.f, v.g + hash.g, v.h + hash.h⟩

/-- How many zero bytes the padding has. -/
def zeros (len : Nat) : Nat := (119 - len % 64) % 64

/-- The padded message: a one bit, zeros, and the length in bits. -/
def pad (m : List UInt8) : List UInt8 :=
  m ++ 0x80 :: (List.replicate (zeros m.length) 0 ++ bigEndian 8 (8 * m.length))

/-- The digest. -/
def digest (m : List UInt8) : List UInt8 :=
  let hash := (Pieces.cut 64 (pad m)).foldl compress initial
  [hash.a, hash.b, hash.c, hash.d, hash.e, hash.f, hash.g, hash.h].flatMap (fun x => bigEndian 4 x.toNat)

/-! ## What the definitions come to -/

/-- As few zeros as make the length a whole number of blocks. -/
theorem zeros_least (len : Nat) :
    (len + 1 + zeros len + 8) % 64 = 0 ∧ ∀ k < zeros len, (len + 1 + k + 8) % 64 ≠ 0 := by
  unfold zeros
  refine ⟨by omega, fun k hk => ?_⟩
  omega

theorem length_pad (m : List UInt8) : (pad m).length = m.length + 1 + zeros m.length + 8 := by
  rw [pad, List.length_append, List.length_cons, List.length_append, List.length_replicate, bigEndian,
    List.length_map, List.length_range]
  omega

theorem dvd_length_pad (m : List UInt8) : 64 ∣ (pad m).length := by
  rw [length_pad]
  exact Nat.dvd_of_mod_eq_zero (zeros_least m.length).1

theorem schedule_of_lt {block : List UInt8} {t : Nat} (h : t < 16) :
    schedule block t =
      word (block.getD (4 * t) 0) (block.getD (4 * t + 1) 0) (block.getD (4 * t + 2) 0) (block.getD (4 * t + 3) 0) := by
  rw [schedule, if_pos h]

theorem schedule_add (block : List UInt8) (n : Nat) :
    schedule block (n + 16) = sigma1 (schedule block (n + 14)) + schedule block (n + 9) +
      sigma0 (schedule block (n + 1)) + schedule block n := by
  rw [schedule, if_neg (by omega)]
  rfl

end Sha2
