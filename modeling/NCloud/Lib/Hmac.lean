import NCloud.Lib.Sha2

/-!
# HMAC and PBKDF2

RFC 2104 over any hash function with its block size, and the key derivation of RFC 8018
over any pseudorandom function.
-/

namespace Hmac

variable (hash : List UInt8 → List UInt8) (blockSize : Nat)

/-- The key as a block: a long one is hashed, and zeros are appended. -/
def keyBlock (key : List UInt8) : List UInt8 :=
  let k := if key.length > blockSize then hash key else key
  k ++ List.replicate (blockSize - k.length) 0

/-- `H(K XOR opad, H(K XOR ipad, text))`. -/
def hmac (key text : List UInt8) : List UInt8 :=
  hash ((keyBlock hash blockSize key).map (· ^^^ 0x5c) ++
    hash ((keyBlock hash blockSize key).map (· ^^^ 0x36) ++ text))

end Hmac

namespace Pbkdf2

variable (prf : List UInt8 → List UInt8 → List UInt8) (password salt : List UInt8)

/-- `Uⱼ₊₁` of block `i`. -/
def chain (i : Nat) : Nat → List UInt8
  | 0 => prf password (salt ++ Sha2.bigEndian 4 i)
  | j + 1 => prf password (chain i j)

/-- The exclusive or of `U₁` to `Uⱼ₊₁`. -/
def block (i : Nat) : Nat → List UInt8
  | 0 => chain prf password salt i 0
  | j + 1 => (block i j).zipWith (· ^^^ ·) (chain prf password salt i (j + 1))

/-- The first `dkLen` bytes of the blocks from block 1 on, as many as are needed. -/
def derive (hLen iterations dkLen : Nat) : List UInt8 :=
  ((List.range (Pieces.count hLen dkLen)).flatMap
    (fun i => block prf password salt (i + 1) (iterations - 1))).take dkLen

variable {prf password salt}

/-- Blocks of one length from block `i` on, cut off at `n` bytes, are the first of them cut
off there and then the others. -/
theorem take_flatMap_range {size : Nat} (hsize : 0 < size) (f : Nat → List UInt8) (hf : ∀ i, (f i).length = size)
    {n : Nat} (hn : n ≠ 0) (i : Nat) :
    ((List.range (Pieces.count size n)).flatMap (fun j => f (i + j))).take n =
      (f i).take n ++ ((List.range (Pieces.count size (n - size))).flatMap (fun j => f (i + 1 + j))).take (n - size) := by
  have hcount : Pieces.count size n = Pieces.count size (n - size) + 1 := by
    unfold Pieces.count
    by_cases hle : size ≤ n
    · have hsum : n + size - 1 = n - size + size - 1 + size := by omega
      rw [hsum, Nat.add_div_right _ hsize]
    · have hzero : n - size = 0 := by omega
      have hsum : n + size - 1 = n - 1 + size := by omega
      rw [hzero, hsum, Nat.add_div_right _ hsize, Nat.div_eq_of_lt (by omega), Nat.div_eq_of_lt (by omega)]
  have hshift : (fun j => f (i + (j + 1))) = fun j => f (i + 1 + j) := by
    funext j
    rw [Nat.add_right_comm, Nat.add_assoc]
  rw [hcount, List.range_succ_eq_map, List.flatMap_cons, List.flatMap_map, List.take_append, hf]
  show (f i).take n ++ (List.flatMap (fun j => f (i + (j + 1))) _).take _ = _
  rw [hshift]

theorem block_length {hLen : Nat} (hprf : ∀ k t, (prf k t).length = hLen) (i j : Nat) :
    (block prf password salt i j).length = hLen := by
  induction j with
  | zero => exact hprf _ _
  | succ j ih =>
      rw [block, List.length_zipWith, ih, chain, hprf, Nat.min_self]

end Pbkdf2
