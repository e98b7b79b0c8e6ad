import NCloud.Lib.Hmac
import NCloud.Frontend.Digest

/-!
# Keys derived from passwords

`hmac_sha256` and `pbkdf2_sha256` over `sha256`. `pbkdf2_sha256` has its calls write to the
buffer they read their message from, so both are also followed in memory: `hmac_sha256` has
read its message before it writes anything.
-/

namespace NCloud.Frontend.Password

open Wire

/-! ## HMAC -/

/-- Two calls of `update` are one. -/
theorem update_update {h : Sha256} (hbuffer : h.buffer.length < blockSize) (data data' : Bytes) :
    update (update h data) data' = update h (data ++ data') := by
  have hboth := updates_eq hbuffer [data, data']
  have hone := updates_eq hbuffer [data ++ data']
  simp only [List.flatten_cons, List.flatten_nil, List.append_nil, List.foldl_cons, List.foldl_nil] at hboth hone
  rw [hboth, hone]

theorem final_update_update (data data' : Bytes) : final (update (update reset data) data') = sha256 (data ++ data') := by
  rw [update_update (by decide), sha256]

/-- **`hmac_sha256`**. -/
theorem hmacSha256_eq (key msg : Bytes) : hmacSha256 key msg = Hmac.hmac sha256 blockSize key msg := by
  rw [hmacSha256]
  simp only [final_update_update]
  rfl

theorem length_keyBlock (key : Bytes) : (keyBlock key).length = blockSize := by
  have hle : (if key.length > blockSize then sha256 key else key).length ≤ blockSize := by
    split
    · rw [sha256, length_final]
      decide
    · omega
  rw [keyBlock, List.length_append, List.length_replicate]
  omega

/-- Over the function of the standard, for inputs that it is defined for. -/
theorem hmacSha256_digest {key msg : Bytes} (hkey : key.length < 2 ^ 61) (hmsg : blockSize + msg.length < 2 ^ 61) :
    hmacSha256 key msg = Hmac.hmac Sha2.digest blockSize key msg := by
  have hblock : Hmac.keyBlock sha256 blockSize key = Hmac.keyBlock Sha2.digest blockSize key := by
    rw [Hmac.keyBlock, Hmac.keyBlock, sha256_eq hkey]
  have hlength : ∀ pad : UInt8, ((Hmac.keyBlock sha256 blockSize key).map (· ^^^ pad)).length = blockSize := by
    intro pad
    rw [List.length_map]
    exact length_keyBlock key
  rw [hmacSha256_eq, Hmac.hmac, Hmac.hmac, ← hblock, sha256_eq, sha256_eq]
  · rw [List.length_append, hlength]
    exact hmsg
  · rw [List.length_append, hlength, sha256, length_final]
    decide

/-! ## In memory -/

/-- The bytes at the addresses. -/
abbrev Memory := Nat → UInt8

/-- `len` bytes from an address on. -/
def readAt (mem : Memory) (addr len : Nat) : Bytes := (List.range len).map (fun i => mem (addr + i))

/-- The bytes are stored from an address on. -/
def writeAt (mem : Memory) (addr : Nat) (data : Bytes) : Memory :=
  fun a => if addr ≤ a ∧ a < addr + data.length then data.getD (a - addr) 0 else mem a

/-- `hmac_sha256` with its pointers. The blocks and the inner digest are local. -/
def hmacSha256At (mem : Memory) (key keyLen msg msgLen out : Nat) : Memory :=
  let k := keyBlock (readAt mem key keyLen)
  let ipad := k.map (· ^^^ 0x36)
  let opad := k.map (· ^^^ 0x5c)
  let inner := final (update (update reset ipad) (readAt mem msg msgLen))
  writeAt mem out (final (update (update reset opad) inner))

/-- The loop over iterations, which keeps `u` in memory. -/
def iterateAt (pw pwLen u : Nat) : (n : Nat) → Memory × Bytes → Memory × Bytes
  | 0, q => q
  | n + 1, (mem, acc) =>
      let mem := hmacSha256At mem pw pwLen u 32 u
      iterateAt pw pwLen u n (mem, acc.zipWith (· ^^^ ·) (readAt mem u 32))

theorem readAt_writeAt (mem : Memory) (addr : Nat) (data : Bytes) :
    readAt (writeAt mem addr data) addr data.length = data := by
  refine List.ext_getElem (by rw [readAt, List.length_map, List.length_range]) fun i hi hi' => ?_
  simp only [readAt, List.getElem_map, List.getElem_range, writeAt]
  rw [if_pos ⟨Nat.le_add_right _ _, by omega⟩, Nat.add_sub_cancel_left, List.getD_eq_getElem?_getD,
    List.getElem?_eq_getElem hi', Option.getD_some]

theorem readAt_writeAt_of_disjoint {mem : Memory} {addr addr' len : Nat} {data : Bytes}
    (h : addr' + len ≤ addr ∨ addr + data.length ≤ addr') :
    readAt (writeAt mem addr data) addr' len = readAt mem addr' len := by
  refine List.map_congr_left fun i hi => ?_
  have hlt := List.mem_range.mp hi
  rw [writeAt, if_neg (by omega)]

theorem hmacSha256At_eq (mem : Memory) (key keyLen msg msgLen out : Nat) :
    hmacSha256At mem key keyLen msg msgLen out =
      writeAt mem out (hmacSha256 (readAt mem key keyLen) (readAt mem msg msgLen)) := rfl

/-- What has been written is the code of the message as it was, wherever that was. -/
theorem readAt_hmacSha256At (mem : Memory) (key keyLen msg msgLen out : Nat) :
    readAt (hmacSha256At mem key keyLen msg msgLen out) out 32 =
      hmacSha256 (readAt mem key keyLen) (readAt mem msg msgLen) := by
  rw [hmacSha256At_eq]
  exact readAt_writeAt mem out _

/-- The loop in memory. -/
theorem iterateAt_eq {pw pwLen u : Nat} (hdisjoint : pw + pwLen ≤ u ∨ u + 32 ≤ pw) (n : Nat) (mem : Memory) (acc : Bytes) :
    (iterateAt pw pwLen u n (mem, acc)).2 = (iterate (readAt mem pw pwLen) n (readAt mem u 32, acc)).2 := by
  induction n generalizing mem acc with
  | zero => rfl
  | succ n ih =>
      have hpw : readAt (hmacSha256At mem pw pwLen u 32 u) pw pwLen = readAt mem pw pwLen :=
        readAt_writeAt_of_disjoint hdisjoint
      rw [iterateAt, iterate]
      show (iterateAt pw pwLen u n _).2 = _
      rw [ih, hpw, readAt_hmacSha256At]

/-! ## PBKDF2 -/

theorem iterate_eq (password salt : Bytes) (i n k : Nat) :
    iterate password n (Pbkdf2.chain hmacSha256 password salt i k, Pbkdf2.block hmacSha256 password salt i k) =
      (Pbkdf2.chain hmacSha256 password salt i (k + n), Pbkdf2.block hmacSha256 password salt i (k + n)) := by
  induction n generalizing k with
  | zero => rfl
  | succ n ih =>
      have hsum : k + (n + 1) = k + 1 + n := by omega
      rw [iterate, hsum]
      exact ih (k + 1)

/-- The block index as it is appended to the salt. -/
theorem bytesOfWord_ofNat (i : Nat) : bytesOfWord (UInt32.ofNat i) = Sha2.bigEndian 4 i := by
  rw [bytesOfWord_eq]
  refine List.map_congr_left fun j hj => ?_
  have hlt := List.mem_range.mp hj
  apply UInt8.toNat_inj.mp
  rw [UInt8.toNat_ofNat', UInt8.toNat_ofNat', UInt32.toNat_ofNat']
  obtain rfl | rfl | rfl | rfl : j = 0 ∨ j = 1 ∨ j = 2 ∨ j = 3 := by omega
  all_goals
    simp only [Nat.reduceSub, Nat.reducePow]
    omega

/-- One block. -/
theorem pbkdf2Block_eq (password salt : Bytes) (iterations i : Nat) :
    pbkdf2Block password salt iterations i = Pbkdf2.block hmacSha256 password salt i (iterations - 1) := by
  have hfirst : hmacSha256 password (salt ++ bytesOfWord (UInt32.ofNat i)) =
      Pbkdf2.chain hmacSha256 password salt i 0 := by
    rw [bytesOfWord_ofNat]
    rfl
  have hloop := iterate_eq password salt i (iterations - 1) 0
  rw [Nat.zero_add] at hloop
  rw [pbkdf2Block, hfirst]
  exact congrArg Prod.snd hloop

/-- The outer loop, which gets to the end of the output. -/
theorem pbkdf2Loop_eq (password salt : Bytes) (iterations : Nat) {fuel outLen : Nat} (hfuel : outLen ≤ fuel) (i : Nat) :
    pbkdf2Loop password salt iterations fuel i outLen =
      ((List.range (Pieces.count 32 outLen)).flatMap
        (fun j => Pbkdf2.block hmacSha256 password salt (i + j) (iterations - 1))).take outLen := by
  have hlength : ∀ i, (Pbkdf2.block hmacSha256 password salt i (iterations - 1)).length = 32 :=
    fun i => @Pbkdf2.block_length hmacSha256 password salt 32 (fun _ _ => length_final _) i _
  induction fuel generalizing outLen i with
  | zero =>
      obtain rfl := Nat.le_zero.mp hfuel
      rfl
  | succ fuel ih =>
      rw [pbkdf2Loop]
      by_cases hzero : outLen = 0
      · rw [if_pos hzero, hzero]
        rfl
      · rw [if_neg hzero, pbkdf2Block_eq,
          Pbkdf2.take_flatMap_range (by decide) (fun i => Pbkdf2.block hmacSha256 password salt i (iterations - 1))
            hlength hzero]
        have hrest : outLen - ((Pbkdf2.block hmacSha256 password salt i (iterations - 1)).take outLen).length
            = outLen - 32 := by
          rw [List.length_take, hlength]
          omega
        show _ ++ pbkdf2Loop password salt iterations fuel (i + 1) _ = _
        rw [hrest, ih (by omega)]

/-- **The standards.** `hmac_sha256` is RFC 2104 over `sha256`, also where it reads its message
from the buffer it writes to, and `pbkdf2_sha256` is the derivation of RFC 8018 over it,
also when its loop keeps `u` in that buffer. -/
theorem hmac_pbkdf2 :
    (∀ key msg, hmacSha256 key msg = Hmac.hmac sha256 blockSize key msg) ∧
    (∀ (mem : Memory) (key keyLen msg msgLen out : Nat),
      readAt (hmacSha256At mem key keyLen msg msgLen out) out 32 =
        Hmac.hmac sha256 blockSize (readAt mem key keyLen) (readAt mem msg msgLen)) ∧
    (∀ (mem : Memory) (pw pwLen u n : Nat), pw + pwLen ≤ u ∨ u + 32 ≤ pw → ∀ acc,
      (iterateAt pw pwLen u n (mem, acc)).2 = (iterate (readAt mem pw pwLen) n (readAt mem u 32, acc)).2) ∧
    ∀ (password salt : Bytes) (iterations outLen : Nat), 1 ≤ iterations → outLen ≤ 32 * (2 ^ 32 - 1) →
      pbkdf2Sha256 password salt iterations outLen =
        Pbkdf2.derive (Hmac.hmac sha256 blockSize) password salt 32 iterations outLen := by
  refine ⟨hmacSha256_eq, ?_, ?_, ?_⟩
  · intro mem key keyLen msg msgLen out
    rw [readAt_hmacSha256At, hmacSha256_eq]
  · intro mem pw pwLen u n hdisjoint acc
    exact iterateAt_eq hdisjoint n mem acc
  · intro password salt iterations outLen _ _
    have hprf : Hmac.hmac sha256 blockSize = hmacSha256 := funext fun key => funext fun msg => (hmacSha256_eq key msg).symm
    rw [pbkdf2Sha256, pbkdf2Loop_eq password salt iterations (Nat.le_refl _) 1, hprf, Pbkdf2.derive]
    have hindex : ∀ j, 1 + j = j + 1 := fun j => Nat.add_comm 1 j
    simp only [hindex]

/-- Two iterations and a second block that is cut off. -/
theorem hmac_pbkdf2_twoBlocks :
    pbkdf2Sha256 (ascii "password") (ascii "salt") 2 40 =
      Pbkdf2.derive (Hmac.hmac sha256 blockSize) (ascii "password") (ascii "salt") 32 2 40 :=
  hmac_pbkdf2.2.2.2 (ascii "password") (ascii "salt") 2 40 (by decide) (by decide)

example : hmacSha256 (List.replicate 20 0x0b) (ascii "Hi There") =
    [0xb0, 0x34, 0x4c, 0x61, 0xd8, 0xdb, 0x38, 0x53, 0x5c, 0xa8, 0xaf, 0xce, 0xaf, 0xb, 0xf1, 0x2b,
     0x88, 0x1d, 0xc2, 0x0, 0xc9, 0x83, 0x3d, 0xa7, 0x26, 0xe9, 0x37, 0x6c, 0x2e, 0x32, 0xcf, 0xf7] := by
  decide +kernel

end NCloud.Frontend.Password
