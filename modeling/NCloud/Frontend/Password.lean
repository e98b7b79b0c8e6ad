import NCloud.Lib.Decimal
import NCloud.Frontend.Cells

/-!
# Stored passwords

`password.h`: SHA-256, HMAC and PBKDF2 as the front end computes them, and the text
that is stored for a password. Only the last part is reasoned about here: a password
verifies against whatever `hash_password` has made of it.
-/

namespace NCloud.Frontend

open Wire

namespace Password

/-! ## SHA-256 -/

/-- The eight words of `state_`. -/
structure Words where
  a : UInt32
  b : UInt32
  c : UInt32
  d : UInt32
  e : UInt32
  f : UInt32
  g : UInt32
  h : UInt32
  deriving DecidableEq

/-- `Sha256`; `buffer` holds the `buffer_len_` bytes in use. -/
structure Sha256 where
  state : Words
  buffer : Bytes
  totalBits : UInt64

/-- `kBlockSize`. -/
def blockSize : Nat := 64

/-- `reset`. -/
def reset : Sha256 where
  state := ⟨0x6a09e667, 0xbb67ae85, 0x3c6ef372, 0xa54ff53a, 0x510e527f, 0x9b05688c, 0x1f83d9ab, 0x5be0cd19⟩
  buffer := []
  totalBits := 0

/-- `rotr`. -/
def rotr (x : UInt32) (n : UInt32) : UInt32 := (x >>> n) ||| (x <<< (32 - n))

/-- The table of `transform`. -/
def roundConstants : List UInt32 :=
  [0x428a2f98, 0x71374491, 0xb5c0fbcf, 0xe9b5dba5, 0x3956c25b, 0x59f111f1,
   0x923f82a4, 0xab1c5ed5, 0xd807aa98, 0x12835b01, 0x243185be, 0x550c7dc3,
   0x72be5d74, 0x80deb1fe, 0x9bdc06a7, 0xc19bf174, 0xe49b69c1, 0xefbe4786,
   0x0fc19dc6, 0x240ca1cc, 0x2de92c6f, 0x4a7484aa, 0x5cb0a9dc, 0x76f988da,
   0x983e5152, 0xa831c66d, 0xb00327c8, 0xbf597fc7, 0xc6e00bf3, 0xd5a79147,
   0x06ca6351, 0x14292967, 0x27b70a85, 0x2e1b2138, 0x4d2c6dfc, 0x53380d13,
   0x650a7354, 0x766a0abb, 0x81c2c92e, 0x92722c85, 0xa2bfe8a1, 0xa81a664b,
   0xc24b8b70, 0xc76c51a3, 0xd192e819, 0xd6990624, 0xf40e3585, 0x106aa070,
   0x19a4c116, 0x1e376c08, 0x2748774c, 0x34b0bcb5, 0x391c0cb3, 0x4ed8aa4a,
   0x5b9cca4f, 0x682e6ff3, 0x748f82ee, 0x78a5636f, 0x84c87814, 0x8cc70208,
   0x90befffa, 0xa4506ceb, 0xbef9a3f7, 0xc67178f2]

/-- The word at an offset of a block. -/
def wordAt (block : Bytes) (i : Nat) : UInt32 :=
  ((block.getD (4 * i) 0).toUInt32 <<< 24) ||| ((block.getD (4 * i + 1) 0).toUInt32 <<< 16) |||
    ((block.getD (4 * i + 2) 0).toUInt32 <<< 8) ||| (block.getD (4 * i + 3) 0).toUInt32

/-- The first `16 + n` words of the schedule `w`. -/
def schedule (block : Bytes) : Nat → List UInt32
  | 0 => (List.range 16).map (wordAt block)
  | n + 1 =>
      let w := schedule block n
      let w15 := w.getD (n + 1) 0
      let w2 := w.getD (n + 14) 0
      let s0 := rotr w15 7 ^^^ rotr w15 18 ^^^ (w15 >>> 3)
      let s1 := rotr w2 17 ^^^ rotr w2 19 ^^^ (w2 >>> 10)
      w ++ [w.getD n 0 + s0 + w.getD (n + 9) 0 + s1]

/-- One turn of the loop of `transform`, with `k[i]` and `w[i]`. -/
def round (s : Words) (kw : UInt32 × UInt32) : Words :=
  let s1 := rotr s.e 6 ^^^ rotr s.e 11 ^^^ rotr s.e 25
  let ch := (s.e &&& s.f) ^^^ (~~~s.e &&& s.g)
  let temp1 := s.h + s1 + ch + kw.1 + kw.2
  let s0 := rotr s.a 2 ^^^ rotr s.a 13 ^^^ rotr s.a 22
  let maj := (s.a &&& s.b) ^^^ (s.a &&& s.c) ^^^ (s.b &&& s.c)
  let temp2 := s0 + maj
  ⟨temp1 + temp2, s.a, s.b, s.c, s.d + temp1, s.e, s.f, s.g⟩

/-- `transform`. -/
def transform (s : Words) (block : Bytes) : Words :=
  let t := (roundConstants.zip (schedule block 48)).foldl round s
  ⟨s.a + t.a, s.b + t.b, s.c + t.c, s.d + t.d, s.e + t.e, s.f + t.f, s.g + t.g, s.h + t.h⟩

/-- The loop of `update`, for at most `fuel` turns. -/
def absorb : (fuel : Nat) → Sha256 → Bytes → Sha256
  | 0, h, _ => h
  | fuel + 1, h, data =>
      if data = [] then h
      else
        let take := min (blockSize - h.buffer.length) data.length
        let buffer := h.buffer ++ data.take take
        if buffer.length = blockSize then
          absorb fuel { h with state := transform h.state buffer, buffer := [] } (data.drop take)
        else absorb fuel { h with buffer := buffer } (data.drop take)

/-- `update`. Every turn of its loop takes a byte at least. -/
def update (h : Sha256) (data : Bytes) : Sha256 :=
  absorb data.length { h with totalBits := h.totalBits + UInt64.ofNat data.length * 8 } data

/-- The zeros of the padding. -/
def padZeros : (fuel : Nat) → Sha256 → Sha256
  | 0, h => h
  | fuel + 1, h => if h.buffer.length = 56 then h else padZeros fuel (update h [0])

/-- A word, most significant byte first. -/
def bytesOfWord (x : UInt32) : Bytes := [(x >>> 24).toUInt8, (x >>> 16).toUInt8, (x >>> 8).toUInt8, x.toUInt8]

/-- The same for the length. -/
def bytesOfLength (bits : UInt64) : Bytes :=
  (List.range 8).map (fun i => (bits >>> UInt64.ofNat (56 - 8 * i)).toUInt8)

/-- The words in order. -/
def Words.bytes (s : Words) : Bytes :=
  bytesOfWord s.a ++ bytesOfWord s.b ++ bytesOfWord s.c ++ bytesOfWord s.d ++ bytesOfWord s.e ++
    bytesOfWord s.f ++ bytesOfWord s.g ++ bytesOfWord s.h

/-- `final`. A block has room for the zeros well before 64 turns are over. -/
def final (h : Sha256) : Bytes :=
  let padded := padZeros blockSize (update h [0x80])
  (transform padded.state (padded.buffer ++ bytesOfLength h.totalBits)).bytes

/-- `sha256`. -/
def sha256 (data : Bytes) : Bytes := final (update reset data)

/-! ## HMAC and PBKDF2 -/

/-- The key as a block. -/
def keyBlock (key : Bytes) : Bytes :=
  let k := if key.length > blockSize then sha256 key else key
  k ++ List.replicate (blockSize - k.length) 0

/-- `hmac_sha256`. -/
def hmacSha256 (key msg : Bytes) : Bytes :=
  let inner := final (update (update reset ((keyBlock key).map (· ^^^ 0x36))) msg)
  final (update (update reset ((keyBlock key).map (· ^^^ 0x5c))) inner)

/-- The loop over iterations: `u` and `acc` after `n` more of them. -/
def iterate (password : Bytes) : (n : Nat) → Bytes × Bytes → Bytes × Bytes
  | 0, q => q
  | n + 1, (u, acc) =>
      let u := hmacSha256 password u
      iterate password n (u, acc.zipWith (· ^^^ ·) u)

/-- One block of output. -/
def pbkdf2Block (password salt : Bytes) (iterations blockIndex : Nat) : Bytes :=
  let u := hmacSha256 password (salt ++ bytesOfWord (UInt32.ofNat blockIndex))
  (iterate password (iterations - 1) (u, u)).2

/-- The outer loop: `outLen` bytes from block `blockIndex` on, for at most `fuel` turns. -/
def pbkdf2Loop (password salt : Bytes) (iterations : Nat) : (fuel blockIndex outLen : Nat) → Bytes
  | 0, _, _ => []
  | fuel + 1, blockIndex, outLen =>
      if outLen = 0 then []
      else
        let acc := (pbkdf2Block password salt iterations blockIndex).take outLen
        acc ++ pbkdf2Loop password salt iterations fuel (blockIndex + 1) (outLen - acc.length)

/-- `pbkdf2_sha256`. -/
def pbkdf2Sha256 (password salt : Bytes) (iterations outLen : Nat) : Bytes :=
  pbkdf2Loop password salt iterations outLen 1 outLen

/-! ## The stored text -/

/-- One of the `digits` of `to_hex`. -/
def hexDigit (n : Nat) : UInt8 := if n < 10 then UInt8.ofNat (48 + n) else UInt8.ofNat (87 + n)

/-- `to_hex`. -/
def toHex (data : Bytes) : Bytes :=
  data.flatMap (fun b => [hexDigit (b.toNat / 16), hexDigit (b.toNat % 16)])

/-- The value of a hex digit. -/
def hexValue (c : UInt8) : Option Nat :=
  if 48 ≤ c.toNat ∧ c.toNat ≤ 57 then some (c.toNat - 48)
  else if 97 ≤ c.toNat ∧ c.toNat ≤ 102 then some (c.toNat - 87)
  else if 65 ≤ c.toNat ∧ c.toNat ≤ 70 then some (c.toNat - 55)
  else none

/-- `from_hex`. -/
def fromHex : Bytes → Option Bytes
  | [] => some []
  | [_] => none
  | c :: c' :: rest => do
      let hi ← hexValue c
      let lo ← hexValue c'
      return UInt8.ofNat (hi * 16 + lo) :: (← fromHex rest)

/-- What `constant_time_equals` collects in `diff`. -/
def difference (a b : Bytes) : UInt32 :=
  let n := min a.length b.length
  let longer := if a.length ≥ b.length then a else b
  let diff := UInt32.ofNat (a.length ^^^ b.length)
  let diff := ((a.take n).zip (b.take n)).foldl (fun diff q => diff ||| (q.1 ^^^ q.2).toUInt32) diff
  (longer.drop n).foldl (fun diff c => diff ||| c.toUInt32) diff

/-- `constant_time_equals`. -/
def constantTimeEquals (a b : Bytes) : Bool := difference a b == 0

/-- `kPbkdf2Iterations`. -/
def pbkdf2Iterations : Nat := 120000

/-- `kSaltBytes`. -/
def saltBytes : Nat := 16

/-- `kDerivedKeyBytes`. -/
def derivedKeyBytes : Nat := 32

/-- `kHashPrefix`. -/
def hashMark : Bytes := ascii "pbkdf2_sha256$"

/-- A dollar sign. -/
def dollar : UInt8 := 36

/-- `hash_password`, given what `random_bytes` read, if it could. -/
def hashPassword (password : Bytes) (salt : Option Bytes) : Bytes :=
  match salt with
  | none => []
  | some salt =>
      hashMark ++ Decimal.text pbkdf2Iterations ++ [dollar] ++ toHex salt ++ [dollar] ++
        toHex (pbkdf2Sha256 password salt pbkdf2Iterations derivedKeyBytes)

/-- `is_hashed`. -/
def isHashed (stored : Bytes) : Bool := hashMark.isPrefixOf stored

/-- What stands before the first dollar sign and after it. -/
def splitDollar (s : Bytes) : Option (Bytes × Bytes) :=
  if dollar ∈ s then some (s.takeWhile (· ≠ dollar), (s.dropWhile (· ≠ dollar)).drop 1) else none

/-- `verify_password`. -/
def verifyPassword (password stored : Bytes) : Bool :=
  if stored = [] then false
  else if ¬ isHashed stored then constantTimeEquals password stored
  else
    match splitDollar (stored.drop hashMark.length) with
    | none => false
    | some (count, body) =>
        match splitDollar body with
        | none => false
        | some (saltHex, expected) =>
            match Decimal.stoul count with
            | none => false
            | some parsed =>
                if parsed = 0 ∨ parsed > 10000000 then false
                else
                  match fromHex saltHex with
                  | none => false
                  | some salt =>
                      if salt = [] then false
                      else if expected = [] ∨ expected.length % 2 ≠ 0 then false
                      else
                        constantTimeEquals
                          (toHex (pbkdf2Sha256 password salt parsed (expected.length / 2))) expected

/-! ## Reading back -/

theorem hexValue_hexDigit : ∀ n < 16, hexValue (hexDigit n) = some n := by decide

theorem hexDigit_ne_dollar : ∀ n < 16, hexDigit n ≠ dollar := by decide

theorem fromHex_toHex (data : Bytes) : fromHex (toHex data) = some data := by
  induction data with
  | nil => rfl
  | cons b data ih =>
      have hb : b.toNat < 256 := UInt8.toNat_lt_size b
      show fromHex (hexDigit (b.toNat / 16) :: hexDigit (b.toNat % 16) :: toHex data) = _
      rw [fromHex, hexValue_hexDigit _ (by omega), hexValue_hexDigit _ (by omega), ih]
      have hval : b.toNat / 16 * 16 + b.toNat % 16 = b.toNat := by omega
      show some (UInt8.ofNat (b.toNat / 16 * 16 + b.toNat % 16) :: data) = some (b :: data)
      rw [hval, UInt8.ofNat_toNat]

theorem dollar_notMem_toHex (data : Bytes) : dollar ∉ toHex data := by
  intro h
  obtain ⟨b, -, hb⟩ := List.mem_flatMap.mp h
  have hlt : b.toNat < 256 := UInt8.toNat_lt_size b
  rcases List.mem_cons.mp hb with heq | hb
  · exact hexDigit_ne_dollar _ (by omega) heq.symm
  · rw [List.mem_singleton] at hb
    exact hexDigit_ne_dollar _ (by omega) hb.symm

theorem length_toHex (data : Bytes) : (toHex data).length = 2 * data.length := by
  induction data with
  | nil => rfl
  | cons b data ih =>
      show (toHex data).length + 1 + 1 = 2 * (data.length + 1)
      omega

theorem dollar_notMem_text (n : Nat) : dollar ∉ Decimal.text n := by
  intro h
  exact absurd (Decimal.isDigit_of_mem_digits h) (by decide)

theorem splitDollar_append {s rest : Bytes} (h : dollar ∉ s) :
    splitDollar (s ++ [dollar] ++ rest) = some (s, rest) := by
  have hne : ∀ b ∈ s, decide (b ≠ dollar) = true := by
    intro b hb
    exact decide_eq_true (fun heq => h (heq ▸ hb))
  have hmem : dollar ∈ s ++ [dollar] ++ rest := by simp
  rw [splitDollar, if_pos hmem, List.append_assoc, List.takeWhile_append_of_pos hne,
    List.dropWhile_append_of_pos hne]
  simp

theorem foldl_xor_self (s : Bytes) (d : UInt32) :
    (s.zip s).foldl (fun diff q => diff ||| (q.1 ^^^ q.2).toUInt32) d = d := by
  induction s generalizing d with
  | nil => rfl
  | cons b s ih =>
      rw [List.zip_cons_cons, List.foldl_cons, UInt8.xor_self, ih]
      exact UInt32.or_zero

theorem constantTimeEquals_self (s : Bytes) : constantTimeEquals s s = true := by
  have h : difference s s = 0 := by
    simp only [difference, Nat.min_self, List.take_length, foldl_xor_self, Nat.xor_self, ge_iff_le,
      le_refl, if_true, List.drop_length, List.foldl_nil]
    rfl
  rw [constantTimeEquals, h]
  rfl

theorem length_final (h : Sha256) : (final h).length = 32 := rfl

theorem length_iterate (password : Bytes) (n : Nat) {q : Bytes × Bytes} (h : q.2.length = 32) :
    (iterate password n q).2.length = 32 := by
  induction n generalizing q with
  | zero => exact h
  | succ n ih =>
      obtain ⟨u, acc⟩ := q
      refine ih ?_
      show (acc.zipWith (· ^^^ ·) (hmacSha256 password u)).length = 32
      rw [List.length_zipWith, show acc.length = 32 from h]
      rfl

theorem length_pbkdf2Loop (password salt : Bytes) (iterations : Nat) {fuel outLen : Nat}
    (h : outLen ≤ fuel) (blockIndex : Nat) :
    (pbkdf2Loop password salt iterations fuel blockIndex outLen).length = outLen := by
  induction fuel generalizing blockIndex outLen with
  | zero =>
      rw [pbkdf2Loop]
      exact (Nat.le_zero.mp h).symm
  | succ fuel ih =>
      rw [pbkdf2Loop]
      split
      · rename_i h0
        exact h0.symm
      · have hacc : ((pbkdf2Block password salt iterations blockIndex).take outLen).length
            = min outLen 32 := by
          rw [List.length_take, pbkdf2Block, length_iterate _ _ (length_final _)]
        rw [List.length_append, hacc, ih (by omega)]
        omega

theorem hashPassword_ne_nil (password salt : Bytes) : hashPassword password (some salt) ≠ [] := nofun

/-- **A password verifies against its hash.** -/
theorem verifyPassword_hashPassword (password : Bytes) {salt : Bytes} (h : salt ≠ []) :
    verifyPassword password (hashPassword password (some salt)) = true := by
  have hlen : (pbkdf2Sha256 password salt pbkdf2Iterations derivedKeyBytes).length = derivedKeyBytes :=
    length_pbkdf2Loop password salt pbkdf2Iterations (Nat.le_refl _) 1
  have hdrop : (hashPassword password (some salt)).drop hashMark.length
      = Decimal.text pbkdf2Iterations ++ [dollar] ++ (toHex salt ++ [dollar] ++
        toHex (pbkdf2Sha256 password salt pbkdf2Iterations derivedKeyBytes)) := by
    simp only [hashPassword, List.append_assoc, List.drop_left]
  have hmark : isHashed (hashPassword password (some salt)) = true := by
    simp only [isHashed, hashPassword, List.append_assoc, List.isPrefixOf_iff_prefix]
    exact List.prefix_append _ _
  have hhex : (toHex (pbkdf2Sha256 password salt pbkdf2Iterations derivedKeyBytes)).length = 64 := by
    rw [length_toHex, hlen]
    rfl
  have hne : toHex (pbkdf2Sha256 password salt pbkdf2Iterations derivedKeyBytes) ≠ [] := by
    intro hnil
    rw [hnil] at hhex
    exact absurd hhex (by decide)
  rw [verifyPassword, if_neg (hashPassword_ne_nil password salt), if_neg (by simp [hmark]), hdrop,
    splitDollar_append (dollar_notMem_text _)]
  simp only []
  rw [splitDollar_append (dollar_notMem_toHex _)]
  simp only []
  rw [Decimal.stoul_text (by decide), fromHex_toHex]
  simp only []
  rw [if_neg (by decide), if_neg h, if_neg (by rw [hhex]; simp [hne]), hhex]
  exact constantTimeEquals_self _

end Password

end NCloud.Frontend
