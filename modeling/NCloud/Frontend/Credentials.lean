import NCloud.Frontend.Password

/-!
# Stored credentials

`hash_password` with its cost and `verify_password` with its `needs_rehash`. A password
verifies against a hash exactly if the keys derived from the two passwords are the same.

A stored value without the prefix is compared as it is, by a function that collects the
differences in an `unsigned`. The lengths go in truncated, so a value that is the password
and then zero bytes, a multiple of `2 ^ 32` of them, would pass for the password. No cell
holds a value of that length.
-/

namespace NCloud.Frontend.Password

open Wire

/-! ## The functions as they are declared -/

/-- `hash_password`, given the salt that `random_bytes` read. -/
def hashPasswordCost (password : Bytes) (iterations : Nat) (salt : Bytes) : Bytes :=
  hashMark ++ Decimal.text iterations ++ [dollar] ++ toHex salt ++ [dollar] ++
    toHex (pbkdf2Sha256 password salt iterations derivedKeyBytes)

/-- What a caller learns: whether the password is right, and `needs_rehash`. -/
structure Verdict where
  ok : Bool
  needsRehash : Bool
  deriving DecidableEq

/-- `verify_password`. -/
def verify (password stored : Bytes) : Verdict :=
  if stored = [] then ⟨false, false⟩
  else if ¬ isHashed stored then
    let ok := constantTimeEquals password stored
    ⟨ok, ok⟩
  else
    match splitDollar (stored.drop hashMark.length) with
    | none => ⟨false, false⟩
    | some (count, body) =>
        match splitDollar body with
        | none => ⟨false, false⟩
        | some (saltHex, expected) =>
            match Decimal.stoul count with
            | none => ⟨false, false⟩
            | some parsed =>
                if parsed = 0 ∨ parsed > 10000000 then ⟨false, false⟩
                else
                  match fromHex saltHex with
                  | none => ⟨false, false⟩
                  | some salt =>
                      if salt = [] then ⟨false, false⟩
                      else if expected = [] ∨ expected.length % 2 ≠ 0 then ⟨false, false⟩
                      else
                        let ok := constantTimeEquals
                          (toHex (pbkdf2Sha256 password salt parsed (expected.length / 2))) expected
                        ⟨ok, ok && decide (parsed < pbkdf2Iterations)⟩

theorem hashPassword_eq (password salt : Bytes) :
    hashPassword password (some salt) = hashPasswordCost password pbkdf2Iterations salt := rfl

theorem verify_ok (password stored : Bytes) : (verify password stored).ok = verifyPassword password stored := by
  rw [verify, verifyPassword]
  by_cases hnil : stored = []
  · rw [if_pos hnil, if_pos hnil]
  rw [if_neg hnil, if_neg hnil]
  by_cases hplain : ¬ isHashed stored = true
  · rw [if_pos hplain, if_pos hplain]
  rw [if_neg hplain, if_neg hplain]
  cases splitDollar (stored.drop hashMark.length) with
  | none => rfl
  | some parts =>
      obtain ⟨count, body⟩ := parts
      dsimp only
      cases splitDollar body with
      | none => rfl
      | some parts =>
          obtain ⟨saltHex, expected⟩ := parts
          dsimp only
          cases Decimal.stoul count with
          | none => rfl
          | some parsed =>
              dsimp only
              by_cases hrange : parsed = 0 ∨ parsed > 10000000
              · rw [if_pos hrange, if_pos hrange]
              rw [if_neg hrange, if_neg hrange]
              cases fromHex saltHex with
              | none => rfl
              | some salt =>
                  dsimp only
                  by_cases hsalt : salt = []
                  · rw [if_pos hsalt, if_pos hsalt]
                  rw [if_neg hsalt, if_neg hsalt]
                  by_cases hexpected : expected = [] ∨ expected.length % 2 ≠ 0
                  · rw [if_pos hexpected, if_pos hexpected]
                  rw [if_neg hexpected, if_neg hexpected]

/-! ## Comparing -/

theorem foldl_or_eq_zero {β : Type} (f : β → UInt32) (l : List β) (d : UInt32) :
    l.foldl (fun diff x => diff ||| f x) d = 0 ↔ d = 0 ∧ ∀ x ∈ l, f x = 0 := by
  induction l generalizing d with
  | nil => simp
  | cons x l ih =>
      rw [List.foldl_cons, ih, UInt32.or_eq_zero_iff, List.forall_mem_cons, and_assoc]

theorem toUInt32_eq_zero {b : UInt8} : b.toUInt32 = 0 ↔ b = 0 := by
  constructor
  · intro h
    have hnat := congrArg UInt32.toNat h
    rw [UInt8.toNat_toUInt32] at hnat
    exact UInt8.toNat_inj.mp hnat
  · rintro rfl
    rfl

theorem forall_mem_zip_iff {a b : Bytes} (h : a.length = b.length) :
    (∀ q ∈ a.zip b, (q.1 ^^^ q.2).toUInt32 = 0) ↔ a = b := by
  induction a generalizing b with
  | nil =>
      obtain rfl := List.length_eq_zero_iff.mp h.symm
      simp
  | cons x a ih =>
      cases b with
      | nil => exact absurd h (by simp)
      | cons y b =>
          rw [List.length_cons, List.length_cons] at h
          rw [List.zip_cons_cons, List.forall_mem_cons, ih (by omega), toUInt32_eq_zero, UInt8.xor_eq_zero_iff,
            List.cons.injEq]

/-- The lengths as they go into `diff`. -/
theorem ofNat_xor_eq_zero {m n : Nat} : UInt32.ofNat (m ^^^ n) = 0 ↔ m % 2 ^ 32 = n % 2 ^ 32 := by
  have hnat : UInt32.ofNat (m ^^^ n) = 0 ↔ (m ^^^ n) % 2 ^ 32 = 0 := by
    rw [← UInt32.toNat_inj, UInt32.toNat_ofNat']
    rfl
  rw [hnat, Nat.xor_mod_two_pow]
  constructor
  · intro h
    have hxor := congrArg (m % 2 ^ 32 ^^^ ·) h
    rw [← Nat.xor_assoc, Nat.xor_self, Nat.zero_xor, Nat.xor_zero] at hxor
    exact hxor.symm
  · intro h
    rw [h, Nat.xor_self]

/-- Strings of one length. -/
theorem constantTimeEquals_iff_eq {a b : Bytes} (h : a.length = b.length) :
    constantTimeEquals a b = true ↔ a = b := by
  have htake : b.take a.length = b := by rw [h, List.take_length]
  rw [constantTimeEquals, beq_iff_eq, difference]
  rw [foldl_or_eq_zero, foldl_or_eq_zero, ofNat_xor_eq_zero, h, Nat.min_self, if_pos (Nat.le_refl _), ← h,
    List.take_length, htake, forall_mem_zip_iff h, List.drop_length]
  simp

/-- **`constant_time_equals`**, of a string that is not too long. -/
theorem constantTimeEquals_iff {a b : Bytes} (ha : a.length < 2 ^ 32) :
    constantTimeEquals a b = true ↔ ∃ j, b = a ++ List.replicate (j * 2 ^ 32) 0 := by
  by_cases hlen : a.length = b.length
  · rw [constantTimeEquals_iff_eq hlen]
    constructor
    · rintro rfl
      exact ⟨0, by simp⟩
    · rintro ⟨j, rfl⟩
      rw [List.length_append, List.length_replicate] at hlen
      obtain rfl : j = 0 := by omega
      simp
  · rw [constantTimeEquals, beq_iff_eq, difference]
    rw [foldl_or_eq_zero, foldl_or_eq_zero, ofNat_xor_eq_zero, Nat.mod_eq_of_lt ha]
    constructor
    · rintro ⟨⟨hmod, hzip⟩, hrest⟩
      -- the other string is longer, by whole multiples, and what is too much is zero
      have hle : a.length ≤ b.length := by omega
      rw [Nat.min_eq_left hle, List.take_length,
        forall_mem_zip_iff (by rw [List.length_take, Nat.min_eq_left hle])] at hzip
      rw [if_neg (by omega), Nat.min_eq_left hle] at hrest
      refine ⟨b.length / 2 ^ 32, ?_⟩
      have hzeros : b.drop a.length = List.replicate (b.drop a.length).length 0 :=
        List.eq_replicate_of_mem fun x hx => toUInt32_eq_zero.mp (hrest x hx)
      have hmany : (b.drop a.length).length = b.length / 2 ^ 32 * 2 ^ 32 := by
        rw [List.length_drop]
        omega
      rw [← hmany, ← hzeros]
      exact ((List.take_append_drop a.length b).symm.trans (congrArg (· ++ b.drop a.length) hzip.symm))
    · rintro ⟨j, rfl⟩
      rw [List.length_append, List.length_replicate] at hlen ⊢
      have hmin : min a.length (a.length + j * 2 ^ 32) = a.length := by omega
      rw [hmin, if_neg (by omega), List.take_length, List.take_left, List.drop_left,
        forall_mem_zip_iff rfl]
      refine ⟨⟨by omega, rfl⟩, fun x hx => ?_⟩
      rw [List.eq_of_mem_replicate hx]
      rfl

/-! ## Hashes -/

theorem toHex_inj {a b : Bytes} : toHex a = toHex b ↔ a = b := by
  constructor
  · intro h
    have hback := congrArg fromHex h
    rw [fromHex_toHex, fromHex_toHex] at hback
    exact Option.some.inj hback
  · rintro rfl
    rfl

/-- What `verify_password` makes of what `hash_password` has written. -/
theorem verify_hashPasswordCost (p q : Bytes) {salt : Bytes} (hsalt : salt ≠ []) {i : Nat} (hpos : 1 ≤ i)
    (hmax : i ≤ 10000000) :
    verify q (hashPasswordCost p i salt) =
      ⟨decide (pbkdf2Sha256 q salt i derivedKeyBytes = pbkdf2Sha256 p salt i derivedKeyBytes),
        decide (pbkdf2Sha256 q salt i derivedKeyBytes = pbkdf2Sha256 p salt i derivedKeyBytes) &&
          decide (i < pbkdf2Iterations)⟩ := by
  have hlen : ∀ password, (pbkdf2Sha256 password salt i derivedKeyBytes).length = derivedKeyBytes :=
    fun password => length_pbkdf2Loop password salt i (Nat.le_refl _) 1
  have hhex : ∀ password, (toHex (pbkdf2Sha256 password salt i derivedKeyBytes)).length = 64 := by
    intro password
    rw [length_toHex, hlen]
    rfl
  have hdrop : (hashPasswordCost p i salt).drop hashMark.length =
      Decimal.text i ++ [dollar] ++ (toHex salt ++ [dollar] ++ toHex (pbkdf2Sha256 p salt i derivedKeyBytes)) := by
    simp only [hashPasswordCost, List.append_assoc, List.drop_left]
  have hmark : isHashed (hashPasswordCost p i salt) = true := by
    simp only [isHashed, hashPasswordCost, List.append_assoc, List.isPrefixOf_iff_prefix]
    exact List.prefix_append _ _
  have hnil : hashPasswordCost p i salt ≠ [] := by
    intro hempty
    rw [hempty] at hmark
    exact absurd hmark (by decide)
  have hexpected : ¬ (toHex (pbkdf2Sha256 p salt i derivedKeyBytes) = [] ∨
      (toHex (pbkdf2Sha256 p salt i derivedKeyBytes)).length % 2 ≠ 0) := by
    rw [hhex]
    rintro (hempty | hodd)
    · have hzero := congrArg List.length hempty
      rw [hhex] at hzero
      exact absurd hzero (by decide)
    · exact hodd rfl
  have hcompare : constantTimeEquals (toHex (pbkdf2Sha256 q salt i derivedKeyBytes))
      (toHex (pbkdf2Sha256 p salt i derivedKeyBytes)) =
      decide (pbkdf2Sha256 q salt i derivedKeyBytes = pbkdf2Sha256 p salt i derivedKeyBytes) := by
    rw [Bool.eq_iff_iff, decide_eq_true_eq, constantTimeEquals_iff_eq (by rw [hhex, hhex]), toHex_inj]
  rw [verify, if_neg hnil, if_neg (by rw [hmark]; simp), hdrop, splitDollar_append (dollar_notMem_text i)]
  dsimp only
  rw [splitDollar_append (dollar_notMem_toHex salt)]
  dsimp only
  rw [Decimal.stoul_text (by omega), fromHex_toHex]
  dsimp only
  rw [if_neg (by omega), if_neg hsalt, if_neg hexpected, hhex]
  show Verdict.mk _ (_ && _) = _
  rw [show 64 / 2 = derivedKeyBytes from rfl, hcompare]

/-- What is promised of a hash of `p`: exactly the passwords with the same key verify, `p`
among them, and only a hash that was too cheap is to be replaced. -/
structure HashVerifies (p q salt : Bytes) (i : Nat) : Prop where
  same : (verify q (hashPasswordCost p i salt)).ok = true ↔
    pbkdf2Sha256 p salt i derivedKeyBytes = pbkdf2Sha256 q salt i derivedKeyBytes
  own : (verify p (hashPasswordCost p i salt)).ok = true
  rehash : (verify q (hashPasswordCost p i salt)).ok = true →
    ((verify q (hashPasswordCost p i salt)).needsRehash = true ↔ i < 120000)

/-- What is promised of a value without the prefix: it verifies exactly the password that it
is, and is then to be replaced. -/
structure PlainVerifies (q stored : Bytes) : Prop where
  same : (verify q stored).ok = true ↔ stored ≠ [] ∧ stored = q
  rehash : (verify q stored).ok = true → (verify q stored).needsRehash = true

theorem hashVerifies (p q : Bytes) {salt : Bytes} (hsalt : salt ≠ []) {i : Nat} (hpos : 1 ≤ i) (hmax : i ≤ 10000000) :
    HashVerifies p q salt i where
  same := by
    rw [verify_hashPasswordCost p q hsalt hpos hmax, decide_eq_true_eq]
    exact eq_comm
  own := by
    rw [verify_hashPasswordCost p p hsalt hpos hmax]
    exact decide_eq_true rfl
  rehash := by
    rw [verify_hashPasswordCost p q hsalt hpos hmax]
    intro hok
    dsimp only at hok ⊢
    rw [hok, Bool.true_and, decide_eq_true_eq]
    rfl

/-- A value that is not a hash. -/
theorem verify_plain {q stored : Bytes} (hq : q.length < 2 ^ 32) (hplain : isHashed stored = false) :
    ((verify q stored).ok = true ↔ stored ≠ [] ∧ ∃ j, stored = q ++ List.replicate (j * 2 ^ 32) 0) ∧
      (verify q stored).needsRehash = (verify q stored).ok := by
  rw [verify]
  by_cases hnil : stored = []
  · rw [if_pos hnil]
    exact ⟨⟨fun h => absurd h Bool.false_ne_true, fun h => absurd hnil h.1⟩, rfl⟩
  · rw [if_neg hnil, if_pos (by rw [hplain]; exact Bool.false_ne_true)]
    exact ⟨(constantTimeEquals_iff hq).trans ⟨fun h => ⟨hnil, h⟩, fun h => h.2⟩, rfl⟩

/-- **Which values verify.** Hashes do as promised. A value that is not a hash does exactly
if it is not the password with `2 ^ 32` zero bytes, or a multiple of that, after it. -/
theorem credentials_iff {p q salt stored : Bytes} {i : Nat} (hq : q.length < 2 ^ 32) (hsalt : salt.length = 16)
    (hpos : 1 ≤ i) (hmax : i ≤ 10000000) (hplain : isHashed stored = false) :
    HashVerifies p q salt i ∧ PlainVerifies q stored ↔
      ∀ j, 0 < j → stored ≠ q ++ List.replicate (j * 2 ^ 32) 0 := by
  have hne : salt ≠ [] := by
    rintro rfl
    exact absurd hsalt (by decide)
  obtain ⟨hok, hflag⟩ := verify_plain hq hplain
  constructor
  · rintro ⟨-, hpromise⟩ j hj rfl
    have hlong : (q ++ List.replicate (j * 2 ^ 32) (0 : UInt8)).length ≠ q.length := by
      rw [List.length_append, List.length_replicate]
      omega
    have hnil : q ++ List.replicate (j * 2 ^ 32) (0 : UInt8) ≠ [] := by
      intro hnil
      rw [hnil] at hlong
      have hzero := (List.append_eq_nil_iff.mp hnil).1
      rw [hzero] at hlong
      exact hlong rfl
    exact hlong (congrArg List.length (hpromise.same.mp (hok.mpr ⟨hnil, j, rfl⟩)).2)
  · intro hfree
    refine ⟨hashVerifies p q hne hpos hmax, hok.trans ⟨?_, ?_⟩, fun h => hflag.trans h⟩
    · rintro ⟨hnil, j, hj⟩
      rcases Nat.eq_zero_or_pos j with rfl | hpos
      · rw [Nat.zero_mul, List.replicate_zero, List.append_nil] at hj
        exact ⟨hnil, hj⟩
      · exact absurd hj (hfree j hpos)
    · rintro ⟨hnil, rfl⟩
      exact ⟨hnil, 0, by rw [Nat.zero_mul, List.replicate_zero, List.append_nil]⟩

/--
**Stored credentials verify exactly.**

A stored value comes from a cell, whose length is 32 bits wide in the WAL, in the
checkpoint file and on the wire, so it is never long enough for that. Hashes verify
exactly the passwords with the same key, and values without the prefix exactly the
password that they are.
-/
theorem credentials_verify {p q salt stored : Bytes} {i : Nat} (hq : q.length < 2 ^ 32)
    (hstored : stored.length < 2 ^ 32) (hsalt : salt.length = 16) (hpos : 1 ≤ i) (hmax : i ≤ 10000000)
    (hplain : isHashed stored = false) : HashVerifies p q salt i ∧ PlainVerifies q stored := by
  refine (credentials_iff hq hsalt hpos hmax hplain).mpr (fun j hj heq => ?_)
  have hlen := congrArg List.length heq
  rw [List.length_append, List.length_replicate] at hlen
  omega

/-- The password `a`, a hash of `b`, and the value `a`. -/
theorem credentials_verify_short :
    HashVerifies [98] [97] (List.replicate 16 7) 1 ∧ PlainVerifies [97] [97] :=
  credentials_verify (by decide) (by decide) (by decide) (by decide) (by decide) rfl

end NCloud.Frontend.Password
