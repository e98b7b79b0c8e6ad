import NCloud.Lib.Reader
import Mathlib.Data.List.OfFn
import Mathlib.Data.List.GetD

/-!
# The row filter

`bloom.h`: a 256 KB bit array and three string hashes. `get`, `cput` and `del`
ask it before they touch the row map, and a checkpoint file ends with the raw
array. The array is a function from byte index to byte, so that a write is an
update and the file image is the function's table.
-/

namespace NCloud

open Wire

namespace BloomFilter

/-- `BITS`: the array holds 256 KB. -/
def BITS : Nat := 2097152

/-- `BYTES = BITS / 8`. -/
def BYTES : Nat := 262144

/-- `NHASH`. -/
def NHASH : Nat := 3

theorem byte_lt (key : UInt64) : key.toNat % BITS / 8 < BYTES := by
  have h : key.toNat % BITS < BITS := Nat.mod_lt _ (by decide)
  simp only [BITS, BYTES] at *
  omega

/-- `djb2`. -/
def djb2 (s : Bytes) : UInt64 :=
  s.foldl (fun h c => ((h <<< 5) + h) + c.toUInt64) 5381

/-- `fnv1a`. -/
def fnv1a (s : Bytes) : UInt64 :=
  s.foldl (fun h c => (h ^^^ c.toUInt64) * 1099511628211) 14695981039346656037

/-- `sdbm`. -/
def sdbm (s : Bytes) : UInt64 :=
  s.foldl (fun h c => c.toUInt64 + (h <<< 6) + (h <<< 16) - h) 0

/-- `hash`: the seed picks one of the three. -/
def hash (key : Bytes) : Nat → UInt64
  | 0 => djb2 key
  | 1 => fnv1a key
  | _ => sdbm key

end BloomFilter

/-- `BloomFilter`: `bits_`, byte by byte. -/
structure BloomFilter where
  bits : Fin BloomFilter.BYTES → UInt8

namespace BloomFilter

/-- The constructor: all bits clear. -/
def empty : BloomFilter := ⟨fun _ => 0⟩

/-- `set_bit`, at the position a hash selects. -/
def setBit (b : BloomFilter) (h : UInt64) : BloomFilter :=
  let pos := h.toNat % BITS
  let i : Fin BYTES := ⟨pos / 8, byte_lt h⟩
  ⟨fun j => if j = i then b.bits j ||| ((1 : UInt8) <<< UInt8.ofNat (pos % 8)) else b.bits j⟩

/-- `get_bit`. -/
def getBit (b : BloomFilter) (h : UInt64) : Bool :=
  let pos := h.toNat % BITS
  (b.bits ⟨pos / 8, byte_lt h⟩ >>> UInt8.ofNat (pos % 8)) &&& 1 == 1

/-- `add`: set the bit of each of the `NHASH` hashes. -/
def add (b : BloomFilter) (key : Bytes) : BloomFilter :=
  (List.range NHASH).foldl (fun b i => b.setBit (hash key i)) b

/-- `may_contain`: every hash's bit is set. -/
def mayContain (b : BloomFilter) (key : Bytes) : Bool :=
  (List.range NHASH).all (fun i => b.getBit (hash key i))

/-- `serialize`: the raw array. -/
def serialize (b : BloomFilter) : Bytes := List.ofFn b.bits

/-- `deserialize`: the array is cleared and then filled with what the file still holds. -/
def deserialize (bs : Bytes) : BloomFilter := ⟨fun i => bs.getD i 0⟩

@[simp] theorem serialize_length (b : BloomFilter) : b.serialize.length = BYTES := by
  simp [serialize]

/-- Reading the array back gives the filter, whatever follows it in the file. -/
theorem deserialize_serialize (b : BloomFilter) (rest : Bytes) :
    deserialize (b.serialize ++ rest) = b := by
  cases b with
  | mk bits =>
      simp only [deserialize, serialize, BloomFilter.mk.injEq]
      funext i
      have hi : i.val < (List.ofFn bits).length := by simp
      rw [List.getD_append _ _ _ _ hi, List.getD_eq_getElem _ _ hi, List.getElem_ofFn]

/-! ## No false negatives -/

/-- Reading one bit of a byte. -/
theorem bit_eq_testBit (x : UInt8) {n : Nat} (hn : n < 8) :
    (x >>> UInt8.ofNat n &&& 1 == 1) = x.toNat.testBit n := by
  have hmod : (UInt8.ofNat n).toNat % 8 = n := by
    rw [UInt8.toNat_ofNat']
    omega
  have hval : (x >>> UInt8.ofNat n &&& 1).toNat = x.toNat >>> n % 2 := by
    rw [UInt8.toNat_and, UInt8.toNat_shiftRight, hmod]
    exact Nat.and_one_is_mod _
  rw [Nat.testBit_eq_decide_div_mod_eq, ← Nat.shiftRight_eq_div_pow, ← hval, Bool.eq_iff_iff, beq_iff_eq,
    decide_eq_true_iff, ← UInt8.toNat_inj]
  rfl

/-- The byte that `set_bit` joins. -/
theorem toNat_one_shiftLeft {n : Nat} (hn : n < 8) : ((1 : UInt8) <<< UInt8.ofNat n).toNat = 2 ^ n := by
  have hmod : (UInt8.ofNat n).toNat % 8 = n := by
    rw [UInt8.toNat_ofNat']
    omega
  have hpow : 2 ^ n < 2 ^ 8 := Nat.pow_lt_pow_right (by decide) hn
  rw [UInt8.toNat_shiftLeft, hmod, Nat.shiftLeft_eq]
  rw [show (1 : UInt8).toNat = 1 from rfl, Nat.one_mul, Nat.mod_eq_of_lt hpow]

/-- The bit a hash selects, as a bit of the array. -/
theorem getBit_eq_testBit (b : BloomFilter) (k : UInt64) :
    b.getBit k = (b.bits ⟨k.toNat % BITS / 8, byte_lt k⟩).toNat.testBit (k.toNat % BITS % 8) :=
  bit_eq_testBit _ (Nat.mod_lt _ (by decide))

/-- **Setting a bit** sets that bit and no other. -/
theorem getBit_setBit (b : BloomFilter) (h k : UInt64) :
    (b.setBit h).getBit k = (b.getBit k || decide (h.toNat % BITS = k.toNat % BITS)) := by
  have hlt : h.toNat % BITS % 8 < 8 := Nat.mod_lt _ (by decide)
  rw [getBit_eq_testBit, getBit_eq_testBit]
  by_cases hbyte : k.toNat % BITS / 8 = h.toNat % BITS / 8
  · have hself : (b.setBit h).bits ⟨k.toNat % BITS / 8, byte_lt k⟩ =
        b.bits ⟨k.toNat % BITS / 8, byte_lt k⟩ ||| ((1 : UInt8) <<< UInt8.ofNat (h.toNat % BITS % 8)) :=
      if_pos (Fin.ext hbyte)
    rw [hself, UInt8.toNat_or, Nat.testBit_or, toNat_one_shiftLeft hlt, Nat.testBit_two_pow]
    congr 1
    rw [decide_eq_decide]
    omega
  · have hother : (b.setBit h).bits ⟨k.toNat % BITS / 8, byte_lt k⟩ =
        b.bits ⟨k.toNat % BITS / 8, byte_lt k⟩ :=
      if_neg (fun he => hbyte (Fin.mk.inj he))
    have hne : ¬ h.toNat % BITS = k.toNat % BITS := fun he => hbyte (by rw [he])
    rw [hother, decide_eq_false hne, Bool.or_false]

theorem getBit_add (b : BloomFilter) (key : Bytes) (k : UInt64) :
    (b.add key).getBit k = (b.getBit k ||
      (List.range NHASH).any (fun i => decide ((hash key i).toNat % BITS = k.toNat % BITS))) := by
  have hfold : ∀ (l : List Nat) (b : BloomFilter), (l.foldl (fun b i => b.setBit (hash key i)) b).getBit k =
      (b.getBit k || l.any (fun i => decide ((hash key i).toNat % BITS = k.toNat % BITS))) := by
    intro l
    induction l with
    | nil => intro b; rw [List.foldl_nil, List.any_nil, Bool.or_false]
    | cons i l ih => intro b; rw [List.foldl_cons, ih, getBit_setBit, List.any_cons, Bool.or_assoc]
  exact hfold _ b

/-- What was added is never denied. -/
theorem mayContain_add_self (b : BloomFilter) (key : Bytes) : (b.add key).mayContain key = true := by
  rw [mayContain, List.all_eq_true]
  intro i hi
  rw [getBit_add, Bool.or_eq_true, List.any_eq_true]
  exact Or.inr ⟨i, hi, decide_eq_true rfl⟩

/-- Adding a key hides no other. -/
theorem mayContain_add (b : BloomFilter) (key : Bytes) {other : Bytes} (h : b.mayContain other = true) :
    (b.add key).mayContain other = true := by
  rw [mayContain, List.all_eq_true] at h ⊢
  intro i hi
  rw [getBit_add, h i hi, Bool.true_or]

end BloomFilter

end NCloud
