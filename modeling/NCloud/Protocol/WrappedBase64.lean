import NCloud.Lib.Base64
import NCloud.Lib.Lines
import NCloud.Protocol.Outbound

/-!
# Attachments in lines

`base64_encode_wrapped` counts the characters of a line while it writes the groups and their
padding, and begins another line before a character that does not fit. So a line end never
comes last, and what is written is the encoding, cut into pieces of 76.
-/

namespace NCloud.Protocol

open Wire

/-! ## The loop -/

/-- What has been written, and how long the last line is. -/
structure EmitState where
  out : Bytes
  lineLen : Nat

/-- `emit`. -/
def emit (st : EmitState) (c : UInt8) : EmitState :=
  if st.lineLen = 76 then ⟨st.out ++ crlf ++ [c], 1⟩ else ⟨st.out ++ [c], st.lineLen + 1⟩

/-- The loop of `base64_encode_wrapped`, and what comes after it. -/
def encodeLoop (st : EmitState) : Bytes → EmitState
  | a :: b :: c :: rest =>
      encodeLoop (emit (emit (emit (emit st (base64Char (a >>> 2))) (base64Char (((a &&& 3) <<< 4) ||| (b >>> 4))))
        (base64Char (((b &&& 15) <<< 2) ||| (c >>> 6)))) (base64Char (c &&& 63))) rest
  | [a, b] =>
      emit (emit (emit (emit st (base64Char (a >>> 2))) (base64Char (((a &&& 3) <<< 4) ||| (b >>> 4))))
        (base64Char ((b &&& 15) <<< 2))) 61
  | [a] => emit (emit (emit (emit st (base64Char (a >>> 2))) (base64Char ((a &&& 3) <<< 4))) 61) 61
  | [] => st

theorem encodeLoop_eq (st : EmitState) (data : Bytes) : encodeLoop st data = (base64Chars data).foldl emit st := by
  induction data using base64Chars.induct generalizing st with
  | case1 => rfl
  | case2 a => rfl
  | case3 a b => rfl
  | case4 a b c rest ih => exact ih _

theorem out_foldl_emit (st : EmitState) (cs : Bytes) : (cs.foldl emit st).out = st.out ++ emitAll st.lineLen cs := by
  induction cs generalizing st with
  | nil => exact (List.append_nil _).symm
  | cons c cs ih =>
      rw [List.foldl_cons, ih, emit, emitAll]
      split
      · simp only [List.append_assoc, List.singleton_append]
      · rw [List.append_assoc]
        rfl

/-- **The loop writes character after character.** -/
theorem out_encodeLoop (data : Bytes) : (encodeLoop ⟨[], 0⟩ data).out = base64EncodeWrapped data := by
  rw [encodeLoop_eq, out_foldl_emit]
  rfl

/-! ## The characters -/

theorem base64Char_eq {x : UInt8} {n : Nat} (h : x.toNat = n) : base64Char x = Base64.char n := by
  rw [base64Char, h]
  rfl

/-- What a byte gives to the characters it is part of. -/
theorem bits_spec (a : UInt8) :
    (a >>> 2).toNat = a.toNat / 4 ∧ a >>> 4 = UInt8.ofNat (a.toNat / 16) ∧ a >>> 6 = UInt8.ofNat (a.toNat / 64) ∧
      a &&& 3 = UInt8.ofNat (a.toNat % 4) ∧ a &&& 15 = UInt8.ofNat (a.toNat % 16) ∧ (a &&& 63).toNat = a.toNat % 64 := by
  have hall : ∀ n < 256, (UInt8.ofNat n >>> 2).toNat = n / 4 ∧ UInt8.ofNat n >>> 4 = UInt8.ofNat (n / 16) ∧
      UInt8.ofNat n >>> 6 = UInt8.ofNat (n / 64) ∧ UInt8.ofNat n &&& 3 = UInt8.ofNat (n % 4) ∧
      UInt8.ofNat n &&& 15 = UInt8.ofNat (n % 16) ∧ (UInt8.ofNat n &&& 63).toNat = n % 64 := by decide +kernel
  have ha := hall a.toNat a.toNat_lt
  rwa [UInt8.ofNat_toNat] at ha

/-- Two bits and four bits make six. -/
theorem toNat_or_four (a b : UInt8) : ((a &&& 3) <<< 4 ||| b >>> 4).toNat = a.toNat % 4 * 16 + b.toNat / 16 := by
  have hall : ∀ x < 4, ∀ y < 16, (UInt8.ofNat x <<< 4 ||| UInt8.ofNat y).toNat = x * 16 + y := by decide +kernel
  have hb := b.toNat_lt
  rw [(bits_spec a).2.2.2.1, (bits_spec b).2.1]
  exact hall _ (Nat.mod_lt _ (by decide)) _ (by omega)

theorem toNat_or_six (b c : UInt8) : ((b &&& 15) <<< 2 ||| c >>> 6).toNat = b.toNat % 16 * 4 + c.toNat / 64 := by
  have hall : ∀ x < 16, ∀ y < 4, (UInt8.ofNat x <<< 2 ||| UInt8.ofNat y).toNat = x * 4 + y := by decide +kernel
  have hc := c.toNat_lt
  rw [(bits_spec b).2.2.2.2.1, (bits_spec c).2.2.1]
  exact hall _ (Nat.mod_lt _ (by decide)) _ (by omega)

theorem toNat_shift_four (a : UInt8) : ((a &&& 3) <<< 4).toNat = a.toNat % 4 * 16 := by
  have hall : ∀ x < 4, (UInt8.ofNat x <<< 4).toNat = x * 16 := by decide +kernel
  rw [(bits_spec a).2.2.2.1]
  exact hall _ (Nat.mod_lt _ (by decide))

theorem toNat_shift_six (b : UInt8) : ((b &&& 15) <<< 2).toNat = b.toNat % 16 * 4 := by
  have hall : ∀ x < 16, (UInt8.ofNat x <<< 2).toNat = x * 4 := by decide +kernel
  rw [(bits_spec b).2.2.2.2.1]
  exact hall _ (Nat.mod_lt _ (by decide))

/-- The sixes of a group. -/
theorem group_spec (a b c : UInt8) :
    Base64.group a b c / 2 ^ 18 % 64 = a.toNat / 4 ∧
      Base64.group a b c / 2 ^ 12 % 64 = a.toNat % 4 * 16 + b.toNat / 16 ∧
      Base64.group a b c / 2 ^ 6 % 64 = b.toNat % 16 * 4 + c.toNat / 64 ∧ Base64.group a b c % 64 = c.toNat % 64 := by
  have ha := a.toNat_lt
  have hb := b.toNat_lt
  have hc := c.toNat_lt
  rw [Base64.group]
  omega

/-- **The characters are the encoding.** -/
theorem base64Chars_eq_encode (data : Bytes) : base64Chars data = Base64.encode data := by
  induction data using base64Chars.induct with
  | case1 => rfl
  | case2 a =>
      obtain ⟨h₁, h₂, -⟩ := group_spec a 0 0
      show [base64Char (a >>> 2), base64Char ((a &&& 3) <<< 4), 61, 61] =
        [Base64.char (Base64.group a 0 0 / 2 ^ 18 % 64), Base64.char (Base64.group a 0 0 / 2 ^ 12 % 64), 61, 61]
      rw [h₁, h₂, base64Char_eq (bits_spec a).1, base64Char_eq (toNat_shift_four a)]
      rfl
  | case3 a b =>
      obtain ⟨h₁, h₂, h₃, -⟩ := group_spec a b 0
      show [base64Char (a >>> 2), base64Char ((a &&& 3) <<< 4 ||| b >>> 4), base64Char ((b &&& 15) <<< 2), 61] =
        [Base64.char (Base64.group a b 0 / 2 ^ 18 % 64), Base64.char (Base64.group a b 0 / 2 ^ 12 % 64),
          Base64.char (Base64.group a b 0 / 2 ^ 6 % 64), 61]
      rw [h₁, h₂, h₃, base64Char_eq (bits_spec a).1, base64Char_eq (toNat_or_four a b),
        base64Char_eq (toNat_shift_six b)]
      rfl
  | case4 a b c rest ih =>
      obtain ⟨h₁, h₂, h₃, h₄⟩ := group_spec a b c
      rw [base64Chars, Base64.encode, Base64.quad, h₁, h₂, h₃, h₄, ih, base64Char_eq (bits_spec a).1,
        base64Char_eq (toNat_or_four a b), base64Char_eq (toNat_or_six b c), base64Char_eq (bits_spec c).2.2.2.2.2]
      rfl

/-! ## The lines -/

/-- A text without its line ends. -/
def withoutCrlf (s : Bytes) : Bytes := (splitCrlf s).flatten

/-- What fits on the line. -/
theorem emitAll_of_le {lineLen : Nat} {cs : Bytes} (h : lineLen + cs.length ≤ 76) : emitAll lineLen cs = cs := by
  induction cs generalizing lineLen with
  | nil => rfl
  | cons c cs ih =>
      rw [List.length_cons] at h
      rw [emitAll, if_neg (by omega), ih (by omega)]

/-- What fills the line, in front of something more. -/
theorem emitAll_full {lineLen : Nat} {line cs : Bytes} (h : lineLen + line.length = 76) (hne : cs ≠ []) :
    emitAll lineLen (line ++ cs) = line ++ (crlf ++ emitAll 0 cs) := by
  induction line generalizing lineLen with
  | nil =>
      obtain ⟨c, cs, rfl⟩ := List.exists_cons_of_ne_nil hne
      obtain rfl : lineLen = 76 := h
      rw [List.nil_append, emitAll, if_pos rfl, emitAll, if_neg (by decide)]
      rfl
  | cons b line ih =>
      rw [List.length_cons] at h
      rw [List.cons_append, emitAll, if_neg (by omega), ih (by omega)]
      rfl

/-- The lines that are written for some characters. -/
structure Wrapped (cs out : Bytes) : Prop where
  flatten : withoutCrlf out = cs
  short : ∀ l ∈ splitCrlf out, l.length ≤ 76
  full : ∀ l ∈ (splitCrlf out).dropLast, l.length = 76
  last : out.getLast? = cs.getLast?
  head : out.head? = cs.head?

theorem wrapped_emitAll (cs : Bytes) (hlf : lf ∉ cs) : Wrapped cs (emitAll 0 cs) := by
  induction hn : cs.length using Nat.strongRecOn generalizing cs with
  | ind n ih =>
      by_cases hlen : cs.length ≤ 76
      · have hlines : splitCrlf cs = [cs] := isLine_of_notMem hlf
        rw [emitAll_of_le (by omega)]
        refine ⟨?_, ?_, ?_, rfl, rfl⟩
        · rw [withoutCrlf, hlines, List.flatten_singleton]
        · rw [hlines]
          exact fun l hl => List.mem_singleton.mp hl ▸ hlen
        · rw [hlines]
          exact nofun
      · -- the first 76 make a line, and there is more
        have htake : (cs.take 76).length = 76 := by rw [List.length_take]; omega
        have hdrop : cs.drop 76 ≠ [] := fun h => hlen (List.drop_eq_nil_iff.mp h)
        have hline : splitCrlf (cs.take 76) = [cs.take 76] :=
          isLine_of_notMem fun hmem => hlf (List.mem_of_mem_take hmem)
        have hrest := ih (cs.drop 76).length (by rw [List.length_drop]; omega) (cs.drop 76)
          (fun hmem => hlf (List.mem_of_mem_drop hmem)) rfl
        have hout : emitAll 0 cs = cs.take 76 ++ (crlf ++ emitAll 0 (cs.drop 76)) := by
          rw [← emitAll_full (by rw [htake]) hdrop, List.take_append_drop]
        have hlines : splitCrlf (emitAll 0 cs) = cs.take 76 :: splitCrlf (emitAll 0 (cs.drop 76)) := by
          rw [hout, splitCrlf_append, hline, List.singleton_append]
        refine ⟨?_, ?_, ?_, ?_, ?_⟩
        · rw [withoutCrlf, hlines, List.flatten_cons]
          exact (congrArg _ hrest.flatten).trans (List.take_append_drop 76 cs)
        · rw [hlines, List.forall_mem_cons]
          exact ⟨htake.le, hrest.short⟩
        · have hmore : splitCrlf (emitAll 0 (cs.drop 76)) ≠ [] := splitCrlfFrom_ne_nil _ _
          rw [hlines, List.dropLast_cons_of_ne_nil hmore, List.forall_mem_cons]
          exact ⟨htake, hrest.full⟩
        · have hmore : emitAll 0 (cs.drop 76) ≠ [] := by
            intro hnil
            have hhead := hrest.head
            rw [hnil, List.head?_nil] at hhead
            exact hdrop (List.head?_eq_none_iff.mp hhead.symm)
          calc (emitAll 0 cs).getLast? = (emitAll 0 (cs.drop 76)).getLast? := by
                rw [hout, ← List.append_assoc, List.getLast?_append_of_ne_nil _ hmore]
            _ = (cs.drop 76).getLast? := hrest.last
            _ = cs.getLast? := by
                rw [← List.getLast?_append_of_ne_nil (cs.take 76) hdrop, List.take_append_drop]
        · have hfront : cs.take 76 ≠ [] := List.ne_nil_of_length_pos (by omega)
          rw [hout, List.head?_append_of_ne_nil _ hfront]
          conv => rhs; rw [← List.take_append_drop 76 cs, List.head?_append_of_ne_nil _ hfront]

/--
**What is written for an attachment.**

Without the line ends it is the encoding, which decodes to the attachment. All lines but the
last have 76 characters, the last has no more, and there is no line end at either end.
-/
theorem base64EncodeWrapped_spec (data : Bytes) :
    withoutCrlf (base64EncodeWrapped data) = Base64.encode data ∧
      Base64.decode (withoutCrlf (base64EncodeWrapped data)) = some data ∧
      (∀ l ∈ splitCrlf (base64EncodeWrapped data), l.length ≤ 76) ∧
      (∀ l ∈ (splitCrlf (base64EncodeWrapped data)).dropLast, l.length = 76) ∧
      ¬ crlf <+: base64EncodeWrapped data ∧ ¬ crlf <:+ base64EncodeWrapped data := by
  have hcr : cr ∉ base64Chars data := notMem_base64Chars (by decide) (by decide) (by decide +kernel) data
  have hlf : lf ∉ base64Chars data := notMem_base64Chars (by decide) (by decide) (by decide +kernel) data
  have hwrapped : Wrapped (base64Chars data) (base64EncodeWrapped data) := wrapped_emitAll _ hlf
  have hencode : withoutCrlf (base64EncodeWrapped data) = Base64.encode data :=
    hwrapped.flatten.trans (base64Chars_eq_encode data)
  refine ⟨hencode, ?_, hwrapped.short, hwrapped.full, ?_, ?_⟩
  · rw [hencode, Base64.decode_encode]
  · rintro ⟨t, ht⟩
    have hhead := hwrapped.head
    rw [← ht] at hhead
    exact hcr (List.mem_of_head? hhead.symm)
  · rintro ⟨t, ht⟩
    have hlast := hwrapped.last
    rw [← ht, List.getLast?_append_of_ne_nil _ (by decide)] at hlast
    exact hlf (List.mem_of_getLast? hlast.symm)

end NCloud.Protocol
