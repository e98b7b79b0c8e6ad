import NCloud.Lib.Search
import Mathlib.Logic.Function.Basic

/-!
# Forms

`url_decode` and `parse_urlencoded` of `http.h`. Whatever way a form is encoded in, with hex
digits of either case and spaces as `%20` or `+`, it reads back as the map in which each key
has its last value.
-/

namespace NCloud.Protocol.Forms

open Wire

/-! ## The functions -/

/-- `%`. -/
def percent : UInt8 := 37

/-- `&`. -/
def ampersand : UInt8 := 38

/-- `+`. -/
def plus : UInt8 := 43

/-- `=`. -/
def equals : UInt8 := 61

/-- `hex_digit_value`; `none` is -1. -/
def hexDigitValue (c : UInt8) : Option Nat :=
  if 48 ≤ c.toNat ∧ c.toNat ≤ 57 then some (c.toNat - 48)
  else if 97 ≤ c.toNat ∧ c.toNat ≤ 102 then some (c.toNat - 97 + 10)
  else if 65 ≤ c.toNat ∧ c.toNat ≤ 70 then some (c.toNat - 65 + 10)
  else none

/-- What a byte outside of an escape stands for. -/
def plainByte (c : UInt8) : UInt8 := if c = plus then 32 else c

/-- `url_decode`. An escape with a bad digit is kept as it is, all three bytes of it. -/
def urlDecode : Bytes → Bytes
  | [] => []
  | [c] => [plainByte c]
  | [c, d] => [plainByte c, plainByte d]
  | c :: d :: d' :: rest =>
      if c = percent then
        match hexDigitValue d, hexDigitValue d' with
        | some hi, some lo => UInt8.ofNat (hi * 16 + lo) :: urlDecode rest
        | _, _ => c :: d :: d' :: urlDecode rest
      else plainByte c :: urlDecode (d :: d' :: rest)

/-- What `std::getline` returns until it fails, with the bytes it has of the current token.
At the end of the input it fails if there are none. -/
def tokensFrom (delim : UInt8) (token : Bytes) : Bytes → List Bytes
  | [] => if token = [] then [] else [token]
  | b :: rest => if b = delim then token :: tokensFrom delim [] rest else tokensFrom delim (token ++ [b]) rest

/-- The tokens of a stream. -/
def tokens (delim : UInt8) (s : Bytes) : List Bytes := tokensFrom delim [] s

/-- The map that is returned. -/
abbrev Params := Bytes → Option Bytes

/-- One turn of the loop. A token without `=` is skipped. -/
def addParam (params : Params) (token : Bytes) : Params :=
  match cut [equals] token with
  | none => params
  | some (name, value) => Function.update params (urlDecode name) (some (urlDecode value))

/-- `parse_urlencoded`. -/
def parseUrlencoded (body : Bytes) : Params := (tokens ampersand body).foldl addParam (fun _ => none)

/-- A field of a form; one that is missing is empty. -/
def field (body : Bytes) (name : String) : Bytes := (parseUrlencoded body (ascii name)).getD []

/-! ## Encoded forms -/

/-- Letters, digits, `-`, `.`, `_` and `~`. -/
def Unreserved (b : UInt8) : Prop :=
  48 ≤ b.toNat ∧ b.toNat ≤ 57 ∨ 65 ≤ b.toNat ∧ b.toNat ≤ 90 ∨ 97 ≤ b.toNat ∧ b.toNat ≤ 122 ∨
    b = 45 ∨ b = 46 ∨ b = 95 ∨ b = 126

/-- A hex digit of either case. -/
def HexDigit (n : Nat) (d : UInt8) : Prop :=
  some d = (ascii "0123456789abcdef")[n]? ∨ some d = (ascii "0123456789ABCDEF")[n]?

/-- A byte as it may be sent. -/
inductive EncodesByte : UInt8 → Bytes → Prop where
  | plain {b : UInt8} : Unreserved b → EncodesByte b [b]
  | escape {b d d' : UInt8} : HexDigit (b.toNat / 16) d → HexDigit (b.toNat % 16) d' → EncodesByte b [percent, d, d']
  | plus : EncodesByte 32 [plus]

/-- A string as it may be sent. -/
inductive Encodes : Bytes → Bytes → Prop where
  | nil : Encodes [] []
  | cons {b : UInt8} {piece s e : Bytes} : EncodesByte b piece → Encodes s e → Encodes (b :: s) (piece ++ e)

/-- A key and its value as they may be sent. -/
def EncodesPair (pair : Bytes × Bytes) (part : Bytes) : Prop :=
  ∃ key value, Encodes pair.1 key ∧ Encodes pair.2 value ∧ part = key ++ equals :: value

/-! ## Decoding -/

theorem hexDigitValue_eq {n : Nat} {d : UInt8} (hn : n < 16) (h : HexDigit n d) : hexDigitValue d = some n := by
  have hdigits : ∀ n < 16, ∀ d ∈ (ascii "0123456789abcdef")[n]?, hexDigitValue d = some n := by decide +kernel
  have hcapitals : ∀ n < 16, ∀ d ∈ (ascii "0123456789ABCDEF")[n]?, hexDigitValue d = some n := by decide +kernel
  rcases h with h | h
  · exact hdigits n hn d h.symm
  · exact hcapitals n hn d h.symm

theorem urlDecode_plain {c : UInt8} (h : c ≠ percent) (rest : Bytes) :
    urlDecode (c :: rest) = plainByte c :: urlDecode rest := by
  cases rest with
  | nil => rfl
  | cons d rest =>
      cases rest with
      | nil => rfl
      | cons d' rest => rw [urlDecode, if_neg h]

theorem urlDecode_escape {b d d' : UInt8} (hd : HexDigit (b.toNat / 16) d) (hd' : HexDigit (b.toNat % 16) d')
    (rest : Bytes) : urlDecode (percent :: d :: d' :: rest) = b :: urlDecode rest := by
  have hb : b.toNat < 256 := UInt8.toNat_lt_size b
  have hval : b.toNat / 16 * 16 + b.toNat % 16 = b.toNat := by omega
  rw [urlDecode, if_pos rfl, hexDigitValue_eq (by omega) hd, hexDigitValue_eq (by omega) hd']
  show UInt8.ofNat _ :: _ = _
  rw [hval, UInt8.ofNat_toNat]

theorem ne_of_unreserved {b : UInt8} (h : Unreserved b) :
    b ≠ percent ∧ b ≠ plus ∧ b ≠ ampersand ∧ b ≠ equals := by
  refine ⟨?_, ?_, ?_, ?_⟩
  all_goals
    rintro rfl
    exact absurd h (by unfold Unreserved; decide)

theorem urlDecode_append {b : UInt8} {piece : Bytes} (h : EncodesByte b piece) (rest : Bytes) :
    urlDecode (piece ++ rest) = b :: urlDecode rest := by
  cases h with
  | plain hb =>
      obtain ⟨hpercent, hplus, -, -⟩ := ne_of_unreserved hb
      rw [List.singleton_append, urlDecode_plain hpercent, plainByte, if_neg hplus]
  | escape hd hd' => exact urlDecode_escape hd hd' rest
  | plus => exact urlDecode_plain (by decide) rest

/-- **`url_decode`** reads back what was encoded. -/
theorem urlDecode_of_encodes {s e : Bytes} (h : Encodes s e) : urlDecode e = s := by
  induction h with
  | nil => rfl
  | cons hb _ ih => rw [urlDecode_append hb, ih]

theorem notMem_of_hexDigit {n : Nat} {d : UInt8} (h : HexDigit n d) : d ≠ ampersand ∧ d ≠ equals := by
  have hdigits : ∀ d ∈ ascii "0123456789abcdef", d ≠ ampersand ∧ d ≠ equals := by decide +kernel
  have hcapitals : ∀ d ∈ ascii "0123456789ABCDEF", d ≠ ampersand ∧ d ≠ equals := by decide +kernel
  rcases h with h | h
  · exact hdigits d (List.mem_of_getElem? h.symm)
  · exact hcapitals d (List.mem_of_getElem? h.symm)

/-- The separators are always escaped. -/
theorem ne_of_mem_encodes {s e : Bytes} (h : Encodes s e) {c : UInt8} (hc : c ∈ e) : c ≠ ampersand ∧ c ≠ equals := by
  induction h with
  | nil => exact absurd hc List.not_mem_nil
  | cons hb _ ih =>
      rcases List.mem_append.mp hc with hc | hc
      · cases hb with
        | plain hb =>
            obtain rfl := List.mem_singleton.mp hc
            exact (ne_of_unreserved hb).2.2
        | escape hd hd' =>
            rcases List.mem_cons.mp hc with rfl | hc
            · decide
            rcases List.mem_cons.mp hc with rfl | hc
            · exact notMem_of_hexDigit hd
            · obtain rfl := List.mem_singleton.mp hc
              exact notMem_of_hexDigit hd'
        | plus =>
            obtain rfl := List.mem_singleton.mp hc
            decide
      · exact ih hc

/-! ## Tokens -/

theorem tokensFrom_append {delim : UInt8} {part : Bytes} (h : delim ∉ part) (token rest : Bytes) :
    tokensFrom delim token (part ++ rest) = tokensFrom delim (token ++ part) rest := by
  induction part generalizing token with
  | nil => rw [List.nil_append, List.append_nil]
  | cons b part ih =>
      have hb : b ≠ delim := fun heq => h (heq ▸ List.mem_cons_self)
      rw [List.cons_append, tokensFrom, if_neg hb, ih fun hmem => h (List.mem_cons_of_mem _ hmem), List.append_assoc]
      rfl

/-- What was joined comes apart again. -/
theorem tokens_intercalate {delim : UInt8} {parts : List Bytes} (h : ∀ part ∈ parts, part ≠ [] ∧ delim ∉ part) :
    tokens delim ([delim].intercalate parts) = parts := by
  induction parts with
  | nil => rfl
  | cons part parts ih =>
      obtain ⟨hne, hdelim⟩ := h part List.mem_cons_self
      have hrest := ih fun part hpart => h part (List.mem_cons_of_mem _ hpart)
      cases parts with
      | nil =>
          have hlast := tokensFrom_append hdelim [] []
          rw [List.append_nil, List.nil_append, tokensFrom, if_neg hne] at hlast
          rw [List.intercalate_singleton]
          exact hlast
      | cons next parts =>
          have hjoin : [delim].intercalate (part :: next :: parts) =
              part ++ delim :: [delim].intercalate (next :: parts) := by
            rw [List.intercalate_cons_cons]
            simp
          rw [hjoin, tokens, tokensFrom_append hdelim, List.nil_append, tokensFrom, if_pos rfl]
          exact congrArg (part :: ·) hrest

theorem notMem_of_mem_tokensFrom {delim : UInt8} {token s t : Bytes} (htoken : delim ∉ token)
    (h : t ∈ tokensFrom delim token s) : delim ∉ t := by
  induction s generalizing token with
  | nil =>
      rw [tokensFrom] at h
      split at h
      · exact absurd h List.not_mem_nil
      · exact List.mem_singleton.mp h ▸ htoken
  | cons b s ih =>
      rw [tokensFrom] at h
      split at h
      · rcases List.mem_cons.mp h with rfl | h
        · exact htoken
        · exact ih List.not_mem_nil h
      · rename_i hb
        refine ih ?_ h
        rw [List.mem_append, List.mem_singleton, not_or]
        exact ⟨htoken, Ne.symm hb⟩

theorem notMem_of_mem_tokens {delim : UInt8} {s t : Bytes} (h : t ∈ tokens delim s) : delim ∉ t :=
  notMem_of_mem_tokensFrom List.not_mem_nil h

/-! ## The map -/

theorem addParam_encoded {pair : Bytes × Bytes} {part : Bytes} (h : EncodesPair pair part) (params : Params) :
    addParam params part = Function.update params pair.1 (some pair.2) := by
  obtain ⟨key, value, hkey, hvalue, rfl⟩ := h
  have hequals : equals ∉ key := fun hmem => (ne_of_mem_encodes hkey hmem).2 rfl
  rw [addParam, cut_char value hequals]
  dsimp only
  rw [urlDecode_of_encodes hkey, urlDecode_of_encodes hvalue]

theorem foldl_addParam {pairs : List (Bytes × Bytes)} {parts : List Bytes} (h : List.Forall₂ EncodesPair pairs parts)
    (params : Params) (key : Bytes) :
    parts.foldl addParam params key = (pairs.reverse.lookup key).or (params key) := by
  induction h generalizing params with
  | nil => rfl
  | @cons pair part pairs parts hpair _ ih =>
      rw [List.foldl_cons, ih, addParam_encoded hpair, List.reverse_cons, List.lookup_append, Option.or_assoc]
      refine congrArg _ ?_
      by_cases hkey : key = pair.1
      · rw [hkey, Function.update_self]
        obtain ⟨name, value⟩ := pair
        simp
      · rw [Function.update_of_ne hkey]
        obtain ⟨name, value⟩ := pair
        have hbeq : (key == name) = false := beq_eq_false_iff_ne.mpr hkey
        rw [List.lookup_cons, hbeq]
        rfl

theorem part_of_encodesPair {pair : Bytes × Bytes} {part : Bytes} (h : EncodesPair pair part) :
    part ≠ [] ∧ ampersand ∉ part := by
  obtain ⟨key, value, hkey, hvalue, rfl⟩ := h
  refine ⟨List.append_ne_nil_of_right_ne_nil _ (List.cons_ne_nil _ _), fun hmem => ?_⟩
  rcases List.mem_append.mp hmem with hmem | hmem
  · exact (ne_of_mem_encodes hkey hmem).1 rfl
  · rcases List.mem_cons.mp hmem with heq | hmem
    · exact absurd heq (by decide)
    · exact (ne_of_mem_encodes hvalue hmem).1 rfl

/-- **Forms read back.** Each key has its last value. -/
theorem parseUrlencoded_encoded {pairs : List (Bytes × Bytes)} {parts : List Bytes}
    (h : List.Forall₂ EncodesPair pairs parts) :
    parseUrlencoded ([ampersand].intercalate parts) = fun key => pairs.reverse.lookup key := by
  have hparts : ∀ part ∈ parts, part ≠ [] ∧ ampersand ∉ part := by
    induction h with
    | nil => exact fun _ hpart => absurd hpart List.not_mem_nil
    | cons hpair _ ih => exact List.forall_mem_cons.mpr ⟨part_of_encodesPair hpair, ih⟩
  funext key
  rw [parseUrlencoded, tokens_intercalate hparts, foldl_addParam h, Option.or_none]

/-- A key that is sent twice, an empty one, and values with a space and with separators. -/
theorem parseUrlencoded_encoded_twice :
    parseUrlencoded (ascii "a=1&=%00&a=+%3d%26") =
      fun key => ([([97], [49]), ([], [0]), ([97], [32, 61, 38])] : List (Bytes × Bytes)).reverse.lookup key := by
  have hone : Encodes [49] [49] := .cons (.plain (by unfold Unreserved; decide)) .nil
  have ha : Encodes [97] [97] := .cons (.plain (by unfold Unreserved; decide)) .nil
  have hnul : Encodes [0] [37, 48, 48] :=
    .cons (.escape (.inl (by decide +kernel)) (.inl (by decide +kernel))) .nil
  have hthree : Encodes [32, 61, 38] [43, 37, 51, 100, 37, 50, 54] :=
    .cons .plus (.cons (.escape (.inl (by decide +kernel)) (.inl (by decide +kernel)))
      (.cons (.escape (.inr (by decide +kernel)) (.inl (by decide +kernel))) .nil))
  have hparts : List.Forall₂ EncodesPair [([97], [49]), ([], [0]), ([97], [32, 61, 38])]
      [ascii "a=1", ascii "=%00", ascii "a=+%3d%26"] :=
    .cons ⟨_, _, ha, hone, by decide +kernel⟩ (.cons ⟨_, _, .nil, hnul, by decide +kernel⟩
      (.cons ⟨_, _, ha, hthree, by decide +kernel⟩ .nil))
  have hbody : ascii "a=1&=%00&a=+%3d%26" = [ampersand].intercalate [ascii "a=1", ascii "=%00", ascii "a=+%3d%26"] := by
    decide +kernel
  rw [hbody]
  exact parseUrlencoded_encoded hparts

end NCloud.Protocol.Forms
