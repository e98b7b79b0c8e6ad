import NCloud.Lib.Hex

/-!
# Strings in JSON

How a string is read from a JSON document: from the quote that opens it up to the first
quote that no backslash takes away, with escapes replaced by what they stand for. The
reader is strict. Bytes below 0x20 are refused, escapes are the eight short ones and four
hexadecimal digits, and a code point that is only half of a pair is refused.
-/

namespace JsonText

open Wire

def quote : UInt8 := 34

def backslash : UInt8 := 92

/-- What a short escape stands for. -/
def shortEscape (b : UInt8) : Option UInt8 :=
  if b = 34 ∨ b = 92 ∨ b = 47 then some b
  else if b = 98 then some 8
  else if b = 102 then some 12
  else if b = 110 then some 10
  else if b = 114 then some 13
  else if b = 116 then some 9
  else none

/-- A code point below 2^16 in UTF-8. -/
def utf8 (n : Nat) : Option Bytes :=
  if n < 0x80 then some [UInt8.ofNat n]
  else if n < 0x800 then some [UInt8.ofNat (0xC0 + n / 64), UInt8.ofNat (0x80 + n % 64)]
  else if 0xD800 ≤ n ∧ n < 0xE000 then none
  else some [UInt8.ofNat (0xE0 + n / 4096), UInt8.ofNat (0x80 + n / 64 % 64), UInt8.ofNat (0x80 + n % 64)]

/-- What four hexadecimal digits stand for. -/
def longEscape (ds : Bytes) : Option Bytes := if ∀ d ∈ ds, Hex.IsDigit d then utf8 (Hex.value ds) else none

/-- The rest of a string of which the opening quote has been read, and what follows it. -/
def readBody : Bytes → Option (Bytes × Bytes)
  | [] => none
  | 34 :: rest => some ([], rest)
  | 92 :: 117 :: d₁ :: d₂ :: d₃ :: d₄ :: rest => do
      let point ← longEscape [d₁, d₂, d₃, d₄]
      let (s, rest) ← readBody rest
      return (point ++ s, rest)
  | 92 :: e :: rest => do
      let c ← shortEscape e
      let (s, rest) ← readBody rest
      return (c :: s, rest)
  | b :: rest => do
      if b < 32 ∨ b = 92 then none
      else
        let (s, rest) ← readBody rest
        return (b :: s, rest)

/-- A string. -/
def readString : Bytes → Option (Bytes × Bytes)
  | 34 :: rest => readBody rest
  | _ => none

/-- A quote that no backslash takes away. -/
def HasBareQuote : Bytes → Prop
  | [] => False
  | [b] => b = quote
  | b :: c :: rest => if b = backslash then HasBareQuote rest else b = quote ∨ HasBareQuote (c :: rest)

/-- A backslash at the end that has nothing to take away. -/
def EndsInBackslash : Bytes → Prop
  | [] => False
  | [b] => b = backslash
  | b :: c :: rest => if b = backslash then EndsInBackslash rest else EndsInBackslash (c :: rest)

/-! ## Pieces of a string -/

/-- A piece of the text of a string, and the bytes it stands for. -/
structure Piece (text s : Bytes) : Prop where
  printable : ∀ b ∈ text, 32 ≤ b
  read : ∀ t u rest, readBody t = some (u, rest) → readBody (text ++ t) = some (s ++ u, rest)
  bareQuote : ∀ t, HasBareQuote (text ++ t) ↔ HasBareQuote t
  endsInBackslash : ∀ t, EndsInBackslash (text ++ t) ↔ EndsInBackslash t

theorem hasBareQuote_cons {b : UInt8} (hb : b ≠ backslash) (hq : b ≠ quote) (t : Bytes) :
    HasBareQuote (b :: t) ↔ HasBareQuote t := by
  cases t with
  | nil => exact iff_of_false hq id
  | cons c t =>
      rw [HasBareQuote, if_neg hb]
      exact or_iff_right hq

theorem endsInBackslash_cons {b : UInt8} (hb : b ≠ backslash) (t : Bytes) :
    EndsInBackslash (b :: t) ↔ EndsInBackslash t := by
  cases t with
  | nil => exact iff_of_false hb id
  | cons c t => rw [EndsInBackslash, if_neg hb]

theorem hasBareQuote_backslash (e : UInt8) (t : Bytes) :
    HasBareQuote (backslash :: e :: t) ↔ HasBareQuote t := by
  rw [HasBareQuote, if_pos rfl]

theorem endsInBackslash_backslash (e : UInt8) (t : Bytes) :
    EndsInBackslash (backslash :: e :: t) ↔ EndsInBackslash t := by
  rw [EndsInBackslash, if_pos rfl]

/-- A byte that stands for itself. -/
theorem piece_plain {b : UInt8} (hprint : 32 ≤ b) (hq : b ≠ quote) (hb : b ≠ backslash) : Piece [b] [b] where
  printable c hc := List.mem_singleton.mp hc ▸ hprint
  read t u rest h := by
    have hlow : ¬ (b < 32 ∨ b = 92) := by
      rintro (hlt | heq)
      · exact absurd hlt (UInt8.not_lt.mpr hprint)
      · exact hb heq
    rw [List.singleton_append, readBody.eq_def]
    split
    · rename_i heq
      exact absurd heq (List.cons_ne_nil _ _)
    · rename_i heq
      exact absurd (List.cons.inj heq).1 hq
    · rename_i heq
      exact absurd (List.cons.inj heq).1 hb
    · rename_i heq
      exact absurd (List.cons.inj heq).1 hb
    · rename_i heq
      obtain ⟨rfl, rfl⟩ := List.cons.inj heq
      rw [if_neg hlow, h]
      rfl
  bareQuote t := hasBareQuote_cons hb hq t
  endsInBackslash t := endsInBackslash_cons hb t

/-- A short escape. -/
theorem piece_short {e c : UInt8} (hprint : 32 ≤ e) (hu : e ≠ 117) (h : shortEscape e = some c) :
    Piece [backslash, e] [c] where
  printable d hd := by
    rcases List.mem_cons.mp hd with rfl | hd
    · decide
    · exact List.mem_singleton.mp hd ▸ hprint
  read t u rest ht := by
    show readBody (92 :: e :: t) = _
    rw [readBody.eq_4 e t fun _ _ _ _ _ he => absurd he hu, h, ht]
    rfl
  bareQuote t := hasBareQuote_backslash e t
  endsInBackslash t := endsInBackslash_backslash e t

/-- Four digits. -/
theorem piece_long {ds s : Bytes} (hlen : ds.length = 4)
    (hplain : ∀ d ∈ ds, 32 ≤ d ∧ d ≠ quote ∧ d ≠ backslash) (h : longEscape ds = some s) :
    Piece (backslash :: 117 :: ds) s := by
  obtain ⟨d₁, d₂, d₃, d₄, rfl⟩ : ∃ d₁ d₂ d₃ d₄, ds = [d₁, d₂, d₃, d₄] := by
    match ds, hlen with
    | [d₁, d₂, d₃, d₄], _ => exact ⟨d₁, d₂, d₃, d₄, rfl⟩
  simp only [List.forall_mem_cons] at hplain
  obtain ⟨h₁, h₂, h₃, h₄, -⟩ := hplain
  refine ⟨?_, fun t u rest ht => ?_, fun t => ?_, fun t => ?_⟩
  · simp only [List.forall_mem_cons]
    exact ⟨by decide, by decide, h₁.1, h₂.1, h₃.1, h₄.1, nofun⟩
  · show readBody (92 :: 117 :: d₁ :: d₂ :: d₃ :: d₄ :: t) = _
    rw [readBody, h, ht]
    rfl
  · exact (hasBareQuote_backslash ..).trans ((hasBareQuote_cons h₁.2.2 h₁.2.1 _).trans
      ((hasBareQuote_cons h₂.2.2 h₂.2.1 _).trans ((hasBareQuote_cons h₃.2.2 h₃.2.1 _).trans
        (hasBareQuote_cons h₄.2.2 h₄.2.1 _))))
  · exact (endsInBackslash_backslash ..).trans ((endsInBackslash_cons h₁.2.2 _).trans
      ((endsInBackslash_cons h₂.2.2 _).trans ((endsInBackslash_cons h₃.2.2 _).trans
        (endsInBackslash_cons h₄.2.2 _))))

theorem piece_nil : Piece [] [] :=
  ⟨nofun, fun _ _ _ h => h, fun _ => Iff.rfl, fun _ => Iff.rfl⟩

theorem Piece.append {text text' s s' : Bytes} (h : Piece text s) (h' : Piece text' s') :
    Piece (text ++ text') (s ++ s') where
  printable b hb := (List.mem_append.mp hb).elim (h.printable b) (h'.printable b)
  read t u rest ht := by
    rw [List.append_assoc, List.append_assoc]
    exact h.read _ _ _ (h'.read t u rest ht)
  bareQuote t := by rw [List.append_assoc, h.bareQuote, h'.bareQuote]
  endsInBackslash t := by rw [List.append_assoc, h.endsInBackslash, h'.endsInBackslash]

/-- An encoder that writes one piece for each byte. -/
theorem piece_flatMap {escape : UInt8 → Bytes} (h : ∀ b, Piece (escape b) [b]) (s : Bytes) :
    Piece (s.flatMap escape) s := by
  induction s with
  | nil => exact piece_nil
  | cons b s ih => exact (h b).append ih

section Whole

variable {text s : Bytes}

/-- **What is between two quotes is the string**, whatever follows. -/
theorem Piece.readBody_quote (h : Piece text s) (rest : Bytes) :
    readBody (text ++ quote :: rest) = some (s, rest) := by
  have hall := h.read (quote :: rest) [] rest rfl
  rwa [List.append_nil] at hall

theorem Piece.not_hasBareQuote (h : Piece text s) : ¬ HasBareQuote text := by
  have hnil := h.bareQuote []
  rw [List.append_nil] at hnil
  exact hnil.mp

theorem Piece.not_endsInBackslash (h : Piece text s) : ¬ EndsInBackslash text := by
  have hnil := h.endsInBackslash []
  rw [List.append_nil] at hnil
  exact hnil.mp

/-- Two texts before a quote that are the same hold the same string. -/
theorem Piece.inj {text' s' rest rest' : Bytes} (h : Piece text s) (h' : Piece text' s')
    (heq : text ++ quote :: rest = text' ++ quote :: rest') : s = s' ∧ rest = rest' := by
  have hread := h.readBody_quote rest
  rw [heq, h'.readBody_quote] at hread
  obtain ⟨hs, hrest⟩ := Prod.mk.inj (Option.some.inj hread)
  exact ⟨hs.symm, hrest.symm⟩

end Whole

end JsonText
