import NCloud.Lib.JsonText

/-!
# Strings in answers

Every program writes JSON by putting texts one behind the other, and each has an encoder of
its own for the strings in them: `json_str` of the front end, `kv_json_str` of the store and
`json_str_coord` of the coordinator, which write the quotes too, and `esc_json_mail` and
`esc_json` of the SMTP server, which leave them to the caller.
-/

namespace NCloud.Protocol

open Wire JsonText

/-- What an encoder appends for one byte. -/
def escapeByte (hex : Bytes) (c : UInt8) : Bytes :=
  if c = 34 then ascii "\\\""
  else if c = 92 then ascii "\\\\"
  else if c = 10 then ascii "\\n"
  else if c = 13 then ascii "\\r"
  else if c = 9 then ascii "\\t"
  else if c < 0x20 then ascii "\\u00" ++ [hex.getD (c >>> 4).toNat 0] ++ [hex.getD (c &&& 0x0F).toNat 0]
  else [c]

/-- The loop of an encoder, on what has been written before. -/
def escapeLoop (hex out s : Bytes) : Bytes := s.foldl (fun out c => out ++ escapeByte hex c) out

/-- The table each of them has. -/
def hexTable : Bytes := ascii "0123456789abcdef"

/-- `json_str`. -/
def jsonStr (s : Bytes) : Bytes := escapeLoop hexTable (ascii "\"") s ++ ascii "\""

/-- `kv_json_str`. -/
def kvJsonStr (s : Bytes) : Bytes := escapeLoop hexTable (ascii "\"") s ++ ascii "\""

/-- `json_str_coord`. -/
def jsonStrCoord (s : Bytes) : Bytes := escapeLoop hexTable (ascii "\"") s ++ ascii "\""

/-- `esc_json_mail`. -/
def escJsonMail (s : Bytes) : Bytes := escapeLoop hexTable [] s

/-- `esc_json`. -/
def escJson (s : Bytes) : Bytes := escapeLoop hexTable [] s

theorem escapeLoop_eq (hex out s : Bytes) : escapeLoop hex out s = out ++ s.flatMap (escapeByte hex) := by
  induction s generalizing out with
  | nil => exact (List.append_nil out).symm
  | cons c s ih => exact (ih _).trans (by rw [List.flatMap_cons, List.append_assoc])

/-- Two digits of the table stand for the byte they are taken from. -/
theorem longEscape_hexTable {c : UInt8} (h : c < 0x20) :
    longEscape (ascii "00" ++ [hexTable.getD (c >>> 4).toNat 0] ++ [hexTable.getD (c &&& 0x0F).toNat 0]) = some [c] ∧
      ∀ d ∈ ascii "00" ++ [hexTable.getD (c >>> 4).toNat 0] ++ [hexTable.getD (c &&& 0x0F).toNat 0],
        32 ≤ d ∧ d ≠ quote ∧ d ≠ backslash := by
  have hall : ∀ n < 32,
      longEscape (ascii "00" ++ [hexTable.getD (UInt8.ofNat n >>> 4).toNat 0] ++
          [hexTable.getD (UInt8.ofNat n &&& 0x0F).toNat 0]) = some [UInt8.ofNat n] ∧
        ∀ d ∈ ascii "00" ++ [hexTable.getD (UInt8.ofNat n >>> 4).toNat 0] ++
          [hexTable.getD (UInt8.ofNat n &&& 0x0F).toNat 0], 32 ≤ d ∧ d ≠ quote ∧ d ≠ backslash := by
    decide +kernel
  have hc := hall c.toNat (UInt8.lt_iff_toNat_lt.mp h)
  rwa [UInt8.ofNat_toNat] at hc

/-- What is written for a byte stands for it. -/
theorem piece_escapeByte (c : UInt8) : Piece (escapeByte hexTable c) [c] := by
  rw [escapeByte]
  split
  · rename_i h
    exact h ▸ piece_short (by decide) (by decide) rfl
  split
  · rename_i h
    exact h ▸ piece_short (by decide) (by decide) rfl
  split
  · rename_i h
    exact h ▸ piece_short (by decide) (by decide) rfl
  split
  · rename_i h
    exact h ▸ piece_short (by decide) (by decide) rfl
  split
  · rename_i h
    exact h ▸ piece_short (by decide) (by decide) rfl
  split
  · rename_i h
    obtain ⟨hlong, hplain⟩ := longEscape_hexTable h
    exact piece_long rfl hplain hlong
  · rename_i hquote hback _ _ _ hlow
    exact piece_plain (UInt8.not_lt.mp hlow) hquote hback

theorem piece_escJsonMail (s : Bytes) : Piece (escJsonMail s) s := by
  rw [escJsonMail, escapeLoop_eq]
  exact piece_flatMap piece_escapeByte s

/--
**One encoder.**

The five write the same text, three of them between quotes. Nothing in it ends the string
or reaches over its end, and read as a string, whatever follows, it is the string.
-/
theorem readString_jsonStr (s : Bytes) :
    kvJsonStr s = jsonStr s ∧ jsonStrCoord s = jsonStr s ∧ jsonStr s = quote :: escJsonMail s ++ [quote] ∧
      escJson s = escJsonMail s ∧
      ¬ HasBareQuote (escJsonMail s) ∧ (∀ b ∈ escJsonMail s, 0x20 ≤ b) ∧ ¬ EndsInBackslash (escJsonMail s) ∧
      ∀ rest, readString (jsonStr s ++ rest) = some (s, rest) := by
  have hpiece := piece_escJsonMail s
  have hjson : jsonStr s = quote :: escJsonMail s ++ [quote] := by
    rw [jsonStr, escapeLoop_eq, escJsonMail, escapeLoop_eq]
    rfl
  refine ⟨rfl, rfl, hjson, rfl, hpiece.not_hasBareQuote, hpiece.printable, hpiece.not_endsInBackslash, fun rest => ?_⟩
  have hrest : jsonStr s ++ rest = quote :: (escJsonMail s ++ quote :: rest) := by
    rw [hjson, List.append_assoc]
    rfl
  rw [hrest]
  exact hpiece.readBody_quote rest

end NCloud.Protocol
