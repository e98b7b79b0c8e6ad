import NCloud.Lib.Hex
import NCloud.Lib.Search
import NCloud.Lib.Stream
import Mathlib.Data.List.DropRight

/-!
# Chunked bodies

`send_http_chunked_body` and `read_chunked_body` of `http_reader.h`. What the one writes the
other reads back, and it stops where the body does.

The reader takes more than chunked bodies: a size may have blanks around it and `0x` in front
of it, a carriage return may stand within a line, and the line after the data of a chunk is
not looked at. `frameLines` are the lines it frames a stream by, and the stream begins with a
chunked body just if they are all as they should be (`Mark.Regular`).
-/

namespace NCloud.Protocol.Chunked

open Wire

/-! ## Reading -/

/-- What `http_read_line` allows for. -/
def maxLine : Nat := 8192

/-- `kMaxRequestBodyBytes`. -/
def maxRequestBodyBytes : Nat := 1023 * 1024 * 1024 + 1 * 1024 * 1024

/-- `;`. -/
def semicolon : UInt8 := 59

/-- `http_read_line`. -/
def httpReadLine : Reader Bytes := readLine maxLine

/-- `http_trim_copy`. -/
def httpTrimCopy (s : Bytes) : Bytes :=
  (s.dropWhile (fun b => decide (Decimal.IsBlank b))).rdropWhile (fun b => decide (Decimal.IsBlank b))

/-- `http_parse_size_t` with base 16. -/
def httpParseSize (raw : Bytes) : Option Nat :=
  let s := httpTrimCopy raw
  if s = [] ∨ s.head? = some 43 ∨ s.head? = some 45 then none
  else
    match Hex.stoul s with
    | some (parsed, pos) => if pos = s.length then some parsed else none
    | none => none

/-- The size in a size line, which may have extensions. -/
def chunkSize (sizeLine : Bytes) : Option Nat := httpParseSize (upTo [semicolon] sizeLine)

/-- The loop over trailers, for at most `fuel` lines; what is left after the empty one. -/
def skipTrailers : (fuel : Nat) → Bytes → Option Bytes
  | 0, _ => none
  | fuel + 1, input => do
      let (trailer, rest) ← httpReadLine input
      if trailer = [] then some rest else skipTrailers fuel rest

/-- The loop over chunks, for at most `fuel` of them, with the body so far. -/
def readChunks : (fuel : Nat) → Bytes → Bytes → Option (Bytes × Bytes)
  | 0, _, _ => none
  | fuel + 1, body, input => do
      let (sizeLine, rest) ← httpReadLine input
      let size ← chunkSize sizeLine
      if size = 0 then
        let rest ← skipTrailers (rest.length + 1) rest
        return (body, rest)
      else if size > maxRequestBodyBytes ∨ body.length > maxRequestBodyBytes - size then none
      else
        let (chunk, rest) ← Reader.take size rest
        let (_, rest) ← httpReadLine rest
        readChunks fuel (body ++ chunk) rest

/-- `read_chunked_body`. Every line it reads takes a byte at least. -/
def readChunkedBody (input : Bytes) : Option (Bytes × Bytes) := readChunks (input.length + 1) [] input

/-! ## Writing -/

/-- `kChunkSize`. -/
def maxChunk : Nat := 16 * 1024

/-- `http_chunk_prefix`. -/
def httpChunkPrefix (n : Nat) : Bytes := Hex.text n

/-- What is written after the last chunk. -/
def lastChunk : Bytes := 48 :: (crlf ++ crlf)

/-- The loop of the writer, for at most `fuel` chunks. -/
def chunksFrom : (fuel : Nat) → Bytes → Bytes
  | 0, _ => lastChunk
  | fuel + 1, body =>
      if body = [] then lastChunk
      else
        let take := min maxChunk body.length
        httpChunkPrefix take ++ (crlf ++ (body.take take ++ (crlf ++ chunksFrom fuel (body.drop take))))

/-- `send_http_chunked_body`, as bytes. Every chunk takes a byte at least. -/
def sendHttpChunkedBody (body : Bytes) : Bytes := chunksFrom body.length body

/-! ## Sizes -/

theorem not_isBlank_of_isDigit {b : UInt8} (h : Hex.IsDigit b) : ¬ Decimal.IsBlank b := by
  intro hblank
  have hle : ∀ {x y : UInt8}, x ≤ y → x.toNat ≤ y.toNat := fun h => UInt8.le_iff_toNat_le.mp h
  have hlow : 48 ≤ b.toNat := by
    rcases h with ⟨h, -⟩ | ⟨h, -⟩ | ⟨h, -⟩
    · exact hle h
    · exact Nat.le_trans (by decide) (hle h)
    · exact Nat.le_trans (by decide) (hle h)
  rcases hblank with rfl | ⟨-, hhigh⟩
  · exact absurd hlow (by decide)
  · have hsmall : b.toNat ≤ 13 := hle hhigh
    omega

theorem httpTrimCopy_of_isDigit {s : Bytes} (h : ∀ b ∈ s, Hex.IsDigit b) : httpTrimCopy s = s := by
  have hblank : ∀ b ∈ s, ¬ decide (Decimal.IsBlank b) = true := by
    intro b hb
    rw [decide_eq_true_eq]
    exact not_isBlank_of_isDigit (h b hb)
  have hfront : s.dropWhile (fun b => decide (Decimal.IsBlank b)) = s := by
    cases s with
    | nil => rfl
    | cons b s => exact List.dropWhile_cons_of_neg (hblank b List.mem_cons_self)
  rw [httpTrimCopy, hfront, List.rdropWhile_eq_self_iff]
  exact fun hne => hblank _ (List.getLast_mem hne)

theorem httpParseSize_of_isDigit {s : Bytes} (hne : s ≠ []) (h : ∀ b ∈ s, Hex.IsDigit b) :
    httpParseSize s = if Hex.value s < 2 ^ 64 then some (Hex.value s) else none := by
  have hsign : ¬ (s = [] ∨ s.head? = some 43 ∨ s.head? = some 45) := by
    rintro (hnil | hplus | hminus)
    · exact hne hnil
    · exact absurd (h 43 (List.mem_of_mem_head? hplus)) (by decide)
    · exact absurd (h 45 (List.mem_of_mem_head? hminus)) (by decide)
  rw [httpParseSize, httpTrimCopy_of_isDigit h, if_neg hsign]
  by_cases hlt : Hex.value s < 2 ^ 64
  · rw [Hex.stoul_of_isDigit hne h hlt, if_pos hlt]
    exact if_pos rfl
  · rw [Hex.stoul, Hex.front_of_isDigit h, if_neg hne, if_neg hlt, if_neg hlt]

/-- The size of a line that begins with digits. -/
theorem chunkSize_eq {ds ext : Bytes} (hne : ds ≠ []) (h : ∀ b ∈ ds, Hex.IsDigit b)
    (hext : ext = [] ∨ ext.head? = some semicolon) :
    upTo [semicolon] (ds ++ ext) = ds ∧
      chunkSize (ds ++ ext) = if Hex.value ds < 2 ^ 64 then some (Hex.value ds) else none := by
  have hsemi : semicolon ∉ ds := fun hmem => absurd (h _ hmem) (by decide)
  have hcut : upTo [semicolon] (ds ++ ext) = ds := by
    rcases hext with rfl | hext
    · rw [List.append_nil]
      exact upTo_of_not_infix (List.cons_ne_nil _ _) (not_infix_of_notMem hsemi)
    · obtain ⟨rest, rfl⟩ : ∃ rest, ext = semicolon :: rest := by
        cases ext with
        | nil => exact absurd hext nofun
        | cons b rest =>
            obtain rfl := Option.some.inj hext
            exact ⟨rest, rfl⟩
      exact upTo_char rest hsemi
  refine ⟨hcut, ?_⟩
  rw [chunkSize, hcut, httpParseSize_of_isDigit hne h]

/-! ## Fuel -/

/-- More turns do no harm. -/
theorem readChunks_mono {fuel : Nat} {body input : Bytes} {r : Bytes × Bytes} (h : readChunks fuel body input = some r)
    {more : Nat} (hle : fuel ≤ more) : readChunks more body input = some r := by
  induction fuel generalizing body input more with
  | zero => exact absurd h nofun
  | succ fuel ih =>
      obtain ⟨more, rfl⟩ : ∃ m, more = m + 1 := ⟨more - 1, by omega⟩
      rw [readChunks] at h ⊢
      obtain ⟨⟨sizeLine, rest⟩, hline, h⟩ := Option.bind_eq_some_iff.mp h
      rw [hline]
      dsimp only [Option.bind_eq_bind, Option.bind_some] at h ⊢
      obtain ⟨size, hsize, h⟩ := Option.bind_eq_some_iff.mp h
      rw [hsize]
      dsimp only [Option.bind_some] at h ⊢
      split
      · rename_i hzero
        rwa [if_pos hzero] at h
      · rename_i hzero
        rw [if_neg hzero] at h
        split
        · rename_i hlong
          rwa [if_pos hlong] at h
        · rename_i hfits
          rw [if_neg hfits] at h
          obtain ⟨⟨chunk, rest⟩, htake, h⟩ := Option.bind_eq_some_iff.mp h
          rw [htake]
          dsimp only [Option.bind_some] at h ⊢
          obtain ⟨⟨line, rest⟩, hafter, h⟩ := Option.bind_eq_some_iff.mp h
          rw [hafter]
          dsimp only [Option.bind_some] at h ⊢
          exact ih h (by omega)

/-! ## The round trip -/

theorem httpReadLine_crlf {line : Bytes} (hlf : lf ∉ line) (hlen : line.length < maxLine) (rest : Bytes) :
    httpReadLine (line ++ (crlf ++ rest)) = some (line, rest) := by
  rw [← List.append_assoc]
  exact readLine_crlf hlf hlen rest

/-- The last chunk ends the body. -/
theorem readChunks_lastChunk (fuel : Nat) (body rest : Bytes) :
    readChunks (fuel + 1) body (lastChunk ++ rest) = some (body, rest) := by
  have hline : httpReadLine (lastChunk ++ rest) = some ([48], crlf ++ rest) :=
    httpReadLine_crlf (show lf ∉ [48] by decide) (by decide) (crlf ++ rest)
  have hsize : chunkSize [48] = some 0 := by decide
  have hend : skipTrailers ((crlf ++ rest).length + 1) (crlf ++ rest) = some rest := by
    rw [skipTrailers]
    have hempty : httpReadLine (crlf ++ rest) = some ([], rest) :=
      httpReadLine_crlf (show lf ∉ [] by decide) (by decide) rest
    rw [hempty]
    rfl
  rw [readChunks, hline]
  dsimp only [Option.bind_eq_bind, Option.bind_some]
  rw [hsize]
  dsimp only [Option.bind_some]
  rw [if_pos rfl, hend]
  rfl

/-- One chunk, as it is written. -/
theorem readChunks_chunk {fuel : Nat} {body chunk : Bytes} (hne : chunk ≠ []) (hsmall : chunk.length ≤ maxChunk)
    (hfits : body.length + chunk.length ≤ maxRequestBodyBytes) (rest : Bytes) :
    readChunks (fuel + 1) body (httpChunkPrefix chunk.length ++ (crlf ++ (chunk ++ (crlf ++ rest)))) =
      readChunks fuel (body ++ chunk) rest := by
  have hpos := List.length_pos_iff.mpr hne
  unfold maxChunk at hsmall
  have hdigits : ∀ b ∈ httpChunkPrefix chunk.length, Hex.IsDigit b := fun b hb => Hex.isDigit_of_mem_text hb
  have hlf : lf ∉ httpChunkPrefix chunk.length := fun hmem => absurd (hdigits _ hmem) (by decide)
  have hshort : (httpChunkPrefix chunk.length).length < maxLine := by
    have hle : (httpChunkPrefix chunk.length).length ≤ 4 :=
      Hex.length_digits_le (by decide) (Nat.lt_of_le_of_lt hsmall (by decide))
    unfold maxLine
    omega
  have hline := httpReadLine_crlf hlf hshort (chunk ++ (crlf ++ rest))
  have hvalue : Hex.value (httpChunkPrefix chunk.length) = chunk.length := Hex.value_digits (Nat.lt_succ_self _)
  have hsize : chunkSize (httpChunkPrefix chunk.length) = some chunk.length := by
    have hparse := (chunkSize_eq (Hex.text_ne_nil chunk.length) hdigits (.inl rfl)).2
    rw [List.append_nil] at hparse
    rw [show httpChunkPrefix chunk.length = Hex.text chunk.length from rfl] at hvalue ⊢
    rw [hparse, hvalue, if_pos (by omega)]
  have hafter : httpReadLine (crlf ++ rest) = some ([], rest) :=
    httpReadLine_crlf (show lf ∉ [] by decide) (by decide) rest
  rw [readChunks, hline]
  dsimp only [Option.bind_eq_bind, Option.bind_some]
  rw [hsize]
  dsimp only [Option.bind_some]
  rw [if_neg (by omega), if_neg (by omega), Reader.take_append]
  dsimp only [Option.bind_some]
  rw [hafter]
  rfl

/-- What the loop has written is read back. -/
theorem readChunks_chunksFrom (fuel : Nat) {acc body : Bytes} (hfuel : body.length ≤ fuel)
    (hfits : acc.length + body.length ≤ maxRequestBodyBytes) (rest : Bytes) :
    readChunks (fuel + 1) acc (chunksFrom fuel body ++ rest) = some (acc ++ body, rest) := by
  induction fuel generalizing acc body with
  | zero =>
      obtain rfl := List.length_eq_zero_iff.mp (Nat.le_zero.mp hfuel)
      rw [chunksFrom, readChunks_lastChunk, List.append_nil]
  | succ fuel ih =>
      rw [chunksFrom]
      by_cases hnil : body = []
      · rw [if_pos hnil, readChunks_lastChunk, hnil, List.append_nil]
      · have hpos := List.length_pos_iff.mpr hnil
        rw [if_neg hnil]
        generalize htake : min maxChunk body.length = take
        have hmax : 0 < maxChunk := by decide
        have hlen : (body.take take).length = take := by
          rw [List.length_take]
          omega
        have hdrop : (body.drop take).length = body.length - take := List.length_drop
        have hne : body.take take ≠ [] := by
          refine List.length_pos_iff.mp ?_
          omega
        have hchunk := @readChunks_chunk (fuel + 1) acc (body.take take) hne (by omega) (by omega)
          (chunksFrom fuel (body.drop take) ++ rest)
        rw [hlen] at hchunk
        have hrest := @ih (acc ++ body.take take) (body.drop take) (by omega)
          (by rw [List.length_append]; omega)
        simp only [List.append_assoc] at hchunk hrest ⊢
        rw [hchunk, hrest, List.take_append_drop]

theorem le_length_chunksFrom {fuel : Nat} {body : Bytes} (hfuel : body.length ≤ fuel) :
    body.length ≤ (chunksFrom fuel body).length := by
  induction fuel generalizing body with
  | zero =>
      obtain rfl := List.length_eq_zero_iff.mp (Nat.le_zero.mp hfuel)
      exact Nat.zero_le _
  | succ fuel ih =>
      rw [chunksFrom]
      by_cases hnil : body = []
      · rw [hnil]
        exact Nat.zero_le _
      · have hpos := List.length_pos_iff.mpr hnil
        have hmax : 0 < maxChunk := by decide
        have hdrop : (body.drop (min maxChunk body.length)).length = body.length - min maxChunk body.length :=
          List.length_drop
        have htake : (body.take (min maxChunk body.length)).length = min maxChunk body.length := by
          rw [List.length_take]
          omega
        have hrest := @ih (body.drop (min maxChunk body.length)) (by omega)
        rw [if_neg hnil]
        simp only [List.length_append]
        omega

/-- **The round trip.** What was written is read back, and nothing of what follows is. -/
theorem readChunkedBody_sendHttpChunkedBody {body : Bytes} (h : body.length ≤ maxRequestBodyBytes) (rest : Bytes) :
    readChunkedBody (sendHttpChunkedBody body ++ rest) = some (body, rest) := by
  have hfits : ([] : Bytes).length + body.length ≤ maxRequestBodyBytes := by
    rw [List.length_nil]
    omega
  have hread := readChunks_chunksFrom body.length (Nat.le_refl _) hfits rest
  refine readChunks_mono hread (Nat.succ_le_succ ?_)
  rw [List.length_append]
  exact Nat.le_trans (le_length_chunksFrom (Nat.le_refl _)) (Nat.le_add_right _ _)

/-- A body of line ends, with another request behind it. -/
theorem readChunkedBody_sendHttpChunkedBody_crlf :
    readChunkedBody (sendHttpChunkedBody (crlf ++ crlf) ++ ascii "GET") = some (crlf ++ crlf, ascii "GET") :=
  readChunkedBody_sendHttpChunkedBody (by decide) (ascii "GET")

/-! ## Chunked bodies -/

/-- The end of a line. -/
inductive LineEnd : Bytes → Prop where
  | lf : LineEnd [lf]
  | crlf : LineEnd crlf

/-- The text of a line. -/
def IsText (s : Bytes) : Prop := cr ∉ s ∧ lf ∉ s

/-- A size, and extensions behind a semicolon. -/
def IsSize (n : Nat) (s : Bytes) : Prop :=
  ∃ ds ext, s = ds ++ ext ∧ ds ≠ [] ∧ (∀ b ∈ ds, Hex.IsDigit b) ∧ Hex.value ds = n ∧
    (ext = [] ∨ ext.head? = some semicolon) ∧ IsText ext

/-- Lines up to an empty one. -/
inductive Trailers : Bytes → Prop where
  | done {e : Bytes} : LineEnd e → Trailers e
  | line {s e t : Bytes} : IsText s → s ≠ [] → LineEnd e → Trailers t → Trailers (s ++ (e ++ t))

/-- A chunked body, and what it is the coding of. -/
inductive ChunkedBody : Bytes → Bytes → Prop where
  | last {s e t : Bytes} : IsSize 0 s → LineEnd e → Trailers t → ChunkedBody (s ++ (e ++ t)) []
  | chunk {s e data e' t body : Bytes} : IsSize data.length s → data ≠ [] → LineEnd e → LineEnd e' →
      ChunkedBody t body → ChunkedBody (s ++ (e ++ (data ++ (e' ++ t)))) (data ++ body)

/-- A line of a stream that is framed as a chunked body. -/
inductive Mark where
  | size (line : Bytes)
  /-- What stands between the data of a chunk and the end of the line. -/
  | after (line : Bytes)
  | trailer (line : Bytes)
  deriving DecidableEq

/-- What a line should be like: nothing but digits in front of a semicolon, nothing after the
data, and no carriage return within. -/
def Mark.Regular : Mark → Prop
  | .size line => upTo [semicolon] line ≠ [] ∧ (∀ b ∈ upTo [semicolon] line, Hex.IsDigit b) ∧ cr ∉ line
  | .after line => line = []
  | .trailer line => cr ∉ line

instance : DecidablePred Mark.Regular
  | .size line => inferInstanceAs
      (Decidable (upTo [semicolon] line ≠ [] ∧ (∀ b ∈ upTo [semicolon] line, Hex.IsDigit b) ∧ cr ∉ line))
  | .after line => inferInstanceAs (Decidable (line = []))
  | .trailer line => inferInstanceAs (Decidable (cr ∉ line))

/-- The lines of the trailers. -/
def trailerMarks : (fuel : Nat) → Bytes → List Mark
  | 0, _ => []
  | fuel + 1, input =>
      match httpReadLine input with
      | none => []
      | some (line, rest) => .trailer line :: if line = [] then [] else trailerMarks fuel rest

/-- The lines that a stream is framed by, for at most `fuel` chunks. -/
def marks : (fuel : Nat) → Bytes → List Mark
  | 0, _ => []
  | fuel + 1, input =>
      match httpReadLine input with
      | none => []
      | some (line, rest) =>
          .size line ::
            match chunkSize line with
            | none => []
            | some 0 => trailerMarks (rest.length + 1) rest
            | some (n + 1) =>
                match httpReadLine (rest.drop (n + 1)) with
                | none => []
                | some (line, rest) => .after line :: marks fuel rest

/-- All of them. -/
def frameLines (input : Bytes) : List Mark := marks (input.length + 1) input

/-- What was read as a line. -/
theorem httpReadLine_inv {input line rest : Bytes} (h : httpReadLine input = some (line, rest)) (hcr : cr ∉ line) :
    IsText line ∧ ∃ e, LineEnd e ∧ input = line ++ (e ++ rest) := by
  have hfrom : ∀ (input acc : Bytes), readLineFrom maxLine acc input = some (line, rest) →
      ∃ raw, lf ∉ raw ∧ input = raw ++ lf :: rest ∧ line = dropCr (acc ++ raw) := by
    intro input
    induction input with
    | nil => exact fun acc h => absurd h (by simp [readLineFrom])
    | cons b input ih =>
        intro acc h
        rw [readLineFrom] at h
        split at h
        · rename_i hb
          obtain ⟨rfl, rfl⟩ := Prod.mk.inj (Option.some.inj h)
          exact ⟨[], List.not_mem_nil, by rw [hb]; rfl, by rw [List.append_nil]⟩
        · rename_i hb
          split at h
          · exact absurd h (by simp)
          · obtain ⟨raw, hlf, rfl, hline⟩ := ih _ h
            refine ⟨b :: raw, ?_, rfl, by rw [hline, List.append_assoc]; rfl⟩
            rw [List.mem_cons]
            rintro (heq | hmem)
            · exact hb heq.symm
            · exact hlf hmem
  obtain ⟨raw, hlf, rfl, hline⟩ := hfrom input [] h
  rw [List.nil_append, dropCr] at hline
  split at hline
  · rename_i hlast
    have hne : raw ≠ [] := by
      rintro rfl
      exact absurd hlast (by simp)
    have hraw : raw = line ++ [cr] := by
      have hdrop := List.dropLast_append_getLast hne
      rw [List.getLast?_eq_some_getLast hne] at hlast
      rw [Option.some.inj hlast, ← hline] at hdrop
      exact hdrop.symm
    refine ⟨⟨hcr, fun hmem => hlf (hraw ▸ List.mem_append_left _ hmem)⟩, crlf, .crlf, ?_⟩
    rw [hraw, List.append_assoc]
    rfl
  · subst hline
    exact ⟨⟨hcr, hlf⟩, [lf], .lf, rfl⟩

/-- A line of text is read as it is, if it is read at all. -/
theorem httpReadLine_text {s e rest : Bytes} (hs : IsText s) (he : LineEnd e) {r : Bytes × Bytes}
    (h : httpReadLine (s ++ (e ++ rest)) = some r) : r = (s, rest) := by
  obtain ⟨hcr, hlf⟩ := hs
  cases he with
  | lf =>
      by_cases hlen : s.length ≤ maxLine
      · have hline : httpReadLine (s ++ ([lf] ++ rest)) = some (dropCr s, rest) := readLine_append hlf hlen rest
        rw [dropCr_of_notMem hcr] at hline
        exact Option.some.inj (h.symm.trans hline)
      · have hnone : httpReadLine (s ++ ([lf] ++ rest)) = none := readLine_eq_none hlf (by omega) _
        exact absurd (h.symm.trans hnone) nofun
  | crlf =>
      by_cases hlen : s.length < maxLine
      · exact Option.some.inj (h.symm.trans (httpReadLine_crlf hlf hlen rest))
      · have hbody : lf ∉ s ++ [cr] := by
          rw [List.mem_append, List.mem_singleton]
          rintro (hmem | heq)
          · exact hlf hmem
          · exact absurd heq (by decide)
        have hnone : httpReadLine (s ++ [cr] ++ lf :: rest) = none :=
          readLine_eq_none hbody (by rw [List.length_append, List.length_singleton]; omega) _
        rw [List.append_assoc] at hnone
        exact absurd (h.symm.trans hnone) nofun

theorem upTo_split (c : UInt8) (s : Bytes) : ∃ ext, s = upTo [c] s ++ ext ∧ (ext = [] ∨ ext.head? = some c) := by
  rw [upTo]
  cases hcut : cut [c] s with
  | none => exact ⟨[], (List.append_nil s).symm, .inl rfl⟩
  | some parts =>
      obtain ⟨before, after⟩ := parts
      refine ⟨c :: after, ?_, .inr rfl⟩
      exact eq_of_cut hcut

/-- The size of a regular line. -/
theorem isSize_of_regular {line : Bytes} {n : Nat} (hregular : (Mark.size line).Regular) (hlf : lf ∉ line)
    (h : chunkSize line = some n) : IsSize n line := by
  obtain ⟨hne, hdigits, hcr⟩ := hregular
  obtain ⟨ext, hsplit, hext⟩ := upTo_split semicolon line
  rw [chunkSize, httpParseSize_of_isDigit hne hdigits] at h
  have hmem : ∀ b ∈ ext, b ∈ line := by
    intro b hb
    rw [hsplit]
    exact List.mem_append_right _ hb
  refine ⟨_, ext, hsplit, hne, hdigits, ?_, hext, fun hb => hcr (hmem _ hb), fun hb => hlf (hmem _ hb)⟩
  split at h
  · exact Option.some.inj h
  · exact absurd h nofun

theorem IsSize.isText {n : Nat} {line : Bytes} (h : IsSize n line) : IsText line := by
  obtain ⟨ds, ext, rfl, -, hdigits, -, -, htext⟩ := h
  have hds : ∀ b ∈ ds, b ≠ cr ∧ b ≠ lf := by
    intro b hb
    refine ⟨?_, ?_⟩
    · rintro rfl
      exact absurd (hdigits _ hb) (by decide)
    · rintro rfl
      exact absurd (hdigits _ hb) (by decide)
  refine ⟨fun hmem => ?_, fun hmem => ?_⟩
  · rcases List.mem_append.mp hmem with hmem | hmem
    · exact (hds _ hmem).1 rfl
    · exact htext.1 hmem
  · rcases List.mem_append.mp hmem with hmem | hmem
    · exact (hds _ hmem).2 rfl
    · exact htext.2 hmem

theorem regular_of_isSize {line : Bytes} {n m : Nat} (hsize : IsSize n line) (h : chunkSize line = some m) :
    (Mark.size line).Regular ∧ m = n := by
  have hcr := hsize.isText.1
  obtain ⟨ds, ext, rfl, hne, hdigits, rfl, hext, -⟩ := hsize
  obtain ⟨hcut, hparse⟩ := chunkSize_eq hne hdigits hext
  refine ⟨⟨by rwa [hcut], by rwa [hcut], hcr⟩, ?_⟩
  rw [hparse] at h
  split at h
  · exact (Option.some.inj h).symm
  · exact absurd h nofun

/-! ## Trailers -/

theorem trailers_of_regular {fuel : Nat} {input rest : Bytes} (h : skipTrailers fuel input = some rest)
    (hregular : ∀ mark ∈ trailerMarks fuel input, mark.Regular) : ∃ t, Trailers t ∧ input = t ++ rest := by
  induction fuel generalizing input with
  | zero => exact absurd h nofun
  | succ fuel ih =>
      rw [skipTrailers] at h
      obtain ⟨⟨trailer, rest'⟩, hline, hgo⟩ := Option.bind_eq_some_iff.mp h
      rw [trailerMarks, hline] at hregular
      dsimp only at hgo hregular
      obtain ⟨htext, e, he, rfl⟩ := httpReadLine_inv hline (hregular _ List.mem_cons_self)
      split at hgo
      · rename_i hnil
        obtain rfl := Option.some.inj hgo
        exact ⟨e, .done he, by rw [hnil]; rfl⟩
      · rename_i hne
        rw [if_neg hne] at hregular
        obtain ⟨t, ht, rfl⟩ := ih hgo fun mark hmark => hregular mark (List.mem_cons_of_mem _ hmark)
        exact ⟨trailer ++ (e ++ t), .line htext hne he ht, by simp only [List.append_assoc]⟩

theorem regular_of_trailers {t : Bytes} (ht : Trailers t) {fuel : Nat} {rest r : Bytes}
    (h : skipTrailers fuel (t ++ rest) = some r) : ∀ mark ∈ trailerMarks fuel (t ++ rest), mark.Regular := by
  induction ht generalizing fuel with
  | done he =>
      cases fuel with
      | zero => exact fun mark hmark => absurd hmark List.not_mem_nil
      | succ fuel =>
          rw [skipTrailers] at h
          obtain ⟨q, hline, -⟩ := Option.bind_eq_some_iff.mp h
          have hempty : IsText [] := ⟨List.not_mem_nil, List.not_mem_nil⟩
          obtain rfl := httpReadLine_text hempty he hline
          rw [trailerMarks, hline]
          intro mark hmark
          obtain rfl := List.mem_singleton.mp hmark
          exact List.not_mem_nil
  | @line s e t hs hne he _ ih =>
      cases fuel with
      | zero => exact fun mark hmark => absurd hmark List.not_mem_nil
      | succ fuel =>
          simp only [List.append_assoc] at h ⊢
          rw [skipTrailers] at h
          obtain ⟨q, hline, h⟩ := Option.bind_eq_some_iff.mp h
          obtain rfl := httpReadLine_text hs he hline
          dsimp only at h
          rw [if_neg hne] at h
          rw [trailerMarks, hline]
          dsimp only
          rw [if_neg hne]
          exact List.forall_mem_cons.mpr ⟨hs.1, ih h⟩

/-! ## Chunks -/

/-- What is framed by regular lines is a chunked body. -/
theorem chunkedBody_of_regular {fuel : Nat} {acc input body rest : Bytes}
    (h : readChunks fuel acc input = some (body, rest)) (hregular : ∀ mark ∈ marks fuel input, mark.Regular) :
    ∃ consumed data, ChunkedBody consumed data ∧ input = consumed ++ rest ∧ body = acc ++ data := by
  induction fuel generalizing acc input with
  | zero => exact absurd h nofun
  | succ fuel ih =>
      rw [readChunks] at h
      obtain ⟨⟨sizeLine, rest₁⟩, hline, h₁⟩ := Option.bind_eq_some_iff.mp h
      obtain ⟨size, hsize, h₂⟩ := Option.bind_eq_some_iff.mp h₁
      rw [marks, hline] at hregular
      dsimp only at hregular
      have hfirst := hregular _ List.mem_cons_self
      obtain ⟨htext, e, he, rfl⟩ := httpReadLine_inv hline hfirst.2.2
      have hisSize := isSize_of_regular hfirst htext.2 hsize
      rw [hsize] at hregular
      cases size with
      | zero =>
          rw [if_pos rfl] at h₂
          obtain ⟨rest₂, hskip, h₃⟩ := Option.bind_eq_some_iff.mp h₂
          obtain ⟨rfl, rfl⟩ := Prod.mk.inj (Option.some.inj h₃)
          obtain ⟨t, ht, rfl⟩ := trailers_of_regular hskip fun mark hmark => hregular mark (List.mem_cons_of_mem _ hmark)
          refine ⟨sizeLine ++ (e ++ t), [], .last hisSize he ht, ?_, (List.append_nil _).symm⟩
          simp only [List.append_assoc]
      | succ n =>
          rw [if_neg (Nat.succ_ne_zero n)] at h₂
          split at h₂
          · exact absurd h₂ nofun
          obtain ⟨⟨chunk, rest₂⟩, htake, h₃⟩ := Option.bind_eq_some_iff.mp h₂
          obtain ⟨⟨line, rest₃⟩, hafter, h₄⟩ := Option.bind_eq_some_iff.mp h₃
          obtain ⟨rfl, hlen⟩ := Reader.take_eq_some htake
          dsimp only at hafter h₄ hregular
          rw [← hlen, List.drop_left, hafter] at hregular
          dsimp only at hregular
          rw [List.forall_mem_cons, List.forall_mem_cons] at hregular
          -- nothing stands between the data and the end of the line
          obtain ⟨-, hnothing, hregular⟩ := hregular
          obtain rfl : line = [] := hnothing
          obtain ⟨-, e', he', rfl⟩ := httpReadLine_inv hafter List.not_mem_nil
          obtain ⟨consumed, data, hbody, rfl, rfl⟩ := ih h₄ hregular
          have hne : chunk ≠ [] := by
            rintro rfl
            exact absurd hlen (by simp)
          rw [← hlen] at hisSize
          refine ⟨_, _, .chunk hisSize hne he he' hbody, ?_, List.append_assoc _ _ _⟩
          simp only [List.append_assoc, List.nil_append]

/-- And the other way round. -/
theorem regular_of_chunkedBody {consumed data : Bytes} (hbody : ChunkedBody consumed data) {fuel : Nat}
    {acc rest : Bytes} {r : Bytes × Bytes} (h : readChunks fuel acc (consumed ++ rest) = some r) :
    ∀ mark ∈ marks fuel (consumed ++ rest), mark.Regular := by
  induction hbody generalizing fuel acc with
  | @last s e t hs he ht =>
      cases fuel with
      | zero => exact fun mark hmark => absurd hmark List.not_mem_nil
      | succ fuel =>
          simp only [List.append_assoc] at h ⊢
          rw [readChunks] at h
          obtain ⟨q, hline, h₁⟩ := Option.bind_eq_some_iff.mp h
          obtain rfl := httpReadLine_text hs.isText he hline
          obtain ⟨size, hsize, h₂⟩ := Option.bind_eq_some_iff.mp h₁
          obtain ⟨hregular, rfl⟩ := regular_of_isSize hs hsize
          rw [if_pos rfl] at h₂
          obtain ⟨rest₂, hskip, -⟩ := Option.bind_eq_some_iff.mp h₂
          rw [marks, hline]
          dsimp only at hsize ⊢
          rw [hsize]
          exact List.forall_mem_cons.mpr ⟨hregular, regular_of_trailers ht hskip⟩
  | @chunk s e data e' t body hs hne he he' _ ih =>
      cases fuel with
      | zero => exact fun mark hmark => absurd hmark List.not_mem_nil
      | succ fuel =>
          simp only [List.append_assoc] at h ⊢
          rw [readChunks] at h
          obtain ⟨q, hline, h₁⟩ := Option.bind_eq_some_iff.mp h
          obtain rfl := httpReadLine_text hs.isText he hline
          obtain ⟨size, hsize, h₂⟩ := Option.bind_eq_some_iff.mp h₁
          obtain ⟨hregular, rfl⟩ := regular_of_isSize hs hsize
          have hpos := List.length_pos_iff.mpr hne
          rw [if_neg (by omega)] at h₂
          split at h₂
          · exact absurd h₂ nofun
          rw [Reader.take_append] at h₂
          obtain ⟨q₀, htake, h₃⟩ := Option.bind_eq_some_iff.mp h₂
          obtain rfl := Option.some.inj htake
          obtain ⟨q, hafter, h₄⟩ := Option.bind_eq_some_iff.mp h₃
          have hempty : IsText [] := ⟨List.not_mem_nil, List.not_mem_nil⟩
          obtain rfl := httpReadLine_text hempty he' hafter
          obtain ⟨n, hn⟩ : ∃ n, data.length = n + 1 := ⟨data.length - 1, by omega⟩
          have hdrop : (data ++ (e' ++ (t ++ rest))).drop (n + 1) = e' ++ (t ++ rest) := by
            rw [← hn, List.drop_left]
          rw [marks, hline]
          dsimp only at hsize hafter ⊢
          rw [hsize, hn]
          dsimp only
          rw [hdrop]
          rw [hafter]
          exact List.forall_mem_cons.mpr ⟨hregular, List.forall_mem_cons.mpr ⟨rfl, ih h₄⟩⟩

/-- **What is accepted.** A stream from which a body was read begins with a chunked body, the
one that was read, just if all the lines it is framed by are regular. -/
theorem readChunkedBody_iff {input body rest : Bytes} (h : readChunkedBody input = some (body, rest)) :
    (∃ consumed, input = consumed ++ rest ∧ ChunkedBody consumed body) ↔
      ∀ mark ∈ frameLines input, mark.Regular := by
  constructor
  · rintro ⟨consumed, rfl, hbody⟩
    exact regular_of_chunkedBody hbody h
  · intro hregular
    obtain ⟨consumed, data, hbody, hinput, rfl⟩ := chunkedBody_of_regular h hregular
    exact ⟨consumed, hinput, hbody⟩

/-- A body with an extension and a trailer, its lines ended in either way. -/
def regularStream : Bytes :=
  ascii "3;x" ++ crlf ++ ascii "abc" ++ [lf] ++ ascii "0" ++ [lf] ++ ascii "t" ++ crlf ++ crlf

theorem readChunkedBody_iff_regularStream :
    ∃ consumed, regularStream = consumed ++ [] ∧ ChunkedBody consumed (ascii "abc") := by
  have hread : readChunkedBody regularStream = some (ascii "abc", []) := by decide +kernel
  have hregular : ∀ mark ∈ frameLines regularStream, mark.Regular := by decide +kernel
  exact (readChunkedBody_iff hread).mpr hregular

/-- **Bytes after the data.** -/
def strayStream : Bytes := ascii "3" ++ crlf ++ ascii "abc" ++ ascii "X" ++ crlf ++ ascii "0" ++ crlf ++ crlf

theorem not_chunkedBody_strayStream : readChunkedBody strayStream = some (ascii "abc", []) ∧
    ¬ ∃ consumed, strayStream = consumed ++ [] ∧ ChunkedBody consumed (ascii "abc") := by
  have hread : readChunkedBody strayStream = some (ascii "abc", []) := by decide +kernel
  refine ⟨hread, ?_⟩
  rintro ⟨consumed, hinput, hbody⟩
  have hregular := regular_of_chunkedBody hbody (hinput ▸ hread)
  rw [← hinput] at hregular
  have hmem : Mark.after (ascii "X") ∈ frameLines strayStream := by decide +kernel
  exact absurd (hregular _ hmem) (by decide +kernel)

end NCloud.Protocol.Chunked
