import NCloud.Lib.Search
import NCloud.Lib.Stream
import Mathlib.Data.List.DropRight

/-!
# Forms

Uploads come as `multipart/form-data`: parts between delimiters, each with a few header
lines and then arbitrary bytes. `parse_multipart` finds its way by searching for substrings,
and what it looks for may be part of a name, a file name or the data itself.

`parseMultipart_text` says what it makes of the serialisation of any list of parts, and
`parts_kept_iff` when that is the list.
-/

namespace NCloud.Protocol

open Wire

/-- `MultipartPart`. -/
@[ext]
structure MultipartPart where
  name : Bytes
  filename : Bytes
  contentType : Bytes
  data : Bytes
  deriving DecidableEq

/-- The characters that delimit. -/
def quote : UInt8 := 34

def semicolon : UInt8 := 59

def tab : UInt8 := 9

/-! ## The parser -/

/-- Without quotes around it. -/
def unquote (s : Bytes) : Bytes :=
  if 2 ≤ s.length ∧ s.head? = some quote ∧ s.getLast? = some quote then (s.drop 1).dropLast else s

/-- The boundary that the header of the request names. -/
def rawBoundary (contentTypeHeader : Bytes) : Option Bytes :=
  match behind (ascii "boundary=") contentTypeHeader with
  | none => none
  | some raw =>
      let raw := upTo [semicolon] raw
      let raw := raw.rdropWhile (fun b => b = cr ∨ b = space ∨ b = tab)
      let raw := raw.dropWhile (fun b => b = space ∨ b = tab)
      let raw := unquote raw
      if raw = [] then none else some raw

/-- Two characters less if they end a line. -/
def dropCrlf (data : Bytes) : Bytes := if crlf.isSuffixOf data then data.take (data.length - 2) else data

/-- The value after a key, up to the next quote. -/
def quoted (key line : Bytes) : Bytes :=
  match behind key line with
  | none => []
  | some after => upTo [quote] after

/-- The keys that are looked for. -/
def dispositionKey : Bytes := ascii "Content-Disposition:"

def nameKey : Bytes := ascii "name=" ++ [quote]

def filenameKey : Bytes := ascii "filename=" ++ [quote]

def typeKey : Bytes := ascii "Content-Type:"

/-- Name and file name of a part. -/
def readDisposition (headers : Bytes) : Bytes × Bytes :=
  match behind dispositionKey headers with
  | none => ([], [])
  | some after =>
      let cd := dispositionKey ++ upTo crlf after
      (quoted nameKey cd, quoted filenameKey cd)

/-- The content type of a part. `substr` throws behind the end of the headers, and takes
everything when it is told to take less than nothing. -/
def readType (headers : Bytes) : Option Bytes :=
  match behind typeKey headers with
  | none => some []
  | some after =>
      if after = [] then none
      else if upTo crlf after = [] then some (after.drop 1)
      else some ((upTo crlf after).drop 1)

/-- The loop, for at most so many parts, from behind a delimiter on; `none` where it
throws. -/
def parseParts (delim : Bytes) : (turns : Nat) → Bytes → Option (List MultipartPart)
  | 0, _ => some []
  | turns + 1, rest =>
      if rest = [] then some []
      else
        match cut (crlf ++ crlf) rest with
        | none => some []
        | some (headers, rest) =>
            match cut delim rest with
            | none => some []
            | some (data, rest) =>
                match readType headers with
                | none => none
                | some contentType =>
                    let (name, filename) := readDisposition headers
                    let part := ⟨name, filename, contentType, dropCrlf data⟩
                    let parts :=
                      match rest with
                      | b :: _ :: rest => if b = cr then parseParts delim turns rest else some []
                      | _ => some []
                    if name = [] then parts else parts.map (part :: ·)

/-- `parse_multipart`. -/
def parseMultipart (body contentTypeHeader : Bytes) : Option (List MultipartPart) :=
  match rawBoundary contentTypeHeader with
  | none => some []
  | some raw =>
      match behind (ascii "--" ++ raw) body with
      | none => some []
      | some rest => parseParts (crlf ++ (ascii "--" ++ raw)) (body.length + 1) (rest.drop 2)

/-! ## Forms -/

/-- What may be between quotes. -/
def Quotable (s : Bytes) : Prop := ∀ b ∈ s, b ≠ quote ∧ b ≠ cr ∧ b ≠ lf

instance : DecidablePred Quotable := fun s => inferInstanceAs (Decidable (∀ b ∈ s, b ≠ quote ∧ b ≠ cr ∧ b ≠ lf))

/-- What may be a part of a form with this boundary. -/
structure MultipartPart.Fits (boundary : Bytes) (p : MultipartPart) : Prop where
  name_ne : p.name ≠ []
  name : Quotable p.name
  filename : Quotable p.filename
  contentType : ∀ b ∈ p.contentType, b ≠ cr ∧ b ≠ lf
  data : ¬ crlf ++ (ascii "--" ++ boundary) <:+: p.data

/-- A boundary and parts that it separates. -/
structure Form where
  boundary : Bytes
  parts : List MultipartPart
  boundary_ne : boundary ≠ []
  boundary_plain : ∀ b ∈ boundary, ¬ Decimal.IsBlank b ∧ b ≠ semicolon ∧ b ≠ quote
  fits : ∀ p ∈ parts, p.Fits boundary

namespace MultipartPart

/-- The file name in the header, if there is one. -/
def filenameText (p : MultipartPart) : Bytes :=
  if p.filename = [] then [] else ascii "; " ++ (filenameKey ++ (p.filename ++ [quote]))

/-- The first header line. -/
def disposition (p : MultipartPart) : Bytes :=
  dispositionKey ++ (ascii " form-data; " ++ (nameKey ++ (p.name ++ quote :: p.filenameText)))

/-- The second one, if the content type is given. -/
def typeText (p : MultipartPart) : Bytes :=
  if p.contentType = [] then [] else crlf ++ (typeKey ++ space :: p.contentType)

end MultipartPart

/-- The parts one after another, from behind a `--` and boundary on. -/
def partsText (boundary : Bytes) : List MultipartPart → Bytes
  | [] => ascii "--" ++ crlf
  | p :: ps =>
      crlf ++ (p.disposition ++ (p.typeText ++ (crlf ++ crlf ++
        (p.data ++ (crlf ++ (ascii "--" ++ boundary) ++ partsText boundary ps)))))

/-- The body of a request with the form. -/
def Form.text (form : Form) : Bytes := ascii "--" ++ form.boundary ++ partsText form.boundary form.parts

/-- The header of the request. -/
def Form.header (form : Form) : Bytes := ascii "multipart/form-data; boundary=" ++ form.boundary

/-! ## What comes of a part -/

/-- The content type that is read: what follows the first `Content-Type:` of the headers,
which may be in the name or the file name. -/
def MultipartPart.typeFound (p : MultipartPart) : Bytes :=
  match behind typeKey p.name with
  | some after => (after ++ quote :: p.filenameText).drop 1
  | none =>
      match behind typeKey p.filename with
      | some after => (after ++ [quote]).drop 1
      | none => p.contentType

/-- The file name that is read: what follows the first `filename=` and quote, which may be
the end of the name. -/
def MultipartPart.filenameFound (p : MultipartPart) : Bytes :=
  if ascii "filename=" <:+ p.name then (if p.filename = [] then [] else ascii "; filename=")
  else p.filename

/-- The part that is read. -/
def MultipartPart.found (p : MultipartPart) : MultipartPart :=
  ⟨p.name, p.filenameFound, p.typeFound, dropCrlf p.data⟩

/-! ## Lines -/

/-- Text without a carriage return is skipped by a search that begins with one. -/
theorem cut_skip_plain {pat a : Bytes} (s : Bytes) (h : cr ∉ a) :
    cut (cr :: pat) (a ++ s) = (cut (cr :: pat) s).map (fun (before, after) => (a ++ before, after)) := by
  refine cut_skip s ?_
  rintro x y rfl hy ⟨t, ht⟩
  obtain ⟨b, y, rfl⟩ := List.exists_cons_of_ne_nil hy
  obtain ⟨rfl, -⟩ := List.cons.inj ht
  exact h (List.mem_append_right x List.mem_cons_self)

/-- A line goes up to its end. -/
theorem upTo_line {line : Bytes} (h : cr ∉ line) (rest : Bytes) : upTo crlf (line ++ (crlf ++ rest)) = line := by
  have hcut : cut crlf (line ++ (crlf ++ rest)) = some (line ++ [], rest) := by
    rw [crlf, cut_skip_plain _ h, cut_prefixed (List.cons_ne_nil _ _)]
    rfl
  rw [upTo, hcut]
  exact List.append_nil line

theorem upTo_last_line {line : Bytes} (h : cr ∉ line) : upTo crlf line = line :=
  upTo_of_not_infix (List.cons_ne_nil _ _) (fun hmid => h (hmid.subset List.mem_cons_self))

section Part

variable {boundary : Bytes} {p : MultipartPart}

theorem cr_notMem_filenameText (hp : p.Fits boundary) : cr ∉ p.filenameText := by
  have hkey : cr ∉ ascii "; " ++ filenameKey := by decide
  have hquote : cr ≠ quote := by decide
  rw [MultipartPart.filenameText]
  split
  · exact List.not_mem_nil
  · rw [← List.append_assoc]
    simp only [List.mem_append, List.mem_singleton, not_or]
    rw [List.mem_append, not_or] at hkey
    exact ⟨hkey, fun h => (hp.filename cr h).2.1 rfl, hquote⟩

theorem cr_notMem_disposition (hp : p.Fits boundary) : cr ∉ p.disposition := by
  have hkey : cr ∉ dispositionKey := by decide
  have hform : cr ∉ ascii " form-data; " := by decide
  have hname : cr ∉ nameKey := by decide
  have hquote : cr ≠ quote := by decide
  rw [MultipartPart.disposition]
  simp only [List.mem_append, List.mem_cons, not_or]
  exact ⟨hkey, hform, hname, fun h => (hp.name cr h).2.1 rfl, hquote, cr_notMem_filenameText hp⟩

theorem cr_notMem_contentType (hp : p.Fits boundary) : cr ∉ p.contentType := fun h => (hp.contentType cr h).1 rfl

/-- **The headers end at the empty line.** -/
theorem cut_headers (hp : p.Fits boundary) (rest : Bytes) :
    cut (crlf ++ crlf) (p.disposition ++ (p.typeText ++ (crlf ++ crlf ++ rest))) =
      some (p.disposition ++ p.typeText, rest) := by
  have hend : cut (cr :: [lf, cr, lf]) (crlf ++ crlf ++ rest) = some ([], rest) := cut_prefixed (List.cons_ne_nil _ _) rest
  have htype : cut (cr :: [lf, cr, lf]) (p.typeText ++ (crlf ++ crlf ++ rest)) = some (p.typeText, rest) := by
    rw [MultipartPart.typeText]
    split
    · exact hend
    · -- after the line feed a letter follows
      have hline : cr ∉ typeKey ++ space :: p.contentType := by
        have hkey : cr ∉ typeKey := by decide
        have hspace : cr ≠ space := by decide
        simp only [List.mem_append, List.mem_cons, not_or]
        exact ⟨hkey, hspace, cr_notMem_contentType hp⟩
      have hskip := @cut_skip_plain [lf, cr, lf] _ (crlf ++ crlf ++ rest) hline
      rw [hend] at hskip
      have hfirst : ¬ (cr :: [lf, cr, lf]).isPrefixOf
          (cr :: lf :: ((typeKey ++ space :: p.contentType) ++ (crlf ++ crlf ++ rest))) = true := Bool.false_ne_true
      have hsecond : ¬ (cr :: [lf, cr, lf]).isPrefixOf
          (lf :: ((typeKey ++ space :: p.contentType) ++ (crlf ++ crlf ++ rest))) = true := Bool.false_ne_true
      have hlines : cut (cr :: [lf, cr, lf])
          (cr :: lf :: ((typeKey ++ space :: p.contentType) ++ (crlf ++ crlf ++ rest))) =
            some (crlf ++ (typeKey ++ space :: p.contentType) ++ [], rest) := by
        rw [cut, if_neg hfirst, cut, if_neg hsecond, hskip]
        rfl
      rw [List.append_nil] at hlines
      exact hlines
  have hall : cut (cr :: [lf, cr, lf]) (p.disposition ++ (p.typeText ++ (crlf ++ crlf ++ rest))) =
      some (p.disposition ++ p.typeText, rest) := by
    rw [cut_skip_plain _ (cr_notMem_disposition hp), htype]
    rfl
  exact hall

/-- The data end at the delimiter. -/
theorem cut_data (hboundary : cr ∉ boundary) (hp : p.Fits boundary) (rest : Bytes) :
    cut (crlf ++ (ascii "--" ++ boundary)) (p.data ++ (crlf ++ (ascii "--" ++ boundary) ++ rest)) =
      some (p.data, rest) := by
  have hdashes : cr ∉ lf :: (ascii "--" ++ boundary) := by
    have hlf : cr ∉ lf :: ascii "--" := by decide
    rw [List.mem_cons, not_or] at hlf
    simp only [List.mem_cons, List.mem_append, not_or]
    exact ⟨hlf.1, hlf.2, hboundary⟩
  exact cut_append_head rest hdashes hp.data

/-- A line of the headers, whatever header comes next. -/
theorem upTo_typeText {line : Bytes} (h : cr ∉ line) : upTo crlf (line ++ p.typeText) = line := by
  rw [MultipartPart.typeText]
  split
  · rw [List.append_nil]
    exact upTo_last_line h
  · exact upTo_line h _

/-- **The disposition** is the first line. -/
theorem readDisposition_headers (hp : p.Fits boundary) :
    readDisposition (p.disposition ++ p.typeText) = (quoted nameKey p.disposition, quoted filenameKey p.disposition) := by
  have hbehind : behind dispositionKey (p.disposition ++ p.typeText) =
      some (ascii " form-data; " ++ (nameKey ++ (p.name ++ quote :: p.filenameText)) ++ p.typeText) := by
    rw [MultipartPart.disposition, List.append_assoc]
    exact behind_prefixed (by decide) _
  have hcr : cr ∉ ascii " form-data; " ++ (nameKey ++ (p.name ++ quote :: p.filenameText)) := by
    have h := cr_notMem_disposition hp
    rw [MultipartPart.disposition, List.mem_append, not_or] at h
    exact h.2
  rw [readDisposition, hbehind]
  dsimp only
  rw [upTo_typeText hcr]
  rfl

/-- The name. -/
theorem quoted_name (hp : p.Fits boundary) : quoted nameKey p.disposition = p.name := by
  have hbehind : behind nameKey p.disposition = some (p.name ++ quote :: p.filenameText) := rfl
  rw [quoted, hbehind]
  exact upTo_char _ (fun h => (hp.name quote h).1 rfl)

/-- What is in front of the name. -/
def lead : Bytes := dispositionKey ++ (ascii " form-data; " ++ nameKey)

theorem disposition_eq (p : MultipartPart) : p.disposition = lead ++ (p.name ++ quote :: p.filenameText) := by
  rw [MultipartPart.disposition, lead, List.append_assoc, List.append_assoc]

theorem filenameKey_append (s : Bytes) : filenameKey ++ s = ascii "filename=" ++ quote :: s := by
  rw [filenameKey, List.append_assoc, List.singleton_append]

/-- **The file name** is looked for behind `filename=` and a quote, which may be the end of
the name. -/
theorem quoted_filename (hp : p.Fits boundary) : quoted filenameKey p.disposition = p.filenameFound := by
  have hname : quote ∉ p.name := fun h => (hp.name quote h).1 rfl
  have hkey : quote ∉ ascii "filename=" := by decide
  have hbehind : behind filenameKey p.disposition = behind filenameKey (p.name ++ quote :: p.filenameText) := by
    rw [disposition_eq]
    exact behind_skip_tails _ (by decide)
  -- an occurrence that begins in the name ends with the quote behind it
  have hinside : ∀ x y, p.name = x ++ y → (filenameKey <+: y ++ quote :: p.filenameText ↔ y = ascii "filename=") := by
    intro x y heq
    have hy : quote ∉ y := fun h => hname (heq ▸ List.mem_append_right x h)
    exact prefix_ends_iff hkey hy
  rw [quoted, hbehind, MultipartPart.filenameFound]
  by_cases hends : ascii "filename=" <:+ p.name
  · rw [if_pos hends]
    obtain ⟨x, hx⟩ := hends
    have hfirst : behind filenameKey (p.name ++ quote :: p.filenameText) = some p.filenameText := by
      rw [← hx, List.append_assoc, ← filenameKey_append]
      refine behind_append (by decide) _ ?_
      rintro u v rfl hv hpre
      rw [filenameKey_append, ← List.append_assoc,
        hinside u (v ++ ascii "filename=") (by rw [← hx, List.append_assoc])] at hpre
      exact hv (List.append_left_eq_self.mp hpre)
    rw [hfirst]
    dsimp only
    rw [MultipartPart.filenameText]
    split
    · rfl
    · rfl
  · rw [if_neg hends]
    have hskip : behind filenameKey (p.name ++ quote :: p.filenameText) = behind filenameKey (quote :: p.filenameText) := by
      refine behind_skip _ ?_
      rintro x y heq - hpre
      exact hends ⟨x, by rw [heq, (hinside x y heq).mp hpre]⟩
    rw [hskip, MultipartPart.filenameText]
    by_cases hnil : p.filename = []
    · rw [if_pos hnil, hnil]
      rfl
    · have hfound : behind filenameKey (quote :: (ascii "; " ++ (filenameKey ++ (p.filename ++ [quote])))) =
          some (p.filename ++ [quote]) := rfl
      rw [if_neg hnil, hfound]
      exact upTo_char [] (fun h => (hp.filename quote h).1 rfl)

/-- A search in the file name and what follows. -/
theorem behind_filenameText {key : Bytes} (hne : key ≠ []) (hquote : quote ∉ key)
    (hlead : ∀ y ∈ (ascii "; " ++ filenameKey).tails, y ≠ [] → ¬ y.take key.length <+: key) (s : Bytes) :
    behind key (p.filenameText ++ s) = ((behind key p.filename).map (· ++ quote :: s)).or (behind key s) := by
  rw [MultipartPart.filenameText]
  by_cases hnil : p.filename = []
  · have hnone : behind key [] = none := by
      rw [behind, cut, if_neg hne, Option.map_none]
    rw [if_pos hnil, hnil, hnone]
    rfl
  · have hskip := behind_skip_tails (p.filename ++ quote :: s) hlead
    rw [behind_append_notMem _ _ hne hquote] at hskip
    rw [if_neg hnil, ← hskip]
    simp only [List.append_assoc, List.cons_append, List.nil_append]

/-- Where the search for the content type ends. -/
theorem behind_typeKey (p : MultipartPart) :
    behind typeKey (p.disposition ++ p.typeText) =
      ((behind typeKey p.name).map (· ++ quote :: (p.filenameText ++ p.typeText))).or
        (((behind typeKey p.filename).map (· ++ quote :: p.typeText)).or (behind typeKey p.typeText)) := by
  have hquote : quote ∉ typeKey := by decide
  have hne : typeKey ≠ [] := by decide
  rw [disposition_eq, List.append_assoc, lead, behind_skip_tails _ (by decide), List.append_assoc,
    List.cons_append, behind_append_notMem _ _ hne hquote, behind_filenameText hne hquote (by decide)]

/-- A line that is not empty, read without its first character. -/
theorem readType_of_behind {headers line : Bytes} (hbehind : behind typeKey headers = some (line ++ p.typeText))
    (hne : line ≠ []) (hcr : cr ∉ line) : readType headers = some (line.drop 1) := by
  rw [readType, hbehind]
  dsimp only
  rw [if_neg (List.append_ne_nil_of_left_ne_nil hne _), upTo_typeText hcr, if_neg hne]

/-- **The content type** is what follows the first `Content-Type:`. -/
theorem readType_headers (hp : p.Fits boundary) : readType (p.disposition ++ p.typeText) = some p.typeFound := by
  have hbehind := behind_typeKey p
  have hquote : cr ≠ quote := by decide
  rw [MultipartPart.typeFound]
  cases hname : behind typeKey p.name with
  | some after =>
      have hcr : cr ∉ after ++ quote :: p.filenameText := by
        rw [List.mem_append, List.mem_cons]
        rintro (h | h | h)
        · exact (hp.name cr ((suffix_of_behind hname).subset h)).2.1 rfl
        · exact hquote h
        · exact cr_notMem_filenameText hp h
      rw [hname, Option.map_some, Option.some_or, ← List.cons_append, ← List.append_assoc] at hbehind
      exact readType_of_behind hbehind (by simp) hcr
  | none =>
      rw [hname, Option.map_none, Option.none_or] at hbehind
      cases hfilename : behind typeKey p.filename with
      | some after =>
          have hcr : cr ∉ after ++ [quote] := by
            rw [List.mem_append, List.mem_singleton]
            rintro (h | h)
            · exact (hp.filename cr ((suffix_of_behind hfilename).subset h)).2.1 rfl
            · exact hquote h
          rw [hfilename, Option.map_some, Option.some_or, ← List.singleton_append, ← List.append_assoc] at hbehind
          exact readType_of_behind hbehind (by simp) hcr
      | none =>
          rw [hfilename, Option.map_none, Option.none_or] at hbehind
          dsimp only
          by_cases hnil : p.contentType = []
          · rw [MultipartPart.typeText, if_pos hnil] at hbehind
            rw [readType, MultipartPart.typeText, if_pos hnil, hbehind, hnil]
            rfl
          · have hline : behind typeKey p.typeText = some (space :: p.contentType) := by
              rw [MultipartPart.typeText, if_neg hnil]
              rfl
            have hcr : cr ∉ space :: p.contentType := by
              rw [List.mem_cons]
              rintro (h | h)
              · exact absurd h (by decide)
              · exact cr_notMem_contentType hp h
            rw [hline] at hbehind
            rw [readType, hbehind]
            dsimp only
            rw [if_neg (List.cons_ne_nil _ _), upTo_last_line hcr, if_neg (List.cons_ne_nil _ _)]
            rfl

/-- **One turn** takes one part. -/
theorem parseParts_cons (hboundary : cr ∉ boundary) (hp : p.Fits boundary) (turns : Nat) (rest : Bytes) :
    parseParts (crlf ++ (ascii "--" ++ boundary)) (turns + 1)
        (p.disposition ++ (p.typeText ++ (crlf ++ crlf ++ (p.data ++ (crlf ++ (ascii "--" ++ boundary) ++ rest))))) =
      Option.map (p.found :: ·)
        (match rest with
        | b :: _ :: rest =>
            if b = cr then parseParts (crlf ++ (ascii "--" ++ boundary)) turns rest else some []
        | _ => some []) := by
  have hne : p.disposition ++ (p.typeText ++ (crlf ++ crlf ++
      (p.data ++ (crlf ++ (ascii "--" ++ boundary) ++ rest)))) ≠ [] := List.cons_ne_nil _ _
  rw [parseParts, if_neg hne, cut_headers hp]
  dsimp only
  rw [cut_data hboundary hp]
  dsimp only
  rw [readType_headers hp]
  dsimp only
  rw [readDisposition_headers hp, quoted_name hp, quoted_filename hp]
  dsimp only
  rw [if_neg hp.name_ne]
  rfl

end Part

/-- **All parts are found**, one a turn. -/
theorem parseParts_partsText {boundary : Bytes} (hboundary : cr ∉ boundary) {ps : List MultipartPart}
    (h : ∀ p ∈ ps, p.Fits boundary) {turns : Nat} (hturns : ps.length < turns) :
    parseParts (crlf ++ (ascii "--" ++ boundary)) turns ((partsText boundary ps).drop 2) =
      some (ps.map MultipartPart.found) := by
  induction ps generalizing turns with
  | nil =>
      obtain ⟨turns, rfl⟩ : ∃ n, turns = n + 1 := ⟨turns - 1, by omega⟩
      rfl
  | cons p ps ih =>
      obtain ⟨turns, rfl⟩ : ∃ n, turns = n + 1 := ⟨turns - 1, by omega⟩
      rw [List.length_cons] at hturns
      have ih := ih (fun q hq => h q (List.mem_cons_of_mem _ hq)) (show ps.length < turns by omega)
      have hdrop : (partsText boundary (p :: ps)).drop 2 = p.disposition ++ (p.typeText ++ (crlf ++ crlf ++
        (p.data ++ (crlf ++ (ascii "--" ++ boundary) ++ partsText boundary ps)))) := rfl
      rw [hdrop, parseParts_cons hboundary (h p List.mem_cons_self)]
      -- after the last delimiter come two dashes
      cases ps with
      | nil => rfl
      | cons q ps =>
          have hnext : partsText boundary (q :: ps) = cr :: lf :: (partsText boundary (q :: ps)).drop 2 := rfl
          rw [hnext]
          dsimp only
          rw [if_pos rfl, ih]
          rfl

namespace Form

theorem cr_notMem_boundary (form : Form) : cr ∉ form.boundary :=
  fun h => (form.boundary_plain cr h).1 (by decide)

/-- The boundary in the header. -/
theorem rawBoundary_header (form : Form) : rawBoundary form.header = some form.boundary := by
  have hbehind : behind (ascii "boundary=") form.header = some form.boundary := rfl
  have hsemicolon : upTo [semicolon] form.boundary = form.boundary :=
    upTo_of_not_infix (List.cons_ne_nil _ _)
      (not_infix_of_notMem (fun h => (form.boundary_plain _ h).2.1 rfl))
  have hblank : ∀ b ∈ form.boundary, ¬ (b = cr ∨ b = space ∨ b = tab) := by
    intro b hb
    have hplain := (form.boundary_plain b hb).1
    rintro (rfl | rfl | rfl)
    · exact hplain (by decide)
    · exact hplain (by decide)
    · exact hplain (by decide)
  have hright : form.boundary.rdropWhile (fun b => b = cr ∨ b = space ∨ b = tab) = form.boundary := by
    rw [List.rdropWhile_eq_self_iff]
    intro hne
    simpa using hblank _ (List.getLast_mem hne)
  have hleft : form.boundary.dropWhile (fun b => b = space ∨ b = tab) = form.boundary := by
    obtain ⟨b, s, hbs⟩ := List.exists_cons_of_ne_nil form.boundary_ne
    have hb := hblank b (hbs ▸ List.mem_cons_self)
    rw [not_or] at hb
    rw [hbs]
    exact List.dropWhile_cons_of_neg (by simpa using hb.2)
  have hquote : unquote form.boundary = form.boundary := by
    refine if_neg (fun hq => ?_)
    exact (form.boundary_plain _ (List.mem_of_head? hq.2.1)).2.2 rfl
  rw [rawBoundary, hbehind]
  dsimp only
  rw [hsemicolon, hright, hleft, hquote]
  exact if_neg form.boundary_ne

theorem length_parts_le (boundary : Bytes) (ps : List MultipartPart) : ps.length ≤ (partsText boundary ps).length := by
  induction ps with
  | nil => exact Nat.zero_le _
  | cons p ps ih =>
      have hcrlf : crlf.length = 2 := rfl
      rw [partsText]
      simp only [List.length_append, List.length_cons]
      omega

/-- **What the parser makes of a form.** -/
theorem parseMultipart_text (form : Form) :
    parseMultipart form.text form.header = some (form.parts.map MultipartPart.found) := by
  have hbehind : behind (ascii "--" ++ form.boundary) form.text = some (partsText form.boundary form.parts) :=
    behind_prefixed (List.cons_ne_nil _ _) _
  have hturns : form.parts.length < form.text.length + 1 := by
    have hle := length_parts_le form.boundary form.parts
    rw [text, List.length_append]
    omega
  rw [parseMultipart, rawBoundary_header]
  dsimp only
  rw [hbehind]
  exact parseParts_partsText form.cr_notMem_boundary form.fits hturns

end Form

/-! ## Which forms survive -/

/-- A part that is read as it was written: the data do not end with a line end, the name
does not end with `filename=`, and nothing in front of the content type reads like one, or
what is read instead happens to be the same. -/
structure MultipartPart.Kept (p : MultipartPart) : Prop where
  data : ¬ crlf <:+ p.data
  filename : ascii "filename=" <:+ p.name → p.filename = [] ∨ p.filename = ascii "; filename="
  inName : ∀ after, behind typeKey p.name = some after → p.contentType = (after ++ quote :: p.filenameText).drop 1
  inFilename : ∀ after, behind typeKey p.name = none → behind typeKey p.filename = some after →
    p.contentType = (after ++ [quote]).drop 1

/-- Names without the parser's own words in them, and data that do not end a line. -/
theorem MultipartPart.kept_of_plain {p : MultipartPart} (hdata : ¬ crlf <:+ p.data)
    (hname : ¬ ascii "filename=" <:+ p.name) (htype : behind typeKey p.name = none)
    (hfile : behind typeKey p.filename = none) : p.Kept where
  data := hdata
  filename := fun h => absurd h hname
  inName := by
    intro after h
    rw [htype] at h
    exact absurd h (by simp)
  inFilename := by
    intro after _ h
    rw [hfile] at h
    exact absurd h (by simp)

theorem dropCrlf_eq_self_iff (data : Bytes) : dropCrlf data = data ↔ ¬ crlf <:+ data := by
  rw [dropCrlf]
  constructor
  · intro heq hsuffix
    rw [if_pos (List.isSuffixOf_iff_suffix.mpr hsuffix)] at heq
    have hlen := congrArg List.length heq
    have hle : 2 ≤ data.length := hsuffix.length_le
    rw [List.length_take] at hlen
    omega
  · intro h
    exact if_neg (fun hsuffix => h (List.isSuffixOf_iff_suffix.mp hsuffix))

/-- **When a part is read as it was written.** -/
theorem MultipartPart.found_eq_self_iff (p : MultipartPart) : p.found = p ↔ p.Kept := by
  rw [MultipartPart.ext_iff]
  constructor
  · rintro ⟨-, hfilename, htype, hdata⟩
    have hfilename : p.filenameFound = p.filename := hfilename
    have htype : p.typeFound = p.contentType := htype
    refine ⟨(dropCrlf_eq_self_iff _).mp hdata, fun hends => ?_, fun after hname => ?_, fun after hname hfound => ?_⟩
    · rw [filenameFound, if_pos hends] at hfilename
      split at hfilename
      · rename_i hnil
        exact .inl hnil
      · exact .inr hfilename.symm
    · rw [typeFound, hname] at htype
      exact htype.symm
    · rw [typeFound, hname, hfound] at htype
      exact htype.symm
  · intro h
    refine ⟨rfl, ?_, ?_, (dropCrlf_eq_self_iff _).mpr h.data⟩
    · show p.filenameFound = p.filename
      rw [filenameFound]
      split
      · rename_i hends
        rcases h.filename hends with hnil | heq
        · rw [if_pos hnil, hnil]
        · rw [heq]
          rfl
      · rfl
    · show p.typeFound = p.contentType
      rw [typeFound]
      split
      · rename_i after hname
        exact (h.inName after hname).symm
      · rename_i hname
        split
        · rename_i after hfound
          exact (h.inFilename after hname hfound).symm
        · rfl

/-- **A form is read back** if and only if each of its parts is one that is kept. -/
theorem parts_kept_iff (form : Form) :
    parseMultipart form.text form.header = some form.parts ↔ ∀ p ∈ form.parts, p.Kept := by
  have hself : form.parts.map MultipartPart.found = form.parts ↔ ∀ p ∈ form.parts, p.found = p := by
    have hid := List.map_inj_left (f := MultipartPart.found) (g := id) (l := form.parts)
    rw [List.map_id] at hid
    exact hid
  rw [form.parseMultipart_text, Option.some.injEq, hself]
  exact forall₂_congr (fun p _ => p.found_eq_self_iff)

/-- A field, a file with line ends and delimiters in it, and an empty file. -/
def keptParts : List MultipartPart :=
  [⟨ascii "path", [], [], ascii "/"⟩,
    ⟨ascii "file", ascii "a.txt", ascii "text/plain", crlf ++ ascii "--" ++ crlf ++ ascii "b"⟩,
    ⟨ascii "file", ascii "empty", [], []⟩]

def keptForm : Form where
  boundary := ascii "x"
  parts := keptParts
  boundary_ne := by decide
  boundary_plain := by decide +kernel
  fits := by
    intro p hp
    simp only [keptParts, List.mem_cons, List.not_mem_nil, or_false] at hp
    rcases hp with rfl | rfl | rfl <;>
      exact ⟨by decide +kernel, by decide +kernel, by decide +kernel, by decide +kernel, by decide +kernel⟩

/-- It is read back. -/
theorem parts_kept_iff_keptForm : parseMultipart keptForm.text keptForm.header = some keptParts := by
  refine (parts_kept_iff keptForm).mpr (fun p hp => ?_)
  simp only [keptForm, keptParts, List.mem_cons, List.not_mem_nil, or_false] at hp
  rcases hp with rfl | rfl | rfl <;>
    exact MultipartPart.kept_of_plain (by decide +kernel) (by decide +kernel) (by decide +kernel) (by decide +kernel)

/-- A file of one line. -/
def oneLine : MultipartPart := ⟨ascii "file", ascii "f", ascii "text/plain", ascii "a" ++ crlf⟩

/-- A form with it. -/
def oneLineForm : Form where
  boundary := ascii "x"
  parts := [oneLine]
  boundary_ne := by decide
  boundary_plain := by decide +kernel
  fits := by
    intro p hp
    rw [List.mem_singleton.mp hp]
    exact ⟨by decide +kernel, by decide +kernel, by decide +kernel, by decide +kernel, by decide +kernel⟩

/-- The line end is lost. -/
theorem oneLine_cut :
    parseMultipart oneLineForm.text oneLineForm.header = some [{ oneLine with data := ascii "a" }] ∧
      parseMultipart oneLineForm.text oneLineForm.header ≠ some oneLineForm.parts := by
  have hparse : parseMultipart oneLineForm.text oneLineForm.header = some [{ oneLine with data := ascii "a" }] := by
    decide
  refine ⟨hparse, ?_⟩
  rw [hparse]
  decide

end NCloud.Protocol
