import NCloud.Lib.Search
import NCloud.Lib.Stream
import Mathlib.Data.List.DropRight

/-!
# Mail to other servers

A message is sent behind `DATA` and ends with a line that is a single dot. The server that
receives it takes a dot away from every line that begins with two, and relies on the
client to have put it there. `try_send_once` sends the message as it is.
-/

namespace NCloud.Protocol

open Wire

/-! ## Headers -/

/-- `trim`. -/
def trim (s : Bytes) : Bytes :=
  (s.dropWhile (fun b => decide (Decimal.IsBlank b))).rdropWhile (fun b => decide (Decimal.IsBlank b))

/-- A line break. -/
def IsBreak (b : UInt8) : Prop := b = cr ∨ b = lf

instance : DecidablePred IsBreak := fun _ => inferInstanceAs (Decidable (_ ∨ _))

/-- `quote_header_phrase`. -/
def quoteHeaderPhrase (s : Bytes) : Bytes :=
  34 :: (s.flatMap (fun b =>
    (if b = 92 ∨ b = 34 then [92] else []) ++ (if IsBreak b then [] else [b])) ++ [34])

/-- One character of a header text: a line break becomes a space, other control characters
are left out. -/
def sanitizeStep (out : Bytes) (b : UInt8) : Bytes :=
  if IsBreak b then (if out ≠ [] ∧ out.getLast? ≠ some space then out ++ [space] else out)
  else if b < 32 ∨ b = 127 then out
  else out ++ [b]

/-- `sanitize_header_text`. -/
def sanitizeHeaderText (s : Bytes) : Bytes := trim (s.foldl sanitizeStep [])

/-- `std::isalnum`. -/
def IsAlnum (b : UInt8) : Prop := (48 ≤ b ∧ b ≤ 57) ∨ (65 ≤ b ∧ b ≤ 90) ∨ (97 ≤ b ∧ b ≤ 122)

instance : DecidablePred IsAlnum := fun _ => inferInstanceAs (Decidable (_ ∨ _ ∨ _))

/-- `sanitize_content_type`. -/
def sanitizeContentType (mime : Bytes) : Bytes :=
  let mime := sanitizeHeaderText mime
  if mime = [] ∨ 47 ∉ mime then ascii "application/octet-stream"
  else if ∀ b ∈ mime, IsAlnum b ∨ b ∈ ascii "/.+-_" then mime
  else ascii "application/octet-stream"

/-- `domain_part_or`. -/
def domainPartOr (addr fallback : Bytes) : Bytes :=
  match behind [64] addr with
  | none => fallback
  | some part => if part = [] ∨ trim part = [] then fallback else trim part

/-! ## Attachments -/

/-- `SMTPAttachment`. -/
structure SMTPAttachment where
  filename : Bytes
  contentType : Bytes
  data : Bytes

/-- The alphabet. -/
def base64Table : Bytes := ascii "ABCDEFGHIJKLMNOPQRSTUVWXYZabcdefghijklmnopqrstuvwxyz0123456789+/"

/-- A character of it. -/
def base64Char (n : UInt8) : UInt8 := base64Table.getD n.toNat 0

/-- Three bytes are four characters. -/
def base64Chars : Bytes → Bytes
  | [] => []
  | [a] => [base64Char (a >>> 2), base64Char ((a &&& 3) <<< 4), 61, 61]
  | [a, b] => [base64Char (a >>> 2), base64Char (((a &&& 3) <<< 4) ||| (b >>> 4)), base64Char ((b &&& 15) <<< 2), 61]
  | a :: b :: c :: rest =>
      base64Char (a >>> 2) :: base64Char (((a &&& 3) <<< 4) ||| (b >>> 4)) ::
        base64Char (((b &&& 15) <<< 2) ||| (c >>> 6)) :: base64Char (c &&& 63) :: base64Chars rest

/-- `emit` for one character after the other, where a line has `lineLen` already. -/
def emitAll : (lineLen : Nat) → Bytes → Bytes
  | _, [] => []
  | lineLen, c :: cs => if lineLen = 76 then crlf ++ c :: emitAll 1 cs else c :: emitAll (lineLen + 1) cs

/-- `base64_encode_wrapped`. -/
def base64EncodeWrapped (data : Bytes) : Bytes := emitAll 0 (base64Chars data)

/-! ## The message -/

/-- What the clock and the random numbers give. The text of a date is one line. -/
structure Stamps where
  date : Bytes
  date_plain : ∀ b ∈ date, ¬ IsBreak b
  nanos : Nat
  random : Nat
  boundaryNanos : Nat
  boundaryRandom : Nat

/-- A digit of `std::hex`. -/
def hexDigit (n : Nat) : UInt8 := (ascii "0123456789abcdef").getD n 0

/-- Six of them. -/
def hexText (n : Nat) : Bytes := [5, 4, 3, 2, 1, 0].map (fun i => hexDigit (n / 16 ^ i % 16))

/-- `message_id_for`. -/
def messageIdFor (stamps : Stamps) (fromAddr : Bytes) : Bytes :=
  ascii "<ncloud." ++ Decimal.text stamps.nanos ++ ascii "." ++ hexText stamps.random ++ ascii "@" ++
    domainPartOr fromAddr (ascii "localhost") ++ ascii ">"

/-- `mime_boundary_for`. -/
def mimeBoundaryFor (stamps : Stamps) : Bytes :=
  ascii "----=_NCloud_" ++ Decimal.text stamps.boundaryNanos ++ ascii "_" ++ hexText stamps.boundaryRandom

/-- The header fields that hold addresses. -/
def fromField (fromDisplay fromAddr : Bytes) : Bytes :=
  ascii "From: " ++ (if fromDisplay = [] then [] else quoteHeaderPhrase fromDisplay ++ ascii " ") ++
    ascii "<" ++ fromAddr ++ ascii ">"

def toField (toAddr : Bytes) : Bytes := ascii "To: <" ++ toAddr ++ ascii ">"

def messageIdField (stamps : Stamps) (fromAddr : Bytes) : Bytes :=
  ascii "Message-ID: " ++ messageIdFor stamps fromAddr

/-- The lines for one attachment. -/
def attachmentLines (boundary : Bytes) (attachment : SMTPAttachment) : List Bytes :=
  let filename := sanitizeHeaderText attachment.filename
  let filename := if filename = [] then ascii "attachment" else filename
  [ascii "--" ++ boundary,
    ascii "Content-Type: " ++ sanitizeContentType attachment.contentType ++ ascii "; name=" ++
      quoteHeaderPhrase filename,
    ascii "Content-Transfer-Encoding: base64",
    ascii "Content-Disposition: attachment; filename=" ++ quoteHeaderPhrase filename,
    [],
    base64EncodeWrapped attachment.data]

/-- The body, or the body and the attachments. -/
def contentLines (stamps : Stamps) (body : Bytes) (attachments : List SMTPAttachment) : List Bytes :=
  if attachments = [] then
    [ascii "Content-Type: text/plain; charset=UTF-8", ascii "Content-Transfer-Encoding: 8bit", [], body]
  else
    let boundary := mimeBoundaryFor stamps
    [ascii "Content-Type: multipart/mixed; boundary=" ++ quoteHeaderPhrase boundary, [],
      ascii "This is a MIME message.", ascii "--" ++ boundary,
      ascii "Content-Type: text/plain; charset=UTF-8", ascii "Content-Transfer-Encoding: 8bit", [], body] ++
      attachments.flatMap (attachmentLines boundary) ++ [ascii "--" ++ boundary ++ ascii "--"]

/-- Everything that is written with a line end behind it. -/
def messageLines (stamps : Stamps) (fromAddr toAddr subject body replyToAddr fromDisplay originalSender : Bytes)
    (attachments : List SMTPAttachment) : List Bytes :=
  [fromField fromDisplay fromAddr] ++
    (if replyToAddr ≠ [] ∧ replyToAddr ≠ fromAddr then [ascii "Reply-To: <" ++ replyToAddr ++ ascii ">"] else []) ++
    (if originalSender ≠ [] ∧ originalSender ≠ fromAddr then
      [ascii "X-NCloud-From: <" ++ originalSender ++ ascii ">"] else []) ++
    [toField toAddr, ascii "Subject: " ++ sanitizeHeaderText subject, ascii "Date: " ++ stamps.date,
      messageIdField stamps fromAddr, ascii "X-Mailer: NCloud", ascii "MIME-Version: 1.0"] ++
    contentLines stamps body attachments

/-- `build_message`. -/
def buildMessage (stamps : Stamps) (fromAddr toAddr subject body replyToAddr fromDisplay originalSender : Bytes)
    (attachments : List SMTPAttachment) : Bytes :=
  (messageLines stamps fromAddr toAddr subject body replyToAddr fromDisplay originalSender attachments).flatMap
    (fun line => line ++ crlf)

/-! ## The client -/

/-- What `read_smtp_reply` returns. -/
structure Reply where
  code : Nat
  text : Bytes

/-- `expect_code_class` on the next reply: the error, if there is one. -/
def expectCodeClass (wantClass : Nat) : List (Option Reply) → Option Bytes × List (Option Reply)
  | [] => (some (ascii "failed reading SMTP reply"), [])
  | none :: replies => (some (ascii "failed reading SMTP reply"), replies)
  | some r :: replies => (if r.code / 100 = wantClass then none else some r.text, replies)

/-- `send_cmd_expect` for one command after another, until one is refused. -/
def sendCmds : List (Bytes × Nat) → List (Option Reply) → List Bytes × Option Bytes × List (Option Reply)
  | [], replies => ([], none, replies)
  | (cmd, wantClass) :: cmds, replies =>
      match expectCodeClass wantClass replies with
      | (some err, replies) => ([cmd ++ crlf], some err, replies)
      | (none, replies) =>
          let (sent, err, replies) := sendCmds cmds replies
          ((cmd ++ crlf) :: sent, err, replies)

/-- What is sent behind `DATA`. -/
def dataSection (msg : Bytes) : Bytes := msg ++ (crlf ++ (ascii "." ++ crlf))

/-- What an attempt comes to: the result, the commands that were sent, what was sent
behind `DATA` if it came to that, and the farewell. -/
structure Attempt where
  ok : Bool
  error : Bytes
  tempFail : Bool
  commands : List Bytes
  data : Option Bytes
  closing : Bytes

/-- An attempt that ends before the data. -/
def Attempt.refused (error : Bytes) (tempFail : Bool) (commands : List Bytes) : Attempt :=
  ⟨false, error, tempFail, commands, none, []⟩

/-- `EHLO`, or `HELO` if that is refused. -/
def sayHello (replies : List (Option Reply)) : List Bytes × Option Bytes × List (Option Reply) :=
  match sendCmds [(ascii "EHLO ncloud", 2)] replies with
  | (sent, none, replies) => (sent, none, replies)
  | (sent, some _, replies) =>
      let (sent', err, replies) := sendCmds [(ascii "HELO ncloud", 2)] replies
      (sent ++ sent', err, replies)

/-- The data and what comes after, when the server has asked for them. -/
def sendData (data : Bytes) (commands : List Bytes) : List (Option Reply) → Attempt
  | some final :: _ =>
      if final.code / 100 ≠ 2 then ⟨false, final.text, final.code / 100 = 4, commands, some data, []⟩
      else ⟨true, [], false, commands, some data, ascii "QUIT" ++ crlf⟩
  | _ => ⟨false, ascii "no final DATA response", false, commands, some data, []⟩

/-- `try_send_once`, given the replies of the server. -/
def trySendOnce (stamps : Stamps) (mxHost fromAddr toAddr subject body : Bytes)
    (attachments : List SMTPAttachment) (replies : List (Option Reply)) : Attempt :=
  match replies with
  | some greeting :: replies =>
      if greeting.code / 100 ≠ 2 then .refused greeting.text (greeting.code / 100 = 4) []
      else
        match sayHello replies with
        | (hello, some err, _) => .refused err false hello
        | (hello, none, replies) =>
            match sendCmds [(ascii "MAIL FROM:<" ++ fromAddr ++ ascii ">", 2),
              (ascii "RCPT TO:<" ++ toAddr ++ ascii ">", 2), (ascii "DATA", 3)] replies with
            | (sent, some err, _) => .refused err (err.head? = some 52) (hello ++ sent)
            | (sent, none, replies) =>
                sendData (dataSection (buildMessage stamps fromAddr toAddr subject body [] [] [] attachments))
                  (hello ++ sent) replies
  | _ => .refused (ascii "no greeting from " ++ mxHost) false []

/-! ## The server -/

/-- The longest line that `read_line_fd` takes. -/
def maxCrlfLine : Nat := 16384

/-- A dot less in front of a line that begins with two. -/
def unstuff : Bytes → Bytes
  | 46 :: 46 :: line => 46 :: line
  | line => line

/-- The loop of `handle_data_mode`, for at most so many lines: the lines up to the single
dot, and what is left for the next command. -/
def readData : (turns : Nat) → Reader (List Bytes)
  | 0, _ => none
  | turns + 1, input =>
      match readCrlf maxCrlfLine input with
      | none => none
      | some (line, rest) =>
          if line = ascii "." then some ([], rest)
          else (readData turns rest).map (fun (lines, rest) => (unstuff line :: lines, rest))

/-- `handle_data_mode` up to the end of the data. -/
def handleDataMode (input : Bytes) : Option (List Bytes × Bytes) := readData (input.length + 1) input

/-- A line that does not arrive as it was sent. -/
def IsDotLine (line : Bytes) : Prop := line = ascii "." ∨ ascii ".." <+: line

instance : DecidablePred IsDotLine := fun _ => inferInstanceAs (Decidable (_ ∨ _))

/-! ## Lines without dots -/

/-- A text none of whose lines begins with a dot that matters. -/
def NoDotLine (s : Bytes) : Prop := ∀ line ∈ splitCrlf s, ¬ IsDotLine line

instance : DecidablePred NoDotLine := fun s => inferInstanceAs (Decidable (∀ line ∈ splitCrlf s, ¬ IsDotLine line))

theorem head?_of_isDotLine {line : Bytes} (h : IsDotLine line) : line.head? = some 46 := by
  rcases h with rfl | ⟨t, rfl⟩
  · rfl
  · rfl

/-- One line that begins with something else. -/
theorem noDotLine_of_plain {s : Bytes} (hlf : lf ∉ s) (hhead : s.head? ≠ some 46) : NoDotLine s := by
  intro line hline hdot
  have hone : splitCrlf s = [s] := isLine_of_notMem hlf
  rw [hone, List.mem_singleton] at hline
  exact hhead (hline ▸ head?_of_isDotLine hdot)

theorem noDotLine_of_notMem {s : Bytes} (h : 46 ∉ s) : NoDotLine s := by
  intro line hline hdot
  have hmem : 46 ∈ line := List.mem_of_head? (head?_of_isDotLine hdot)
  exact h (mem_of_mem_splitCrlf hline hmem (by decide))

/-! ## What the header fields are made of -/

theorem mem_of_mem_trim {s : Bytes} {b : UInt8} (h : b ∈ trim s) : b ∈ s :=
  (List.dropWhile_suffix _).subset ((List.rdropWhile_prefix _ _).subset h)

theorem not_isBreak_of_mem_step {out : Bytes} (hout : ∀ b ∈ out, ¬ IsBreak b) (c : UInt8) :
    ∀ b ∈ sanitizeStep out c, ¬ IsBreak b := by
  intro b hb
  rw [sanitizeStep] at hb
  split at hb
  · split at hb
    · rcases List.mem_append.mp hb with hb | hb
      · exact hout b hb
      · rw [List.mem_singleton.mp hb]
        decide
    · exact hout b hb
  · rename_i hc
    split at hb
    · exact hout b hb
    · rcases List.mem_append.mp hb with hb | hb
      · exact hout b hb
      · rw [List.mem_singleton.mp hb]
        exact hc

/-- No line break is left. -/
theorem not_isBreak_of_mem_sanitize {s : Bytes} {b : UInt8} (h : b ∈ sanitizeHeaderText s) : ¬ IsBreak b := by
  have hfold : ∀ (s out : Bytes), (∀ b ∈ out, ¬ IsBreak b) → ∀ b ∈ s.foldl sanitizeStep out, ¬ IsBreak b := by
    intro s
    induction s with
    | nil => exact fun out hout => hout
    | cons c s ih => exact fun out hout => ih _ (not_isBreak_of_mem_step hout c)
  exact hfold s [] nofun b (mem_of_mem_trim h)

theorem not_isBreak_of_mem_quote {s : Bytes} {b : UInt8} (h : b ∈ quoteHeaderPhrase s) : ¬ IsBreak b := by
  rcases List.mem_cons.mp h with rfl | h
  · decide
  · rcases List.mem_append.mp h with h | h
    · obtain ⟨c, -, hc⟩ := List.mem_flatMap.mp h
      rcases List.mem_append.mp hc with hc | hc
      · split at hc
        · rw [List.mem_singleton.mp hc]
          decide
        · exact absurd hc List.not_mem_nil
      · split at hc
        · exact absurd hc List.not_mem_nil
        · rename_i hbreak
          rw [List.mem_singleton.mp hc]
          exact hbreak
    · rw [List.mem_singleton.mp h]
      decide

theorem not_isBreak_of_mem_contentType {s : Bytes} {b : UInt8} (h : b ∈ sanitizeContentType s) : ¬ IsBreak b := by
  have hdefault : ∀ b ∈ ascii "application/octet-stream", ¬ IsBreak b := by decide +kernel
  rw [sanitizeContentType] at h
  split at h
  · exact hdefault b h
  · split at h
    · exact not_isBreak_of_mem_sanitize h
    · exact hdefault b h

/-- What is not in the alphabet is not written. -/
theorem base64Char_ne {c : UInt8} (hzero : c ≠ 0) (htable : c ∉ base64Table) (n : UInt8) : c ≠ base64Char n := by
  rintro rfl
  rw [base64Char, List.getD_eq_getElem?_getD] at hzero htable
  cases hget : base64Table[n.toNat]? with
  | none =>
      rw [hget] at hzero
      exact hzero rfl
  | some b =>
      rw [hget] at htable
      exact htable (List.mem_of_getElem? hget)

theorem notMem_base64Chars {c : UInt8} (hzero : c ≠ 0) (hpad : c ≠ 61) (htable : c ∉ base64Table) (data : Bytes) :
    c ∉ base64Chars data := by
  have hchar := base64Char_ne hzero htable
  induction data using base64Chars.induct with
  | case1 => exact List.not_mem_nil
  | case2 a =>
      simp only [base64Chars, List.mem_cons, List.not_mem_nil, or_false, not_or]
      exact ⟨hchar _, hchar _, hpad, hpad⟩
  | case3 a b =>
      simp only [base64Chars, List.mem_cons, List.not_mem_nil, or_false, not_or]
      exact ⟨hchar _, hchar _, hchar _, hpad⟩
  | case4 a b c rest ih =>
      simp only [base64Chars, List.mem_cons, not_or]
      exact ⟨hchar _, hchar _, hchar _, hchar _, ih⟩

theorem notMem_emitAll {lineLen : Nat} {cs : Bytes} (h : 46 ∉ cs) : 46 ∉ emitAll lineLen cs := by
  induction cs generalizing lineLen with
  | nil => exact List.not_mem_nil
  | cons c cs ih =>
      rw [List.mem_cons, not_or] at h
      rw [emitAll]
      split
      · simp only [List.mem_append, List.mem_cons, not_or]
        exact ⟨by decide, h.1, ih h.2⟩
      · simp only [List.mem_cons, not_or]
        exact ⟨h.1, ih h.2⟩

theorem notMem_hexText {c : UInt8} (hzero : c ≠ 0) (hdigits : c ∉ ascii "0123456789abcdef") (n : Nat) :
    c ∉ hexText n := by
  intro h
  obtain ⟨i, -, hi⟩ := List.mem_map.mp h
  rw [hexDigit, List.getD_eq_getElem?_getD] at hi
  cases hget : (ascii "0123456789abcdef")[n / 16 ^ i % 16]? with
  | none =>
      rw [hget] at hi
      exact hzero hi.symm
  | some b =>
      rw [hget, Option.getD_some] at hi
      exact hdigits (hi ▸ List.mem_of_getElem? hget)

theorem lf_notMem_boundary (stamps : Stamps) : lf ∉ mimeBoundaryFor stamps := by
  have hfirst : lf ∉ ascii "----=_NCloud_" := by decide
  have hsep : lf ∉ ascii "_" := by decide
  rw [mimeBoundaryFor]
  simp only [List.mem_append, not_or]
  exact ⟨⟨⟨hfirst, lf_notMem_text _⟩, hsep⟩, notMem_hexText (by decide) (by decide) _⟩

/-! ## The lines of a message -/

theorem splitCrlf_pieces (pieces : List Bytes) :
    splitCrlf (pieces.flatMap (fun line => line ++ crlf)) = pieces.flatMap splitCrlf ++ [[]] := by
  induction pieces with
  | nil => exact isLine_nil
  | cons piece pieces ih =>
      rw [List.flatMap_cons, List.append_assoc, splitCrlf_append, ih, List.flatMap_cons, List.append_assoc]

/-- What is written with a line end behind it has its own lines. -/
theorem noDotLine_flatMap_iff (pieces : List Bytes) :
    NoDotLine (pieces.flatMap (fun line => line ++ crlf)) ↔ ∀ piece ∈ pieces, NoDotLine piece := by
  have hempty : ¬ IsDotLine [] := by decide
  rw [NoDotLine, splitCrlf_pieces]
  constructor
  · intro h piece hpiece line hline
    exact h line (List.mem_append_left _ (List.mem_flatMap.mpr ⟨piece, hpiece, hline⟩))
  · intro h line hline
    rcases List.mem_append.mp hline with hline | hline
    · obtain ⟨piece, hpiece, hline⟩ := List.mem_flatMap.mp hline
      exact h piece hpiece line hline
    · rw [List.mem_singleton.mp hline]
      exact hempty

/-- A field with a fixed beginning and no line break. -/
theorem noDotLine_field {lead rest : Bytes} (hlead : lf ∉ lead) (hhead : lead.head?.any (· ≠ 46) = true)
    (hrest : lf ∉ rest) : NoDotLine (lead ++ rest) := by
  refine noDotLine_of_plain ?_ ?_
  · rw [List.mem_append, not_or]
    exact ⟨hlead, hrest⟩
  · cases lead with
    | nil => exact absurd hhead Bool.false_ne_true
    | cons b lead =>
        rintro ⟨⟩
        exact Bool.false_ne_true hhead

theorem lf_notMem_quote (s : Bytes) : lf ∉ quoteHeaderPhrase s :=
  fun h => not_isBreak_of_mem_quote h (.inr rfl)

/-- **Attachments are sent as they are.** -/
theorem noDotLine_attachmentLines {boundary : Bytes} (hboundary : lf ∉ boundary) (attachment : SMTPAttachment) :
    ∀ piece ∈ attachmentLines boundary attachment, NoDotLine piece := by
  have htype : lf ∉ sanitizeContentType attachment.contentType :=
    fun h => not_isBreak_of_mem_contentType h (.inr rfl)
  have hname : lf ∉ ascii "; name=" := by decide
  intro piece hpiece
  rw [attachmentLines] at hpiece
  simp only [List.mem_cons, List.not_mem_nil, or_false] at hpiece
  rcases hpiece with rfl | rfl | rfl | rfl | rfl | rfl
  · exact noDotLine_field (by decide) (by decide) hboundary
  · rw [List.append_assoc, List.append_assoc]
    refine noDotLine_field (by decide) (by decide) ?_
    simp only [List.mem_append, not_or]
    exact ⟨htype, hname, lf_notMem_quote _⟩
  · exact noDotLine_of_plain (by decide) (by decide)
  · exact noDotLine_field (by decide) (by decide) (lf_notMem_quote _)
  · exact noDotLine_of_plain (by decide) (by decide)
  · exact noDotLine_of_notMem (notMem_emitAll (notMem_base64Chars (by decide) (by decide) (by decide +kernel) _))

/-- Only the body matters. -/
theorem noDotLine_contentLines_iff (stamps : Stamps) (body : Bytes) (attachments : List SMTPAttachment) :
    (∀ piece ∈ contentLines stamps body attachments, NoDotLine piece) ↔ NoDotLine body := by
  have hmixed : lf ∉ ascii "Content-Type: multipart/mixed; boundary=" := by decide
  have hdashes : lf ∉ mimeBoundaryFor stamps ++ ascii "--" := by
    rw [List.mem_append, not_or]
    exact ⟨lf_notMem_boundary stamps, by decide⟩
  rw [contentLines]
  constructor
  · intro h
    split at h
    · exact h body (by simp)
    · exact h body (by simp)
  · intro hbody piece hpiece
    split at hpiece
    · simp only [List.mem_cons, List.not_mem_nil, or_false] at hpiece
      rcases hpiece with rfl | rfl | rfl | rfl
      · exact noDotLine_of_plain (by decide) (by decide)
      · exact noDotLine_of_plain (by decide) (by decide)
      · exact noDotLine_of_plain (by decide) (by decide)
      · exact hbody
    · dsimp only at hpiece
      rw [List.mem_append, List.mem_append] at hpiece
      rcases hpiece with (hpiece | hpiece) | hpiece
      · simp only [List.mem_cons, List.not_mem_nil, or_false] at hpiece
        rcases hpiece with rfl | rfl | rfl | rfl | rfl | rfl | rfl | rfl
        · exact noDotLine_field hmixed (by decide) (lf_notMem_quote _)
        · exact noDotLine_of_plain (by decide) (by decide)
        · exact noDotLine_of_plain (by decide) (by decide)
        · exact noDotLine_field (by decide) (by decide) (lf_notMem_boundary stamps)
        · exact noDotLine_of_plain (by decide) (by decide)
        · exact noDotLine_of_plain (by decide) (by decide)
        · exact noDotLine_of_plain (by decide) (by decide)
        · exact hbody
      · obtain ⟨attachment, -, hpiece⟩ := List.mem_flatMap.mp hpiece
        exact noDotLine_attachmentLines (lf_notMem_boundary stamps) attachment piece hpiece
      · rw [List.mem_singleton.mp hpiece, List.append_assoc]
        exact noDotLine_field (by decide) (by decide) hdashes

/-- **The lines that matter** are those of the body, and of the fields with addresses if
these have line breaks in them. -/
theorem noDotLine_buildMessage_iff (stamps : Stamps) (fromAddr toAddr subject body : Bytes)
    (attachments : List SMTPAttachment) :
    NoDotLine (buildMessage stamps fromAddr toAddr subject body [] [] [] attachments) ↔
      NoDotLine body ∧
        ∀ field ∈ [fromField [] fromAddr, toField toAddr, messageIdField stamps fromAddr], NoDotLine field := by
  have hsubject : NoDotLine (ascii "Subject: " ++ sanitizeHeaderText subject) :=
    noDotLine_field (by decide) (by decide) (fun h => not_isBreak_of_mem_sanitize h (.inr rfl))
  have hdate : NoDotLine (ascii "Date: " ++ stamps.date) :=
    noDotLine_field (by decide) (by decide) (fun h => stamps.date_plain lf h (.inr rfl))
  have hmailer : NoDotLine (ascii "X-Mailer: NCloud") := noDotLine_of_plain (by decide) (by decide)
  have hversion : NoDotLine (ascii "MIME-Version: 1.0") := noDotLine_of_plain (by decide) (by decide)
  have hnone : ∀ x : Bytes, ¬ (([] : Bytes) ≠ [] ∧ ([] : Bytes) ≠ x) := fun x h => h.1 rfl
  rw [buildMessage, noDotLine_flatMap_iff, ← noDotLine_contentLines_iff stamps body attachments, messageLines,
    if_neg (hnone fromAddr), if_neg (hnone fromAddr)]
  simp only [List.forall_mem_append, List.forall_mem_cons]
  constructor
  · rintro ⟨⟨⟨⟨⟨hfrom, -⟩, -⟩, -⟩, hto, -, -, hid, -⟩, hcontent⟩
    exact ⟨hcontent, hfrom, hto, hid, nofun⟩
  · rintro ⟨hcontent, hfrom, hto, hid, -⟩
    exact ⟨⟨⟨⟨⟨hfrom, nofun⟩, nofun⟩, nofun⟩, hto, hsubject, hdate, hid, hmailer, hversion, nofun⟩, hcontent⟩

/-! ## What arrives -/

theorem unstuff_eq_self_iff (line : Bytes) : unstuff line = line ↔ ¬ ascii ".." <+: line := by
  constructor
  · rintro h ⟨t, rfl⟩
    have hlen := congrArg List.length h
    exact absurd hlen (Nat.ne_of_lt (Nat.lt_succ_self _))
  · intro h
    unfold unstuff
    split
    · rename_i line
      exact absurd ⟨line, rfl⟩ h
    · rfl

/-- **One line** that is not the end. -/
theorem readData_cons {line : Bytes} (hline : IsLine line) (hlen : line.length < maxCrlfLine)
    (hdot : line ≠ ascii ".") (turns : Nat) (rest : Bytes) :
    readData (turns + 1) (line ++ (crlf ++ rest)) =
      (readData turns rest).map (fun (lines, rest) => (unstuff line :: lines, rest)) := by
  rw [readData, readCrlf_append hline hlen]
  dsimp only
  rw [if_neg hdot]

theorem readData_dot (turns : Nat) (rest : Bytes) :
    readData (turns + 1) (ascii "." ++ (crlf ++ rest)) = some ([], rest) := by
  have hline : IsLine (ascii ".") := isLine_of_notMem (by decide)
  rw [readData, readCrlf_append hline (by decide)]
  exact if_pos rfl

/-- **Lines arrive as they were sent** if and only if none of them has dots that matter. -/
theorem readData_lines_iff {lines : List Bytes} (hline : ∀ l ∈ lines, IsLine l)
    (hlen : ∀ l ∈ lines, l.length < maxCrlfLine) {turns : Nat} (hturns : lines.length < turns) (rest : Bytes) :
    readData turns (lines.flatMap (fun l => l ++ crlf) ++ (ascii "." ++ (crlf ++ rest))) = some (lines, rest) ↔
      ∀ l ∈ lines, ¬ IsDotLine l := by
  induction lines generalizing turns with
  | nil =>
      obtain ⟨turns, rfl⟩ : ∃ n, turns = n + 1 := ⟨turns - 1, by omega⟩
      exact iff_of_true (readData_dot turns rest) nofun
  | cons l lines ih =>
      obtain ⟨turns, rfl⟩ : ∃ n, turns = n + 1 := ⟨turns - 1, by omega⟩
      rw [List.length_cons] at hturns
      have ih := ih (fun x hx => hline x (List.mem_cons_of_mem _ hx)) (fun x hx => hlen x (List.mem_cons_of_mem _ hx))
        (show lines.length < turns by omega)
      have hl := hline l List.mem_cons_self
      have hfits := hlen l List.mem_cons_self
      rw [List.flatMap_cons, List.append_assoc, List.append_assoc, List.forall_mem_cons, ← ih]
      by_cases hdot : l = ascii "."
      · -- the data end here
        refine iff_of_false ?_ (fun h => h.1 (.inl hdot))
        rw [hdot, readData_dot]
        exact fun h => absurd (congrArg (fun r => (r.map Prod.fst)) h) (by simp)
      · rw [readData_cons hl hfits hdot]
        constructor
        · intro h
          obtain ⟨⟨lines', rest'⟩, hread, heq⟩ := Option.map_eq_some_iff.mp h
          obtain ⟨hcons, rfl⟩ := Prod.mk.inj heq
          obtain ⟨hself, rfl⟩ := List.cons.inj hcons
          refine ⟨fun hbad => ?_, hread⟩
          rcases hbad with heq | hpre
          · exact hdot heq
          · exact (unstuff_eq_self_iff l).mp hself hpre
        · rintro ⟨hgood, hread⟩
          rw [hread, Option.map_some, (unstuff_eq_self_iff l).mpr (fun hpre => hgood (.inr hpre))]

/-- The section that is sent is the lines of the message, an empty one and a dot. -/
theorem dataSection_eq (msg rest : Bytes) :
    dataSection msg ++ rest = (splitCrlf msg).flatMap (fun l => l ++ crlf) ++ (ascii "." ++ (crlf ++ rest)) := by
  rw [flatMap_splitCrlf, dataSection]
  simp only [List.append_assoc]

theorem length_le_flatMap_crlf (lines : List Bytes) : lines.length ≤ (lines.flatMap (fun l => l ++ crlf)).length := by
  induction lines with
  | nil => exact Nat.le_refl _
  | cons l lines ih =>
      have hcrlf : crlf.length = 2 := rfl
      rw [List.flatMap_cons, List.length_append, List.length_append, List.length_cons]
      omega

theorem data_of_trySendOnce {stamps : Stamps} {mxHost fromAddr toAddr subject body : Bytes}
    {attachments : List SMTPAttachment} {replies : List (Option Reply)} {data : Bytes}
    (h : (trySendOnce stamps mxHost fromAddr toAddr subject body attachments replies).data = some data) :
    data = dataSection (buildMessage stamps fromAddr toAddr subject body [] [] [] attachments) := by
  unfold trySendOnce at h
  split at h
  · split at h
    · exact absurd h nofun
    · split at h
      · exact absurd h nofun
      · split at h
        · exact absurd h nofun
        · rw [sendData.eq_def] at h
          split at h
          · split at h
            · exact (Option.some.inj h).symm
            · exact (Option.some.inj h).symm
          · exact (Option.some.inj h).symm
  · exact absurd h nofun

/-- **A message arrives as it was built**, with an empty line at its end, and what follows
it is where commands begin, if and only if no line of the body is a single dot or begins
with two; the same goes for the lines of addresses that have line breaks in them. -/
theorem transparent_trySendOnce_iff (stamps : Stamps) (mxHost fromAddr toAddr subject body : Bytes)
    (attachments : List SMTPAttachment) (replies : List (Option Reply)) {data : Bytes}
    (hdata : (trySendOnce stamps mxHost fromAddr toAddr subject body attachments replies).data = some data)
    (hlen : ∀ l ∈ splitCrlf (buildMessage stamps fromAddr toAddr subject body [] [] [] attachments),
      l.length < maxCrlfLine) (rest : Bytes) :
    handleDataMode (data ++ rest) =
        some (splitCrlf (buildMessage stamps fromAddr toAddr subject body [] [] [] attachments), rest) ↔
      NoDotLine body ∧
        ∀ field ∈ [fromField [] fromAddr, toField toAddr, messageIdField stamps fromAddr], NoDotLine field := by
  rw [data_of_trySendOnce hdata, ← noDotLine_buildMessage_iff stamps fromAddr toAddr subject body attachments,
    handleDataMode, dataSection_eq]
  refine readData_lines_iff (fun l hl => isLine_of_mem_splitCrlf hl) hlen ?_ rest
  have hle := length_le_flatMap_crlf
    (splitCrlf (buildMessage stamps fromAddr toAddr subject body [] [] [] attachments))
  rw [List.length_append]
  omega

/-- Some moment. -/
def someStamps : Stamps := ⟨ascii "now", by decide +kernel, 1, 2, 3, 4⟩

/-- A server that takes everything. -/
def willing : List (Option Reply) :=
  [some ⟨220, []⟩, some ⟨250, []⟩, some ⟨250, []⟩, some ⟨250, []⟩, some ⟨354, []⟩, some ⟨250, []⟩, some ⟨221, []⟩]

/-- What is sent for a body. -/
def someMessage (body : Bytes) : Bytes :=
  buildMessage someStamps (ascii "a@x") (ascii "b@y") (ascii "s") body [] [] [] []

theorem transparent_trySendOnce_iff_plain :
    handleDataMode (dataSection (someMessage (ascii ".a")) ++ []) = some (splitCrlf (someMessage (ascii ".a")), []) :=
  (transparent_trySendOnce_iff someStamps (ascii "y") (ascii "a@x") (ascii "b@y") (ascii "s") (ascii ".a") []
    willing rfl (by decide) []).mpr (by decide)

/-- A body that ends the data and goes on with a command. -/
def dotBody : Bytes := ascii "." ++ crlf ++ ascii "RSET"

/-- The second line of the body is the next command. -/
theorem not_transparent_dotBody :
    (trySendOnce someStamps (ascii "y") (ascii "a@x") (ascii "b@y") (ascii "s") dotBody [] willing).data =
        some (dataSection (someMessage dotBody)) ∧
      (∃ lines, handleDataMode (dataSection (someMessage dotBody)) =
        some (lines, ascii "RSET" ++ crlf ++ crlf ++ ascii "." ++ crlf)) ∧
      handleDataMode (dataSection (someMessage dotBody)) ≠ some (splitCrlf (someMessage dotBody), []) := by
  have hread : handleDataMode (dataSection (someMessage dotBody)) =
      some ((splitCrlf (someMessage [])).dropLast.dropLast, ascii "RSET" ++ crlf ++ crlf ++ ascii "." ++ crlf) := by
    decide +kernel
  refine ⟨rfl, ⟨_, hread⟩, ?_⟩
  rw [hread]
  exact fun h => absurd (Prod.mk.inj (Option.some.inj h)).2 (by decide)

end NCloud.Protocol
