import NCloud.Lib.Lines
import NCloud.Protocol.Outbound

/-!
# What an address can do to a message

`build_message` quotes display names and cleans subjects, file names and content types, and
`try_send_once` writes its commands one a line. The addresses go into both as they are. So
the lines that arrive are the ones that were meant, for every way to tell lines, if and only
if neither address has a line end in it.
-/

namespace NCloud.Smtp

open Wire Protocol

/-! ## What is meant -/

/-- The header fields that `build_message` names. -/
def headerFields (stamps : Stamps) (fromAddr toAddr subject replyToAddr fromDisplay originalSender : Bytes)
    (attachments : List SMTPAttachment) : List Bytes :=
  [fromField fromDisplay fromAddr] ++
    (if replyToAddr ≠ [] ∧ replyToAddr ≠ fromAddr then [ascii "Reply-To: <" ++ replyToAddr ++ ascii ">"] else []) ++
    (if originalSender ≠ [] ∧ originalSender ≠ fromAddr then
      [ascii "X-NCloud-From: <" ++ originalSender ++ ascii ">"] else []) ++
    [toField toAddr, ascii "Subject: " ++ sanitizeHeaderText subject, ascii "Date: " ++ stamps.date,
      messageIdField stamps fromAddr, ascii "X-Mailer: NCloud", ascii "MIME-Version: 1.0"] ++
    (if attachments = [] then [ascii "Content-Type: text/plain; charset=UTF-8", ascii "Content-Transfer-Encoding: 8bit"]
      else [ascii "Content-Type: multipart/mixed; boundary=" ++ quoteHeaderPhrase (mimeBoundaryFor stamps)])

/-- The lines that an attachment begins with. -/
def partHeader (boundary : Bytes) (attachment : SMTPAttachment) : List Bytes :=
  (attachmentLines boundary attachment).take 5

/-- The commands in front of the message. -/
def dialogue (hello : List Bytes) (fromAddr toAddr : Bytes) : List Bytes :=
  hello ++ [ascii "MAIL FROM:<" ++ fromAddr ++ ascii ">", ascii "RCPT TO:<" ++ toAddr ++ ascii ">", ascii "DATA"]

/-- One greeting, or the older one after it. -/
def hellos : List (List Bytes) := [[ascii "EHLO ncloud"], [ascii "EHLO ncloud", ascii "HELO ncloud"]]

/-! ## What arrives -/

/-- The lines of a message up to the empty one. -/
def headerSection (r : LineEnds) (msg : Bytes) : List Bytes := (r.lines msg).takeWhile (fun l => decide (l ≠ []))

/-- The commands that were meant, all of them if it comes to the message, and nothing else. -/
def Spoken (r : LineEnds) (fromAddr toAddr : Bytes) (attempt : Attempt) : Prop :=
  ∃ hello ∈ hellos, ∃ sent, sent <+: dialogue hello fromAddr toAddr ∧
    (attempt.data ≠ none → sent = dialogue hello fromAddr toAddr) ∧ r.lines attempt.commands.flatten = sent ++ [[]]

/-- `relay_display_name_for`. -/
def relayDisplayNameFor (originalSender : Bytes) : Bytes :=
  let user := trim (upTo [64] originalSender)
  if user = [] then ascii "NCloud" else ascii "NCloud " ++ user

/-- What the environment says of the relay. -/
structure RelayEnv where
  user : Bytes
  sender : Option Bytes
  replyTo : Option Bytes
  displayName : Option Bytes

/-- Where the relay says its mail is from. -/
def RelayEnv.fromAddr (env : RelayEnv) : Bytes := env.sender.getD env.user

/-- Where replies go. -/
def RelayEnv.replyToAddr (env : RelayEnv) : Bytes := env.replyTo.getD env.fromAddr

/-- Whose name is shown. -/
def RelayEnv.displayFrom (env : RelayEnv) (fromAddr : Bytes) : Bytes :=
  let display := env.displayName.getD []
  if display = [] ∧ env.fromAddr ≠ fromAddr then relayDisplayNameFor fromAddr else display

/-- The message of `smtp_send_via_curl_cli`, and of `smtp_send_via_relay`. -/
def relayMessage (env : RelayEnv) (stamps : Stamps) (fromAddr toAddr subject body : Bytes)
    (attachments : List SMTPAttachment) : Bytes :=
  buildMessage stamps env.fromAddr toAddr subject body env.replyToAddr (env.displayFrom fromAddr) fromAddr attachments

/-- The header section is the one that was meant, and so is that of every attachment. -/
structure Headed (r : LineEnds) (stamps : Stamps) (fields : List Bytes) (attachments : List SMTPAttachment)
    (msg : Bytes) : Prop where
  fields : headerSection r msg = fields
  parts : ∀ attachment ∈ attachments, partHeader (mimeBoundaryFor stamps) attachment <:+: r.lines msg

/-- **Nothing is put in.** For the relay, the addresses in its environment are taken to be lines. -/
structure NoInjection (r : LineEnds) (fromAddr toAddr subject body : Bytes) (attachments : List SMTPAttachment) :
    Prop where
  commands : ∀ stamps mxHost replies,
    Spoken r fromAddr toAddr (trySendOnce stamps mxHost fromAddr toAddr subject body attachments replies)
  direct : ∀ stamps, Headed r stamps (headerFields stamps fromAddr toAddr subject [] [] [] attachments) attachments
    (buildMessage stamps fromAddr toAddr subject body [] [] [] attachments)
  relayed : ∀ stamps (env : RelayEnv), r.OneLine env.fromAddr → r.OneLine env.replyToAddr →
    Headed r stamps
      (headerFields stamps env.fromAddr toAddr subject env.replyToAddr (env.displayFrom fromAddr) fromAddr attachments)
      attachments (relayMessage env stamps fromAddr toAddr subject body attachments)

/-! ## The commands -/

/-- Commands go out in order, up to the one that is refused. -/
theorem sendCmds_prefix (cmds : List (Bytes × Nat)) (replies : List (Option Reply)) :
    ∃ sent, sent <+: cmds.map Prod.fst ∧ (sendCmds cmds replies).1 = sent.map (fun c => c ++ crlf) ∧
      ((sendCmds cmds replies).2.1 = none → sent = cmds.map Prod.fst) := by
  induction cmds generalizing replies with
  | nil => exact ⟨[], List.prefix_rfl, rfl, fun _ => rfl⟩
  | cons c cmds ih =>
      obtain ⟨cmd, wantClass⟩ := c
      rw [sendCmds]
      cases hreply : expectCodeClass wantClass replies with
      | mk err replies' =>
          cases err with
          | some err => exact ⟨[cmd], ⟨cmds.map Prod.fst, rfl⟩, rfl, nofun⟩
          | none =>
              obtain ⟨sent, hpre, hsent, hall⟩ := ih replies'
              refine ⟨cmd :: sent, (List.prefix_cons_inj cmd).mpr hpre, ?_, ?_⟩
              · rw [List.map_cons, ← hsent]
              · intro hnone
                rw [List.map_cons, hall hnone]

/-- One greeting goes out, or two. -/
theorem sayHello_prefix (replies : List (Option Reply)) :
    ∃ hello ∈ hellos, (sayHello replies).1 = hello.map (fun c => c ++ crlf) := by
  rw [sayHello, sendCmds]
  cases hreply : expectCodeClass 2 replies with
  | mk err replies' =>
      cases err with
      | none => exact ⟨[ascii "EHLO ncloud"], by decide, rfl⟩
      | some err =>
          refine ⟨[ascii "EHLO ncloud", ascii "HELO ncloud"], by decide, ?_⟩
          dsimp only
          rw [sendCmds]
          cases hreply' : expectCodeClass 2 replies' with
          | mk err' replies'' =>
              cases err' with
              | none => rfl
              | some err' => rfl

/-- **What goes out in front of the message.** -/
theorem trySendOnce_commands (stamps : Stamps) (mxHost fromAddr toAddr subject body : Bytes)
    (attachments : List SMTPAttachment) (replies : List (Option Reply)) :
    ∃ hello ∈ hellos, ∃ sent, sent <+: dialogue hello fromAddr toAddr ∧
      ((trySendOnce stamps mxHost fromAddr toAddr subject body attachments replies).data ≠ none →
        sent = dialogue hello fromAddr toAddr) ∧
      (trySendOnce stamps mxHost fromAddr toAddr subject body attachments replies).commands =
        sent.map (fun c => c ++ crlf) := by
  have hnothing : ∃ hello ∈ hellos, ([] : List Bytes) <+: dialogue hello fromAddr toAddr :=
    ⟨_, List.mem_cons_self, List.nil_prefix⟩
  unfold trySendOnce
  split
  · rename_i greeting replies'
    split
    · -- the server does not want to talk
      obtain ⟨hello, hmem, hpre⟩ := hnothing
      exact ⟨hello, hmem, [], hpre, fun h => absurd rfl h, rfl⟩
    · obtain ⟨hello, hmem, hhello⟩ := sayHello_prefix replies'
      refine ⟨hello, hmem, ?_⟩
      split
      · rename_i sent err rest heq
        rw [heq] at hhello
        exact ⟨hello, List.prefix_append _ _, fun h => absurd rfl h, hhello⟩
      · rename_i sent rest heq
        rw [heq] at hhello
        obtain ⟨sent', hpre, hsent, hall⟩ := sendCmds_prefix
          [(ascii "MAIL FROM:<" ++ fromAddr ++ ascii ">", 2), (ascii "RCPT TO:<" ++ toAddr ++ ascii ">", 2),
            (ascii "DATA", 3)] rest
        split
        · rename_i sent'' err rest' heq'
          rw [heq'] at hsent
          refine ⟨hello ++ sent', (List.prefix_append_right_inj hello).mpr hpre, fun h => absurd rfl h, ?_⟩
          rw [List.map_append, ← hhello, ← hsent]
          rfl
        · rename_i sent'' rest' heq'
          rw [heq'] at hsent hall
          refine ⟨hello ++ sent', (List.prefix_append_right_inj hello).mpr hpre, fun _ => ?_, ?_⟩
          · rw [hall rfl]
            rfl
          · rw [List.map_append, ← hhello, ← hsent, sendData.eq_def]
            split
            · split
              · rfl
              · rfl
            · rfl
  · obtain ⟨hello, hmem, hpre⟩ := hnothing
    exact ⟨hello, hmem, [], hpre, fun h => absurd rfl h, rfl⟩

/-! ## The fields -/

theorem plain_of_forall {s : Bytes} (h : ∀ b ∈ s, ¬ IsBreak b) : cr ∉ s ∧ lf ∉ s :=
  ⟨fun hmem => h _ hmem (.inl rfl), fun hmem => h _ hmem (.inr rfl)⟩

theorem plain_append {a b : Bytes} (ha : cr ∉ a ∧ lf ∉ a) (hb : cr ∉ b ∧ lf ∉ b) :
    cr ∉ a ++ b ∧ lf ∉ a ++ b := by
  rw [List.mem_append, List.mem_append, not_or, not_or]
  exact ⟨⟨ha.1, hb.1⟩, ha.2, hb.2⟩

theorem plain_quote (s : Bytes) : cr ∉ quoteHeaderPhrase s ∧ lf ∉ quoteHeaderPhrase s :=
  plain_of_forall fun _ hmem => not_isBreak_of_mem_quote hmem

theorem plain_hexText (n : Nat) : cr ∉ hexText n ∧ lf ∉ hexText n :=
  ⟨notMem_hexText (by decide) (by decide) n, notMem_hexText (by decide) (by decide) n⟩

theorem plain_text (n : Nat) : cr ∉ Decimal.text n ∧ lf ∉ Decimal.text n :=
  ⟨fun h => absurd (Decimal.isDigit_of_mem_digits h) (by decide), lf_notMem_text n⟩

theorem plain_boundary (stamps : Stamps) : cr ∉ mimeBoundaryFor stamps ∧ lf ∉ mimeBoundaryFor stamps :=
  plain_append (plain_append (plain_append (by decide) (plain_text _)) (by decide)) (plain_hexText _)

/-- The domain in a message id is part of the address. -/
theorem oneLine_domainPartOr {r : LineEnds} {addr fallback : Bytes} (haddr : r.OneLine addr)
    (hfallback : r.OneLine fallback) : r.OneLine (domainPartOr addr fallback) := by
  rw [domainPartOr]
  cases hbehind : behind [64] addr with
  | none => exact hfallback
  | some part =>
      dsimp only
      split
      · exact hfallback
      · have htrim : trim part <:+: part :=
          ((List.rdropWhile_prefix _ _).isInfix).trans (List.dropWhile_suffix _).isInfix
        exact r.lines_infix haddr (htrim.trans (suffix_of_behind hbehind).isInfix)

variable {r : LineEnds}

theorem closed_plain {s : Bytes} (h : cr ∉ s ∧ lf ∉ s) : r.Closed s := LineEnds.closed_of_plain h.1 h.2

theorem closed_fromField (fromDisplay : Bytes) {fromAddr : Bytes} (h : r.OneLine fromAddr) :
    r.Closed (fromField fromDisplay fromAddr) := by
  refine LineEnds.closed_wrap ?_ (by decide) (by decide) h
  refine plain_append (plain_append (by decide) ?_) (by decide)
  split
  · decide
  · exact plain_append (plain_quote _) (by decide)

theorem closed_toField {toAddr : Bytes} (h : r.OneLine toAddr) : r.Closed (toField toAddr) :=
  LineEnds.closed_wrap (by decide) (by decide) (by decide) h

theorem closed_messageIdField (stamps : Stamps) {fromAddr : Bytes} (h : r.OneLine fromAddr) :
    r.Closed (messageIdField stamps fromAddr) := by
  have hlocalhost : r.OneLine (ascii "localhost") := r.lines_plain (by decide) (by decide)
  have hdomain := oneLine_domainPartOr h hlocalhost
  rw [messageIdField, messageIdFor, ← List.append_assoc, ← List.append_assoc]
  refine LineEnds.closed_wrap ?_ (by decide) (by decide) hdomain
  refine plain_append (by decide) ?_
  exact plain_append (plain_append (plain_append (plain_append (by decide) (plain_text _)) (by decide)) (plain_hexText _))
    (by decide)

/-- **Every field is a line** if the addresses are. -/
theorem closed_headerFields (stamps : Stamps) {fromAddr toAddr subject replyToAddr fromDisplay originalSender : Bytes}
    {attachments : List SMTPAttachment} (hfrom : r.OneLine fromAddr) (hto : r.OneLine toAddr)
    (hreply : replyToAddr ≠ [] → r.OneLine replyToAddr)
    (horiginal : originalSender ≠ [] → r.OneLine originalSender) :
    ∀ field ∈ headerFields stamps fromAddr toAddr subject replyToAddr fromDisplay originalSender attachments,
      r.Closed field ∧ field ≠ [] := by
  have hsubject : cr ∉ sanitizeHeaderText subject ∧ lf ∉ sanitizeHeaderText subject :=
    plain_of_forall fun _ hmem => not_isBreak_of_mem_sanitize hmem
  intro field hfield
  simp only [headerFields, List.mem_append] at hfield
  rcases hfield with (((hfield | hfield) | hfield) | hfield) | hfield
  · rw [List.mem_singleton.mp hfield]
    exact ⟨closed_fromField _ hfrom, List.cons_ne_nil _ _⟩
  · split at hfield
    · rename_i hgiven
      rw [List.mem_singleton.mp hfield]
      exact ⟨LineEnds.closed_wrap (by decide) (by decide) (by decide) (hreply hgiven.1), List.cons_ne_nil _ _⟩
    · exact absurd hfield List.not_mem_nil
  · split at hfield
    · rename_i hgiven
      rw [List.mem_singleton.mp hfield]
      exact ⟨LineEnds.closed_wrap (by decide) (by decide) (by decide) (horiginal hgiven.1), List.cons_ne_nil _ _⟩
    · exact absurd hfield List.not_mem_nil
  · simp only [List.mem_cons, List.not_mem_nil, or_false] at hfield
    rcases hfield with rfl | rfl | rfl | rfl | rfl | rfl
    · exact ⟨closed_toField hto, List.cons_ne_nil _ _⟩
    · exact ⟨closed_plain (plain_append (by decide) hsubject), List.cons_ne_nil _ _⟩
    · exact ⟨closed_plain (plain_append (by decide) (plain_of_forall stamps.date_plain)), List.cons_ne_nil _ _⟩
    · exact ⟨closed_messageIdField stamps hfrom, List.cons_ne_nil _ _⟩
    · exact ⟨closed_plain (by decide), List.cons_ne_nil _ _⟩
    · exact ⟨closed_plain (by decide), List.cons_ne_nil _ _⟩
  · split at hfield
    · simp only [List.mem_cons, List.not_mem_nil, or_false] at hfield
      rcases hfield with rfl | rfl
      · exact ⟨closed_plain (by decide), List.cons_ne_nil _ _⟩
      · exact ⟨closed_plain (by decide), List.cons_ne_nil _ _⟩
    · rw [List.mem_singleton.mp hfield]
      exact ⟨closed_plain (plain_append (by decide) (plain_quote _)), List.cons_ne_nil _ _⟩

/-- Nor can an attachment break out of its own fields. -/
theorem closed_partHeader (stamps : Stamps) (attachment : SMTPAttachment) :
    ∀ line ∈ partHeader (mimeBoundaryFor stamps) attachment, r.Closed line := by
  have htype : cr ∉ sanitizeContentType attachment.contentType ∧ lf ∉ sanitizeContentType attachment.contentType :=
    plain_of_forall fun _ hmem => not_isBreak_of_mem_contentType hmem
  intro line hline
  simp only [partHeader, attachmentLines, List.take_succ_cons, List.take_zero, List.mem_cons, List.not_mem_nil,
    or_false] at hline
  rcases hline with rfl | rfl | rfl | rfl | rfl
  · exact closed_plain (plain_append (by decide) (plain_boundary stamps))
  · exact closed_plain (plain_append (plain_append (plain_append (by decide) htype) (by decide)) (plain_quote _))
  · exact closed_plain (by decide)
  · exact closed_plain (plain_append (by decide) (plain_quote _))
  · exact closed_plain (by decide)

/-! ## The message -/

/-- What follows the empty line. -/
def bodyLines (stamps : Stamps) (body : Bytes) (attachments : List SMTPAttachment) : List Bytes :=
  if attachments = [] then [body]
  else
    let boundary := mimeBoundaryFor stamps
    [ascii "This is a MIME message.", ascii "--" ++ boundary, ascii "Content-Type: text/plain; charset=UTF-8",
      ascii "Content-Transfer-Encoding: 8bit", [], body] ++
      attachments.flatMap (attachmentLines boundary) ++ [ascii "--" ++ boundary ++ ascii "--"]

theorem messageLines_eq (stamps : Stamps) (fromAddr toAddr subject body replyToAddr fromDisplay originalSender : Bytes)
    (attachments : List SMTPAttachment) :
    messageLines stamps fromAddr toAddr subject body replyToAddr fromDisplay originalSender attachments =
      headerFields stamps fromAddr toAddr subject replyToAddr fromDisplay originalSender attachments ++
        [] :: bodyLines stamps body attachments := by
  rw [messageLines, headerFields, contentLines, bodyLines]
  by_cases hnone : attachments = []
  · simp only [if_pos hnone, List.append_assoc, List.cons_append, List.nil_append]
  · simp only [if_neg hnone, List.append_assoc, List.cons_append, List.nil_append]

/-- The lines of an attachment are there, behind something else. -/
theorem bodyLines_split (stamps : Stamps) (body : Bytes) {attachments : List SMTPAttachment}
    {attachment : SMTPAttachment} (hmem : attachment ∈ attachments) : ∃ front back,
      bodyLines stamps body attachments = front ++ partHeader (mimeBoundaryFor stamps) attachment ++ back := by
  obtain ⟨before, after, rfl⟩ := List.append_of_mem hmem
  have hpart : attachmentLines (mimeBoundaryFor stamps) attachment =
      partHeader (mimeBoundaryFor stamps) attachment ++ (attachmentLines (mimeBoundaryFor stamps) attachment).drop 5 :=
    (List.take_append_drop 5 _).symm
  rw [bodyLines, if_neg (by simp)]
  dsimp only
  rw [List.flatMap_append, List.flatMap_cons, hpart]
  exact ⟨[ascii "This is a MIME message.", ascii "--" ++ mimeBoundaryFor stamps,
      ascii "Content-Type: text/plain; charset=UTF-8", ascii "Content-Transfer-Encoding: 8bit", [], body] ++
      before.flatMap (attachmentLines (mimeBoundaryFor stamps)),
    (attachmentLines (mimeBoundaryFor stamps) attachment).drop 5 ++
      (after.flatMap (attachmentLines (mimeBoundaryFor stamps)) ++ [ascii "--" ++ mimeBoundaryFor stamps ++ ascii "--"]),
    by simp only [List.append_assoc]⟩

/-- **A message begins with its fields**, if the addresses in them are lines. -/
theorem headed_buildMessage (stamps : Stamps)
    {fromAddr toAddr subject body replyToAddr fromDisplay originalSender : Bytes} (attachments : List SMTPAttachment)
    (hfrom : r.OneLine fromAddr) (hto : r.OneLine toAddr) (hreply : replyToAddr ≠ [] → r.OneLine replyToAddr)
    (horiginal : originalSender ≠ [] → r.OneLine originalSender) :
    Headed r stamps (headerFields stamps fromAddr toAddr subject replyToAddr fromDisplay originalSender attachments)
      attachments
      (buildMessage stamps fromAddr toAddr subject body replyToAddr fromDisplay originalSender attachments) := by
  have hfields : ∀ field ∈
      headerFields stamps fromAddr toAddr subject replyToAddr fromDisplay originalSender attachments,
      r.Closed field ∧ field ≠ [] := closed_headerFields stamps hfrom hto hreply horiginal
  have hnil : r.Closed [] := closed_plain (by decide)
  constructor
  · -- every field is a line of its own, and the empty line ends the section
    rw [headerSection, buildMessage, messageLines_eq, List.flatMap_append, List.flatMap_cons,
      LineEnds.lines_flatMap (fun field hfield => (hfields field hfield).1), List.append_assoc,
      r.lines_cons _ hnil.oneLine hnil.last, List.takeWhile_append_of_pos]
    · rw [List.takeWhile_cons_of_neg (by simp), List.append_nil]
    · intro field hfield
      rw [decide_eq_true_iff]
      exact (hfields field hfield).2
  · intro attachment hmem
    obtain ⟨front, back, hsplit⟩ := bodyLines_split stamps body hmem
    rw [buildMessage, messageLines_eq, hsplit]
    have hassoc : ∀ fields : List Bytes,
        fields ++ [] :: (front ++ partHeader (mimeBoundaryFor stamps) attachment ++ back) =
          (fields ++ [] :: front) ++ (partHeader (mimeBoundaryFor stamps) attachment ++ back) := by
      intro fields
      simp only [List.append_assoc, List.cons_append]
    have hne : ∀ fields : List Bytes, fields ++ [] :: front ≠ [] :=
      fun fields hnil => absurd (List.append_eq_nil_iff.mp hnil).2 (List.cons_ne_nil _ _)
    rw [hassoc, List.flatMap_append, @List.flatMap_append _ _ (partHeader (mimeBoundaryFor stamps) attachment)]
    exact LineEnds.infix_lines_flatMap (closed_partHeader stamps attachment) (hne _) _

/-! ## The commands arrive as they were meant -/

theorem closed_dialogue {fromAddr toAddr : Bytes} {hello : List Bytes} (hhello : hello ∈ hellos)
    (hfrom : r.OneLine fromAddr) (hto : r.OneLine toAddr) : ∀ cmd ∈ dialogue hello fromAddr toAddr, r.Closed cmd := by
  have hplain : ∀ hello ∈ hellos, ∀ cmd ∈ hello, cr ∉ cmd ∧ lf ∉ cmd := by decide
  intro cmd hcmd
  rcases List.mem_append.mp hcmd with hcmd | hcmd
  · exact closed_plain (hplain hello hhello cmd hcmd)
  · simp only [List.mem_cons, List.not_mem_nil, or_false] at hcmd
    rcases hcmd with rfl | rfl | rfl
    · exact LineEnds.closed_wrap (by decide) (by decide) (by decide) hfrom
    · exact LineEnds.closed_wrap (by decide) (by decide) (by decide) hto
    · exact closed_plain (by decide)

theorem spoken_trySendOnce (stamps : Stamps) (mxHost : Bytes) {fromAddr toAddr : Bytes} (subject body : Bytes)
    (attachments : List SMTPAttachment) (replies : List (Option Reply)) (hfrom : r.OneLine fromAddr)
    (hto : r.OneLine toAddr) :
    Spoken r fromAddr toAddr (trySendOnce stamps mxHost fromAddr toAddr subject body attachments replies) := by
  obtain ⟨hello, hhello, sent, hpre, hall, hcommands⟩ :=
    trySendOnce_commands stamps mxHost fromAddr toAddr subject body attachments replies
  refine ⟨hello, hhello, sent, hpre, hall, ?_⟩
  have hclosed : ∀ cmd ∈ sent, r.Closed cmd :=
    fun cmd hcmd => closed_dialogue hhello hfrom hto cmd (hpre.subset hcmd)
  have hlines := LineEnds.lines_flatMap hclosed []
  rw [List.append_nil, r.lines_plain List.not_mem_nil List.not_mem_nil] at hlines
  rw [hcommands, ← List.flatMap_def, hlines]

/-- An address is in one of the lines that arrive, if it comes to the message. -/
theorem oneLine_of_spoken {fromAddr toAddr : Bytes} {attempt : Attempt} (h : Spoken r fromAddr toAddr attempt)
    (hdata : attempt.data ≠ none) : r.OneLine fromAddr ∧ r.OneLine toAddr := by
  obtain ⟨hello, -, sent, -, hall, hlines⟩ := h
  obtain rfl := hall hdata
  have hmem : ∀ cmd ∈ dialogue hello fromAddr toAddr, r.OneLine cmd := by
    intro cmd hcmd
    have hin : cmd ∈ r.lines attempt.commands.flatten := by
      rw [hlines]
      exact List.mem_append_left _ hcmd
    exact r.lines_of_mem hin
  exact ⟨LineEnds.oneLine_of_wrap (hmem (ascii "MAIL FROM:<" ++ fromAddr ++ ascii ">") (by simp [dialogue])),
    LineEnds.oneLine_of_wrap (hmem (ascii "RCPT TO:<" ++ toAddr ++ ascii ">") (by simp [dialogue]))⟩

/-- A server that takes everything. -/
theorem data_of_willing (stamps : Stamps) (mxHost fromAddr toAddr subject body : Bytes)
    (attachments : List SMTPAttachment) :
    (trySendOnce stamps mxHost fromAddr toAddr subject body attachments willing).data ≠ none := nofun

/-- **What it takes.** Nothing is put into the commands or the fields if and only if there is
no line end in the sender's address, nor in the recipient's. -/
theorem noInjection_iff (r : LineEnds) (fromAddr toAddr subject body : Bytes) (attachments : List SMTPAttachment) :
    NoInjection r fromAddr toAddr subject body attachments ↔ r.OneLine fromAddr ∧ r.OneLine toAddr := by
  constructor
  · intro h
    exact oneLine_of_spoken (h.commands someStamps [] willing) (data_of_willing _ _ _ _ _ _ _)
  · rintro ⟨hfrom, hto⟩
    have hnone : ([] : Bytes) ≠ [] → r.OneLine [] := fun hne => absurd rfl hne
    constructor
    · intro stamps mxHost replies
      exact spoken_trySendOnce stamps mxHost subject body attachments replies hfrom hto
    · intro stamps
      exact headed_buildMessage stamps attachments hfrom hto hnone hnone
    · -- the sender's address is only the original one here
      intro stamps env hsender hreply
      exact headed_buildMessage stamps attachments hsender hto (fun _ => hreply) fun _ => hfrom

/-- A recipient from a form, with another one in it. -/
def twoRecipients : Bytes := ascii "x>" ++ crlf ++ ascii "RCPT TO:<d@e.f"

/-- **Another recipient.** The lines that arrive name both. -/
theorem not_noInjection_twoRecipients :
    crlfEnds.lines (trySendOnce someStamps (ascii "e.f") (ascii "bob@ncloud.local") twoRecipients (ascii "s") (ascii "b")
        [] willing).commands.flatten =
      [ascii "EHLO ncloud", ascii "MAIL FROM:<bob@ncloud.local>", ascii "RCPT TO:<x>", ascii "RCPT TO:<d@e.f>",
        ascii "DATA", []] ∧
      ¬ NoInjection crlfEnds (ascii "bob@ncloud.local") twoRecipients (ascii "s") (ascii "b") [] := by
  refine ⟨by decide +kernel, fun h => ?_⟩
  obtain ⟨-, hto⟩ := oneLine_of_spoken (h.commands someStamps [] willing) (data_of_willing _ _ _ _ _ _ _)
  exact absurd hto (by decide +kernel)

end NCloud.Smtp
