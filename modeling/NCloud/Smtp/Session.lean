import NCloud.Frontend.Targets
import NCloud.Protocol.Outbound

/-!
# The sessions of the SMTP server

`handle_client` keeps the sender and the recipients of one message at a time. `MAIL` starts
a new one, `RSET` and the end of the data drop it, and what is refused leaves it alone. So
what is delivered can be read off the commands that were answered with `250`, and
`Envelope` says how.
-/

namespace NCloud.Smtp

open Wire Protocol Targets

/-! ## Command lines -/

/-- `std::tolower`. -/
def toLower (b : UInt8) : UInt8 := if 65 ≤ b ∧ b ≤ 90 then b + 32 else b

/-- `lower_copy`. -/
def lowerCopy (s : Bytes) : Bytes := s.map toLower

/-- `starts_with_ci`. -/
def StartsWithCi (s pfx : Bytes) : Prop := pfx.length ≤ s.length ∧ lowerCopy (s.take pfx.length) = lowerCopy pfx

instance (s pfx : Bytes) : Decidable (StartsWithCi s pfx) := inferInstanceAs (Decidable (_ ∧ _))

/-- `strip_angle`. -/
def stripAngle (s : Bytes) : Bytes :=
  let t := trim s
  let t := if t.head? = some 60 then t.tail else t
  let t := if t.getLast? = some 62 then t.dropLast else t
  trim t

/-- `extract_path_arg`. -/
def extractPathArg (line key : Bytes) : Bytes :=
  match cut (lowerCopy key) (lowerCopy line) with
  | none => []
  | some (before, _) => stripAngle (line.drop (before.length + key.length))

/-- What follows the key of a command. -/
def address (key line : Bytes) : Bytes := stripAngle (line.drop key.length)

/-- The key is found where the line begins. -/
theorem extractPathArg_eq {line key : Bytes} (hkey : key ≠ []) (h : StartsWithCi line key) :
    extractPathArg line key = address key line := by
  obtain ⟨hlen, hfront⟩ := h
  have hline : lowerCopy line = lowerCopy key ++ lowerCopy (line.drop key.length) := by
    rw [← hfront, lowerCopy, lowerCopy, lowerCopy, ← List.map_append, List.take_append_drop]
  have hne : lowerCopy key ≠ [] := by
    rw [lowerCopy, ne_eq, List.map_eq_nil_iff]
    exact hkey
  rw [extractPathArg, hline, cut_prefixed hne]
  dsimp only
  rw [List.length_nil, Nat.zero_add]
  rfl

/-! ## Addresses -/

/-- `ncloud_mail_domain`, given what the environment has for it. -/
def ncloudMailDomain (env : Option Bytes) : Bytes :=
  let domain := lowerCopy (match env with
    | some d => if d ≠ [] then d else ascii "ncloud.local"
    | none => ascii "ncloud.local")
  if domain = [] ∨ 64 ∈ domain ∨ 47 ∈ domain ∨ cr ∈ domain ∨ lf ∈ domain then ascii "ncloud.local" else domain

/-- `is_local_ncloud_domain`. -/
def IsLocalNcloudDomain (env : Option Bytes) (domainRaw : Bytes) : Prop :=
  let domain := lowerCopy domainRaw
  domain = ascii "ncloud" ∨ domain = ascii "ncloud.com" ∨ domain = ascii "ncloud.local" ∨ domain = ncloudMailDomain env

instance (env : Option Bytes) : DecidablePred (IsLocalNcloudDomain env) :=
  fun _ => inferInstanceAs (Decidable (_ ∨ _ ∨ _ ∨ _))

/-- `extract_local_user`. -/
def extractLocalUser (env : Option Bytes) (addr : Bytes) : Bytes :=
  match cut [64] addr with
  | none => trim addr
  | some (user, domain) => if IsLocalNcloudDomain env (lowerCopy domain) then trim user else []

/-- `is_external_recipient`. -/
def isExternalRecipient (env : Option Bytes) (addr : Bytes) : Bool :=
  match cut [64] addr with
  | none => false
  | some (user, domain) => decide (user ≠ [] ∧ domain ≠ [] ∧ ¬ IsLocalNcloudDomain env (lowerCopy domain))

/-- **Nobody is both.** -/
theorem not_external_of_local {env : Option Bytes} {addr : Bytes} (h : extractLocalUser env addr ≠ []) :
    ¬ isExternalRecipient env addr := by
  rw [extractLocalUser] at h
  rw [isExternalRecipient]
  cases hcut : cut [64] addr with
  | none => exact nofun
  | some r =>
      obtain ⟨user, domain⟩ := r
      rw [hcut] at h
      dsimp only at h ⊢
      rw [decide_eq_true_iff]
      rintro ⟨-, -, hforeign⟩
      rw [if_neg hforeign] at h
      exact h rfl

/-! ## The message -/

/-- The lines of `std::getline`: nothing follows the last line end. -/
def getLines (s : Bytes) : List Bytes :=
  let lines := s.splitOn lf
  if lines.getLast? = some [] then lines.dropLast else lines

/-- What `parse_subject_and_body` has so far. -/
structure Parsed where
  inHeaders : Bool
  firstBody : Bool
  subject : Bytes
  body : Bytes

/-- One line of it. -/
def parseLine (p : Parsed) (line : Bytes) : Parsed :=
  let line := dropCr line
  if p.inHeaders then
    if line = [] then { p with inHeaders := false }
    else if StartsWithCi line (ascii "Subject:") then { p with subject := trim (line.drop 8) }
    else p
  else { p with firstBody := false, body := (if p.firstBody then p.body else p.body ++ [lf]) ++ line }

/-- `parse_subject_and_body`. -/
def parseSubjectAndBody (raw : Bytes) : Bytes × Bytes :=
  let p := (getLines raw).foldl parseLine ⟨true, true, ascii "(no subject)", []⟩
  (p.subject, p.body)

/-! ## A session -/

/-- `Session`. -/
structure Session where
  greeted : Bool
  heloName : Bytes
  mailFrom : Bytes
  rcptTo : List Bytes
  data : Bytes
  deriving DecidableEq

/-- A new one. -/
def Session.new : Session := ⟨false, [], [], [], []⟩

/-- `reset_message_state`. -/
def resetMessageState (s : Session) : Session := { s with mailFrom := [], rcptTo := [], data := [] }

/-- A call of `smtp_send_external` or of `deliver_local`. -/
inductive Delivery where
  | sendExternal (sender recipient subject body : Bytes)
  | deliverLocal (sender recipient raw : Bytes)
  deriving DecidableEq

/-- From whom and to whom. -/
def Delivery.route : Delivery → Bytes × Bytes
  | .sendExternal sender recipient _ _ => (sender, recipient)
  | .deliverLocal sender recipient _ => (sender, recipient)

/-- What is done for one recipient. -/
def deliver (env : Option Bytes) (sender raw recipient : Bytes) : Delivery :=
  if isExternalRecipient env recipient then
    .sendExternal sender recipient (parseSubjectAndBody raw).1 (parseSubjectAndBody raw).2
  else .deliverLocal sender recipient raw

/-- What a turn finds outside: what the storage answers, and which of the deliveries succeed. -/
structure World where
  getStatus : (row col : Bytes) → KVReadStatus
  delivered : Nat → Bool

/-- What came of a command: a reply, a `DATA` section with the reply to it, or one in which
the connection broke. -/
inductive Outcome where
  | reply (text : Bytes)
  | data (deliveries : List Delivery) (text : Bytes)
  | broken
  deriving DecidableEq

/-- A turn: the command, the row that was looked up with what was found there, and the outcome. -/
structure Entry where
  line : Bytes
  lookup : Option (Bytes × KVReadStatus)
  outcome : Outcome
  deriving DecidableEq

def replyOk : Bytes := ascii "250 OK" ++ crlf

def replyHelo : Bytes := ascii "250 Hello" ++ crlf

def replyEhlo : Bytes := ascii "250-NCloud" ++ crlf ++ ascii "250-8BITMIME" ++ crlf ++ ascii "250 HELP" ++ crlf

/-- `MAIL FROM:`. -/
def mail (s : Session) (line : Bytes) : Session × Bytes :=
  if s.greeted = false then (s, ascii "503 Send HELO/EHLO first" ++ crlf)
  else
    let addr := extractPathArg line (ascii "MAIL FROM:")
    if addr = [] then (s, ascii "501 Bad MAIL FROM" ++ crlf)
    else ({ resetMessageState s with mailFrom := addr }, replyOk)

/-- `RCPT TO:`. -/
def rcpt (env : Option Bytes) (world : World) (s : Session) (line : Bytes) :
    Session × Option (Bytes × KVReadStatus) × Bytes :=
  if s.mailFrom = [] then (s, none, ascii "503 Need MAIL FROM first" ++ crlf)
  else
    let addr := extractPathArg line (ascii "RCPT TO:")
    let user := extractLocalUser env addr
    let accepted := { s with rcptTo := s.rcptTo ++ [addr] }
    if addr = [] ∨ user = [] ∧ ¬ isExternalRecipient env addr then (s, none, ascii "550 Bad recipient" ++ crlf)
    else if user = [] then (accepted, none, replyOk)
    else
      let status := world.getStatus user (ascii "pwd")
      match status with
      | .unavailable => (s, some (user, status), ascii "451 Local storage temporarily unavailable" ++ crlf)
      | .notFound => (s, some (user, status), ascii "550 No such local user" ++ crlf)
      | .found _ => (accepted, some (user, status), replyOk)

/-- `handle_data_mode`, with what is left to read. -/
def dataMode (env : Option Bytes) (world : World) (s : Session) (input : Bytes) : Outcome × Option (Session × Bytes) :=
  match handleDataMode input with
  | none => (.broken, none)
  | some (lines, rest) =>
      let raw := lines.flatMap (fun l => l ++ crlf)
      let deliveries := s.rcptTo.map (deliver env s.mailFrom raw)
      let allOk := (List.range deliveries.length).all world.delivered
      (.data deliveries (if allOk then replyOk else ascii "550 Delivery failed" ++ crlf), some (resetMessageState s, rest))

/-- One turn of the loop of `handle_client`. The session is over if nothing is left to go on
with. -/
def turn (env : Option Bytes) (world : World) (s : Session) (line input : Bytes) :
    Entry × Option (Session × Bytes) :=
  if StartsWithCi line (ascii "HELO ") then
    (⟨line, none, .reply replyHelo⟩, some ({ s with greeted := true, heloName := trim (line.drop 5) }, input))
  else if StartsWithCi line (ascii "EHLO ") then
    (⟨line, none, .reply replyEhlo⟩, some ({ s with greeted := true, heloName := trim (line.drop 5) }, input))
  else if StartsWithCi line (ascii "MAIL FROM:") then
    (⟨line, none, .reply (mail s line).2⟩, some ((mail s line).1, input))
  else if StartsWithCi line (ascii "RCPT TO:") then
    (⟨line, (rcpt env world s line).2.1, .reply (rcpt env world s line).2.2⟩, some ((rcpt env world s line).1, input))
  else if StartsWithCi line (ascii "DATA") then
    if s.rcptTo = [] then (⟨line, none, .reply (ascii "503 Need RCPT TO first" ++ crlf)⟩, some (s, input))
    else (⟨line, none, (dataMode env world s input).1⟩, (dataMode env world s input).2)
  else if StartsWithCi line (ascii "RSET") then
    (⟨line, none, .reply replyOk⟩, some (resetMessageState s, input))
  else if StartsWithCi line (ascii "NOOP") then (⟨line, none, .reply replyOk⟩, some (s, input))
  else if StartsWithCi line (ascii "QUIT") then (⟨line, none, .reply (ascii "221 Bye" ++ crlf)⟩, none)
  else (⟨line, none, .reply (ascii "500 Unsupported command" ++ crlf)⟩, some (s, input))

/-- `handle_client`, for as many turns as there are worlds for. -/
def handleClient (env : Option Bytes) : List World → Session → (input : Bytes) → List Entry
  | [], _, _ => []
  | world :: worlds, s, input =>
      match readCrlf maxCrlfLine input with
      | none => []
      | some (line, rest) =>
          let (entry, next) := turn env world s line rest
          entry ::
            match next with
            | none => []
            | some (s, rest) => handleClient env worlds s rest

/-! ## What the replies say -/

/-- What a turn means to the message, going by the command and what it was answered. -/
inductive Kind where
  | hello
  | mail
  | rcpt
  | rset
  | section
  | other
  deriving DecidableEq

/-- The kind of a turn. -/
def Entry.kind (e : Entry) : Kind :=
  match e.outcome with
  | .data _ _ | .broken => .section
  | .reply text =>
      if StartsWithCi e.line (ascii "HELO ") ∧ text = replyHelo ∨
          StartsWithCi e.line (ascii "EHLO ") ∧ text = replyEhlo then .hello
      else if text ≠ replyOk then .other
      else if StartsWithCi e.line (ascii "MAIL FROM:") then .mail
      else if StartsWithCi e.line (ascii "RCPT TO:") then .rcpt
      else if StartsWithCi e.line (ascii "RSET") then .rset
      else .other

/-- The address of a `MAIL FROM`. -/
def Entry.sender (e : Entry) : Bytes := address (ascii "MAIL FROM:") e.line

/-- The address of a `RCPT TO`. -/
def Entry.recipient (e : Entry) : Bytes := address (ascii "RCPT TO:") e.line

/-- A recipient here, who was found in the storage, or one elsewhere, and never both. -/
structure Entry.Deliverable (env : Option Bytes) (e : Entry) : Prop where
  known : extractLocalUser env e.recipient ≠ [] →
    ∃ val, e.lookup = some (extractLocalUser env e.recipient, .found val)
  one : extractLocalUser env e.recipient ≠ [] ∨ isExternalRecipient env e.recipient = true
  notBoth : ¬ (extractLocalUser env e.recipient ≠ [] ∧ isExternalRecipient env e.recipient = true)

/-- **The message that the replies tell of**: whose it is, and who it is for, after these turns. -/
structure Envelope (env : Option Bytes) (log : List Entry) (sender : Bytes) (recipients : List Bytes) : Prop where
  split : ∃ before m since, log = before ++ m :: since ∧ m.kind = .mail ∧ sender = m.sender ∧
    (∃ e ∈ before, e.kind = .hello) ∧
    (∀ e ∈ since, e.kind ≠ .mail ∧ e.kind ≠ .rset ∧ e.kind ≠ .section) ∧
    recipients = (since.filter (fun e => e.kind = .rcpt)).map Entry.recipient ∧
    ∀ e ∈ since, e.kind = .rcpt → e.Deliverable env

/-- A turn that changes nothing. -/
theorem Envelope.keep {env : Option Bytes} {log : List Entry} {sender : Bytes} {recipients : List Bytes}
    (h : Envelope env log sender recipients) {e : Entry} (hkind : e.kind = .hello ∨ e.kind = .other) :
    Envelope env (log ++ [e]) sender recipients := by
  obtain ⟨before, m, since, rfl, hm, hsender, hhello, hsince, hrecipients, hdeliverable⟩ := h.split
  have hne : e.kind ≠ .rcpt ∧ e.kind ≠ .mail ∧ e.kind ≠ .rset ∧ e.kind ≠ .section := by
    rcases hkind with hkind | hkind
    · rw [hkind]
      decide
    · rw [hkind]
      decide
  refine ⟨before, m, since ++ [e], by simp, hm, hsender, hhello, ?_, ?_, ?_⟩
  · intro e' he'
    rcases List.mem_append.mp he' with he' | he'
    · exact hsince e' he'
    · obtain rfl := List.mem_singleton.mp he'
      exact hne.2
  · rw [hrecipients, List.filter_append, List.filter_cons_of_neg (by simpa using hne.1), List.filter_nil,
      List.append_nil]
  · intro e' he' hrcpt
    rcases List.mem_append.mp he' with he' | he'
    · exact hdeliverable e' he' hrcpt
    · obtain rfl := List.mem_singleton.mp he'
      exact absurd hrcpt hne.1

/-- Another recipient. -/
theorem Envelope.add {env : Option Bytes} {log : List Entry} {sender : Bytes} {recipients : List Bytes}
    (h : Envelope env log sender recipients) {e : Entry} (hkind : e.kind = .rcpt) (he : e.Deliverable env) :
    Envelope env (log ++ [e]) sender (recipients ++ [e.recipient]) := by
  obtain ⟨before, m, since, rfl, hm, hsender, hhello, hsince, hrecipients, hdeliverable⟩ := h.split
  refine ⟨before, m, since ++ [e], by simp, hm, hsender, hhello, ?_, ?_, ?_⟩
  · intro e' he'
    rcases List.mem_append.mp he' with he' | he'
    · exact hsince e' he'
    · obtain rfl := List.mem_singleton.mp he'
      rw [hkind]
      decide
  · rw [hrecipients, List.filter_append, List.filter_cons_of_pos (by simpa using hkind), List.filter_nil,
      List.map_append, List.map_cons, List.map_nil]
  · intro e' he' hrcpt
    rcases List.mem_append.mp he' with he' | he'
    · exact hdeliverable e' he' hrcpt
    · obtain rfl := List.mem_singleton.mp he'
      exact he

/-- A new message. -/
theorem Envelope.start {env : Option Bytes} {log : List Entry} {e : Entry} (hkind : e.kind = .mail)
    (hhello : ∃ e' ∈ log, e'.kind = .hello) : Envelope env (log ++ [e]) e.sender [] :=
  ⟨log, e, [], rfl, hkind, rfl, hhello, fun _ h => absurd h List.not_mem_nil, rfl, fun _ h => absurd h List.not_mem_nil⟩

/-! ## What a turn does -/

/-- What a turn makes of a session; without one it is over. -/
inductive Does (env : Option Bytes) (s : Session) (e : Entry) : Option Session → Prop where
  | hello (name : Bytes) : e.kind = .hello → Does env s e (some { s with greeted := true, heloName := name })
  | mail : s.greeted = true → e.kind = .mail → e.sender ≠ [] →
      Does env s e (some { resetMessageState s with mailFrom := e.sender })
  | rcpt : s.mailFrom ≠ [] → e.kind = .rcpt → e.Deliverable env →
      Does env s e (some { s with rcptTo := s.rcptTo ++ [e.recipient] })
  | reset : e.kind = .rset → Does env s e (some (resetMessageState s))
  | data (deliveries : List Delivery) (text : Bytes) : s.rcptTo ≠ [] → e.outcome = .data deliveries text →
      deliveries.map Delivery.route = s.rcptTo.map (fun r => (s.mailFrom, r)) →
      Does env s e (some (resetMessageState s))
  | broken : s.rcptTo ≠ [] → e.outcome = .broken → Does env s e none
  | other : e.kind = .other → Does env s e (some s)
  | quit : e.kind = .other → Does env s e none

theorem kind_of_refused {e : Entry} {text : Bytes} (h : e.outcome = .reply text)
    (hhelo : ¬ StartsWithCi e.line (ascii "HELO ")) (hehlo : ¬ StartsWithCi e.line (ascii "EHLO "))
    (htext : text ≠ replyOk) : e.kind = .other := by
  have hnot : ¬ (StartsWithCi e.line (ascii "HELO ") ∧ text = replyHelo ∨
      StartsWithCi e.line (ascii "EHLO ") ∧ text = replyEhlo) := by
    rintro (⟨hpre, -⟩ | ⟨hpre, -⟩)
    · exact hhelo hpre
    · exact hehlo hpre
  rw [Entry.kind, h]
  dsimp only
  rw [if_neg hnot, if_pos htext]

theorem kind_of_ok {e : Entry} (h : e.outcome = .reply replyOk)
    (hhelo : ¬ StartsWithCi e.line (ascii "HELO ")) (hehlo : ¬ StartsWithCi e.line (ascii "EHLO ")) :
    e.kind = if StartsWithCi e.line (ascii "MAIL FROM:") then .mail
      else if StartsWithCi e.line (ascii "RCPT TO:") then .rcpt
      else if StartsWithCi e.line (ascii "RSET") then .rset
      else .other := by
  have hnot : ¬ (StartsWithCi e.line (ascii "HELO ") ∧ replyOk = replyHelo ∨
      StartsWithCi e.line (ascii "EHLO ") ∧ replyOk = replyEhlo) := by
    rintro (⟨hpre, -⟩ | ⟨hpre, -⟩)
    · exact hhelo hpre
    · exact hehlo hpre
  rw [Entry.kind, h]
  dsimp only
  rw [if_neg hnot, if_neg (not_not.mpr rfl)]

/-- A sender is taken if the client has said hello, and an address was given. -/
theorem does_mail {env : Option Bytes} {s : Session} {line : Bytes} (hhelo : ¬ StartsWithCi line (ascii "HELO "))
    (hehlo : ¬ StartsWithCi line (ascii "EHLO ")) (hmail : StartsWithCi line (ascii "MAIL FROM:")) :
    Does env s ⟨line, none, .reply (mail s line).2⟩ (some (mail s line).1) := by
  rw [mail]
  split
  · dsimp only
    exact .other (kind_of_refused rfl hhelo hehlo (by decide +kernel))
  rename_i hgreeted
  dsimp only
  rw [extractPathArg_eq (by decide) hmail]
  split
  · dsimp only
    exact .other (kind_of_refused rfl hhelo hehlo (by decide +kernel))
  rename_i hne
  refine .mail (Bool.not_eq_false _ ▸ hgreeted) ?_ hne
  rw [kind_of_ok rfl hhelo hehlo, if_pos hmail]

/-- A recipient is taken if there is a sender, and there is such a recipient. -/
theorem does_rcpt {env : Option Bytes} {world : World} {s : Session} {line : Bytes}
    (hhelo : ¬ StartsWithCi line (ascii "HELO ")) (hehlo : ¬ StartsWithCi line (ascii "EHLO "))
    (hmail : ¬ StartsWithCi line (ascii "MAIL FROM:")) (hrcpt : StartsWithCi line (ascii "RCPT TO:")) :
    Does env s ⟨line, (rcpt env world s line).2.1, .reply (rcpt env world s line).2.2⟩
      (some (rcpt env world s line).1) := by
  have hkind : ∀ lookup, Entry.kind ⟨line, lookup, .reply replyOk⟩ = .rcpt := by
    intro lookup
    rw [kind_of_ok rfl hhelo hehlo, if_neg hmail, if_pos hrcpt]
  have hrefused : ∀ {lookup text}, text ≠ replyOk → Does env s ⟨line, lookup, .reply text⟩ (some s) :=
    fun htext => .other (kind_of_refused rfl hhelo hehlo htext)
  rw [rcpt]
  split
  · dsimp only
    exact hrefused (by decide +kernel)
  rename_i hfrom
  dsimp only
  rw [extractPathArg_eq (by decide) hrcpt]
  split
  · dsimp only
    exact hrefused (by decide +kernel)
  rename_i hgood
  rw [not_or, not_and, not_not] at hgood
  split
  · -- nobody here, so the address is one elsewhere
    rename_i hnobody
    refine .rcpt hfrom (hkind _) ⟨fun hne => absurd hnobody hne, .inr (hgood.2 hnobody), fun h => h.1 hnobody⟩
  rename_i hsomebody
  split
  · dsimp only
    exact hrefused (by decide +kernel)
  · dsimp only
    exact hrefused (by decide +kernel)
  · rename_i val hfound
    refine .rcpt hfrom (hkind _) ⟨fun _ => ⟨val, ?_⟩, .inl hsomebody, fun h => not_external_of_local h.1 h.2⟩
    rw [hfound]
    rfl

/-- Everything that was taken is handed on, and nothing else. -/
theorem does_data {env : Option Bytes} {world : World} {s : Session} {line input : Bytes} (hrcpt : s.rcptTo ≠ []) :
    Does env s ⟨line, none, (dataMode env world s input).1⟩ ((dataMode env world s input).2.map Prod.fst) := by
  rw [dataMode]
  cases handleDataMode input with
  | none => exact .broken hrcpt rfl
  | some r =>
      refine .data _ _ hrcpt rfl ?_
      rw [List.map_map]
      refine List.map_congr_left fun r _ => ?_
      rw [Function.comp_apply, deliver]
      split
      · rfl
      · rfl

/-- **One turn.** -/
theorem turn_does (env : Option Bytes) (world : World) (s : Session) (line input : Bytes) :
    Does env s (turn env world s line input).1 ((turn env world s line input).2.map Prod.fst) := by
  rw [turn]
  split
  · rename_i hhelo
    refine .hello (trim (line.drop 5)) ?_
    rw [Entry.kind]
    exact if_pos (.inl ⟨hhelo, rfl⟩)
  rename_i hhelo
  split
  · rename_i hehlo
    refine .hello (trim (line.drop 5)) ?_
    rw [Entry.kind]
    exact if_pos (.inr ⟨hehlo, rfl⟩)
  rename_i hehlo
  split
  · rename_i hmail
    exact does_mail hhelo hehlo hmail
  rename_i hmail
  split
  · rename_i hrcpt
    exact does_rcpt hhelo hehlo hmail hrcpt
  rename_i hrcpt
  split
  · split
    · exact .other (kind_of_refused rfl hhelo hehlo (by decide +kernel))
    · rename_i hne
      exact does_data hne
  split
  · rename_i hrset
    refine .reset ?_
    rw [kind_of_ok rfl hhelo hehlo, if_neg hmail, if_neg hrcpt, if_pos hrset]
  rename_i hrset
  split
  · refine .other ?_
    rw [kind_of_ok rfl hhelo hehlo, if_neg hmail, if_neg hrcpt, if_neg hrset]
  split
  · exact .quit (kind_of_refused rfl hhelo hehlo (by decide +kernel))
  · exact .other (kind_of_refused rfl hhelo hehlo (by decide +kernel))

/-! ## What a session does -/

/-- **What a session holds** is what the replies tell of. -/
structure Told (env : Option Bytes) (log : List Entry) (s : Session) : Prop where
  greeted : s.greeted = true → ∃ e ∈ log, e.kind = .hello
  nobody : s.mailFrom = [] → s.rcptTo = []
  envelope : s.mailFrom ≠ [] → Envelope env log s.mailFrom s.rcptTo

theorem told_new (env : Option Bytes) : Told env [] Session.new :=
  ⟨nofun, fun _ => rfl, fun h => absurd rfl h⟩

theorem Told.greeted_append {env : Option Bytes} {log : List Entry} {s : Session} (h : Told env log s) (e : Entry)
    (hs : s.greeted = true) : ∃ e' ∈ log ++ [e], e'.kind = .hello := by
  obtain ⟨e', he', hkind⟩ := h.greeted hs
  exact ⟨e', List.mem_append_left _ he', hkind⟩

/-- A turn. -/
theorem Told.step {env : Option Bytes} {log : List Entry} {s s' : Session} {e : Entry} (h : Told env log s)
    (hdoes : Does env s e (some s')) : Told env (log ++ [e]) s' := by
  cases hdoes with
  | hello name hkind =>
      exact ⟨fun _ => ⟨e, by simp, hkind⟩, h.nobody, fun hne => (h.envelope hne).keep (.inl hkind)⟩
  | mail hgreeted hkind hne =>
      -- the old message is gone, recipients and all
      exact ⟨h.greeted_append e, fun _ => rfl, fun _ => .start hkind (h.greeted hgreeted)⟩
  | rcpt hfrom hkind he =>
      exact ⟨h.greeted_append e, fun hnone => absurd hnone hfrom, fun _ => (h.envelope hfrom).add hkind he⟩
  | reset hkind => exact ⟨h.greeted_append e, fun _ => rfl, fun hne => absurd rfl hne⟩
  | data deliveries text hrcpt hout hroute =>
      exact ⟨h.greeted_append e, fun _ => rfl, fun hne => absurd rfl hne⟩
  | other hkind => exact ⟨h.greeted_append e, h.nobody, fun hne => (h.envelope hne).keep (.inr hkind)⟩

/-- What opens a `DATA` section has a message to deliver, which goes to everyone it is for. -/
theorem Told.section {env : Option Bytes} {log : List Entry} {s : Session} {next : Option Session} {e : Entry}
    (h : Told env log s) (hdoes : Does env s e next) (hkind : e.kind = .section) :
    ∃ sender recipients, Envelope env log sender recipients ∧ recipients ≠ [] ∧
      ∀ deliveries text, e.outcome = .data deliveries text →
        deliveries.map Delivery.route = recipients.map (fun r => (sender, r)) := by
  -- recipients come after a sender
  have hfrom : s.rcptTo ≠ [] → s.mailFrom ≠ [] := fun hrcpt hnone => hrcpt (h.nobody hnone)
  cases hdoes with
  | data deliveries text hrcpt hout hroute =>
      refine ⟨s.mailFrom, s.rcptTo, h.envelope (hfrom hrcpt), hrcpt, ?_⟩
      intro deliveries' text' hout'
      rw [hout] at hout'
      obtain ⟨rfl, rfl⟩ := Outcome.data.inj hout'
      exact hroute
  | broken hrcpt hout =>
      refine ⟨s.mailFrom, s.rcptTo, h.envelope (hfrom hrcpt), hrcpt, ?_⟩
      intro deliveries' text' hout'
      exact absurd (hout.symm.trans hout') nofun
  | hello name hother => exact absurd (hother.symm.trans hkind) nofun
  | mail hgreeted hother hne => exact absurd (hother.symm.trans hkind) nofun
  | rcpt hne hother he => exact absurd (hother.symm.trans hkind) nofun
  | reset hother => exact absurd (hother.symm.trans hkind) nofun
  | other hother => exact absurd (hother.symm.trans hkind) nofun
  | quit hother => exact absurd (hother.symm.trans hkind) nofun

/-- All the turns that are left. -/
theorem Told.run {env : Option Bytes} {worlds : List World} {log : List Entry} {s : Session} {input : Bytes}
    (h : Told env log s) {before after : List Entry} {e : Entry}
    (hrun : handleClient env worlds s input = before ++ e :: after) (hkind : e.kind = .section) :
    ∃ sender recipients, Envelope env (log ++ before) sender recipients ∧ recipients ≠ [] ∧
      ∀ deliveries text, e.outcome = .data deliveries text →
        deliveries.map Delivery.route = recipients.map (fun r => (sender, r)) := by
  induction worlds generalizing log s input before with
  | nil => exact absurd hrun (by simp [handleClient])
  | cons world worlds ih =>
      rw [handleClient] at hrun
      cases hline : readCrlf maxCrlfLine input with
      | none =>
          rw [hline] at hrun
          exact absurd hrun (by simp)
      | some r =>
          obtain ⟨line, rest⟩ := r
          rw [hline] at hrun
          dsimp only at hrun
          have hdoes := turn_does env world s line rest
          -- the section is opened in this turn, or in a later one
          cases before with
          | nil =>
              obtain ⟨rfl, -⟩ := List.cons.inj hrun
              rw [List.append_nil]
              exact h.section hdoes hkind
          | cons e₀ before =>
              obtain ⟨rfl, hrest⟩ := List.cons.inj hrun
              cases hnext : (turn env world s line rest).2 with
              | none =>
                  rw [hnext] at hrest
                  exact absurd hrest (by simp)
              | some r =>
                  rw [hnext] at hrest hdoes
                  have hall := ih (h.step hdoes) hrest
                  rw [List.append_assoc] at hall
                  exact hall

/-- **Session discipline.** When a `DATA` section is opened, the replies tell of a message with
recipients, and what is handed to delivery is that message, for each of them in order. -/
theorem dataSection_envelope (env : Option Bytes) (worlds : List World) (input : Bytes)
    {before after : List Entry} {e : Entry}
    (hrun : handleClient env worlds Session.new input = before ++ e :: after) (hkind : e.kind = .section) :
    ∃ sender recipients, Envelope env before sender recipients ∧ recipients ≠ [] ∧
      ∀ deliveries text, e.outcome = .data deliveries text →
        deliveries.map Delivery.route = recipients.map (fun r => (sender, r)) :=
  (told_new env).run hrun hkind

/-- Only bob has a mailbox. -/
def someWorld : World where
  getStatus row _ := if row = ascii "bob" then .found (ascii "hash") else .notFound
  delivered _ := true

/-- A session with a sender that is replaced, and a recipient that is not there. -/
def someInput : Bytes :=
  [ascii "ehlo x", ascii "MAIL FROM:<old@b.c>", ascii "RCPT TO:<bob>", ascii "mail from: <a@b.c>", ascii "RCPT TO:<eve>",
    ascii "Rcpt to:<bob@ncloud>", ascii "RCPT TO:<d@e.f>", ascii "DATA", ascii "hi", ascii "."].flatMap (fun l => l ++ crlf)

/-- What came of its data. -/
def someSection : Entry where
  line := ascii "DATA"
  lookup := none
  outcome := .data [.deliverLocal (ascii "a@b.c") (ascii "bob@ncloud") (ascii "hi" ++ crlf),
    .sendExternal (ascii "a@b.c") (ascii "d@e.f") (ascii "(no subject)") []] replyOk

theorem dataSection_envelope_some :
    ∃ sender recipients,
      Envelope none ((handleClient none (List.replicate 8 someWorld) Session.new someInput).take 7) sender recipients ∧
      recipients ≠ [] ∧ ∀ deliveries text, someSection.outcome = .data deliveries text →
        deliveries.map Delivery.route = recipients.map (fun r => (sender, r)) := by
  have hrun : handleClient none (List.replicate 8 someWorld) Session.new someInput =
      (handleClient none (List.replicate 8 someWorld) Session.new someInput).take 7 ++ someSection :: [] := by
    decide +kernel
  exact dataSection_envelope none (List.replicate 8 someWorld) someInput hrun (by decide +kernel)

end NCloud.Smtp
