import NCloud.Protocol.Requests

/-!
# Messages between replicas

A primary forwards its writes as `REPLICATE` messages over the connection on which the
coordinator and other replicas send their commands, and here too row, column and value
follow the header line as raw bytes. `handle_repl_connection` answers a message for a
tablet that it does not find before it has read these bytes, and goes on with the next
line: what was user data is then a line of its own.
-/

namespace NCloud.Protocol

open Wire Reader

/-! ## Messages -/

/-- What is replicated. -/
inductive ReplOp where
  | put (row col val : Field)
  | delete (row col : Field)

namespace ReplOp

/-- The word in the header. -/
def word : ReplOp → Bytes
  | put _ _ _ => ascii "PUT"
  | delete _ _ => ascii "DELETE"

/-- The arguments. -/
def fields : ReplOp → List Field
  | put row col val => [row, col, val]
  | delete row col => [row, col]

end ReplOp

/-- A message. The name of its tablet can be read back from the header. -/
structure ReplMsg where
  tablet : Bytes
  isWord : IsWord tablet
  lsn : Nat
  lsn_lt : lsn < 2 ^ 64
  op : ReplOp

/-- The header line without its end. -/
def replHeader (tablet : Bytes) (lsn : Nat) (word : Bytes) (fields : List Field) : Bytes :=
  ascii "REPLICATE" ++ space :: (tablet ++ space :: (Decimal.text lsn ++ space :: (word ++ sizeText fields)))

/-- `make_repl_put`. -/
def makeReplPut (tablet : Bytes) (lsn : Nat) (row col val : Field) : Bytes :=
  replHeader tablet lsn (ascii "PUT") [row, col, val] ++ crlf ++ (row.val ++ (col.val ++ val.val))

/-- `make_repl_delete`. -/
def makeReplDelete (tablet : Bytes) (lsn : Nat) (row col : Field) : Bytes :=
  replHeader tablet lsn (ascii "DELETE") [row, col] ++ crlf ++ (row.val ++ col.val)

namespace ReplMsg

/-- What the primary sends. -/
def bytes (m : ReplMsg) : Bytes :=
  match m.op with
  | .put row col val => makeReplPut m.tablet m.lsn row col val
  | .delete row col => makeReplDelete m.tablet m.lsn row col

/-- Its header line. -/
def header (m : ReplMsg) : Bytes := replHeader m.tablet m.lsn m.op.word m.op.fields

/-- The raw bytes behind it. -/
def payload (m : ReplMsg) : Bytes := m.op.fields.flatMap (fun f => f.val)

theorem bytes_eq (m : ReplMsg) : m.bytes = m.header ++ crlf ++ m.payload := by
  rw [bytes, header, payload]
  cases m.op with
  | put row col val => simp only [makeReplPut, ReplOp.word, ReplOp.fields, List.flatMap_cons, List.flatMap_nil,
      List.append_nil]
  | delete row col => simp only [makeReplDelete, ReplOp.word, ReplOp.fields, List.flatMap_cons,
      List.flatMap_nil, List.append_nil]

end ReplMsg

/-! ## The server -/

/-- A tablet of this server, and whether it has a replication manager. -/
structure HostedTablet where
  name : Bytes
  repl : Bool
  deriving DecidableEq

/-- The tablets of a server and their replication managers. -/
structure ReplServer (σ : Type) where
  hosted : List HostedTablet
  applyReplicatePut : HostedTablet → (lsn : Nat) → (row col val : Field) → σ → Bool × σ
  applyReplicateDelete : HostedTablet → (lsn : Nat) → (row col : Field) → σ → Bool × σ
  lsn : HostedTablet → σ → Nat
  buildSyncResponse : HostedTablet → (requesterCkptVer requesterLsn : Nat) → σ → Bytes × σ
  promoteToPrimary : HostedTablet → σ → σ
  becomeSecondaryAndSync : HostedTablet → (host : Bytes) → (port : Int) → σ → Bool × σ
  addReplica : HostedTablet → (id host : Bytes) → (port : Int) → σ → σ

section Server

variable {σ : Type} (S : ReplServer σ)

/-- `find_hosted_by_name`. -/
def findHostedByName (name : Bytes) : Option HostedTablet := S.hosted.find? (fun h => h.name = name)

/-- The tablet a command is for: the one of this name, or the only one there is, if it
has a replication manager. -/
def findTablet (name : Bytes) : Option HostedTablet :=
  let hosted := match findHostedByName S name, S.hosted with
    | some h, _ => some h
    | none, [h] => some h
    | none, _ => none
  hosted.filter HostedTablet.repl

/-- One turn of the loop: whether it goes on, what it has answered, and what is left. -/
structure ReplTurn (σ : Type) where
  again : Bool
  answers : List Bytes
  rest : Bytes
  st : σ

/-- A turn without an answer that ends the connection. -/
def ReplTurn.close (st : σ) : ReplTurn σ := ⟨false, [], [], st⟩

/-- A turn with an answer. -/
def ReplTurn.say (answer rest : Bytes) (st : σ) : ReplTurn σ := ⟨true, [answer], rest, st⟩

/-- The answer for a tablet that is not found. -/
def notHosted : Bytes := ascii "-ERR tablet not hosted" ++ crlf

/-- The answer to what was applied. -/
def okLsn (n : Nat) : Bytes := ascii "+OK LSN=" ++ Decimal.text n ++ crlf

/-- The answer to what was not. -/
def replFailed : ReplOp → Bytes
  | .put _ _ _ => ascii "-ERR replicate put failed" ++ crlf
  | .delete _ _ => ascii "-ERR replicate delete failed" ++ crlf

/-- `apply_replicate_put` or `apply_replicate_delete`. -/
def ReplOp.apply (hosted : HostedTablet) (lsn : Nat) : ReplOp → σ → Bool × σ
  | put row col val => S.applyReplicatePut hosted lsn row col val
  | delete row col => S.applyReplicateDelete hosted lsn row col

/-- What follows after the payload was read: a failure ends the connection. -/
def finishReplicate (hosted : HostedTablet) (lsn : Nat) (op : ReplOp) (rest : Bytes) (st : σ) : ReplTurn σ :=
  let (ok, st) := op.apply S hosted lsn st
  if ok then .say (okLsn (S.lsn hosted st)) rest st else ⟨false, [replFailed op], rest, st⟩

/-- `REPLICATE`. -/
def handleReplicate (ss : Words) (rest : Bytes) (st : σ) : ReplTurn σ :=
  let (name, ss) := getWord ss
  if name = [] then .say (ascii "-ERR missing tablet" ++ crlf) rest st
  else
    let (lsn, ss) := getNat 64 ss
    let (op, ss) := getWord ss
    match findTablet S name with
    -- the payload is still to be read
    | none => .say notHosted rest st
    | some hosted =>
        if op = ascii "PUT" then
          match takeFields (getNats 32 3 ss).1 rest with
          | some ([row, col, val], rest) => finishReplicate S hosted lsn (.put row col val) rest st
          | _ => .close st
        else if op = ascii "DELETE" then
          match takeFields (getNats 32 2 ss).1 rest with
          | some ([row, col], rest) => finishReplicate S hosted lsn (.delete row col) rest st
          | _ => .close st
        else .say (ascii "-ERR unknown replicate op" ++ crlf) rest st

/-- `SYNC_FROM`. -/
def handleSyncFrom (ss : Words) (rest : Bytes) (st : σ) : ReplTurn σ :=
  let (name, ss) := getWord ss
  let (requesterCkptVer, ss) := getNat 64 ss
  let (requesterLsn, _) := getNat 64 ss
  match findTablet S name with
  | none => .say notHosted rest st
  | some hosted =>
      let (resp, st) := S.buildSyncResponse hosted requesterCkptVer requesterLsn st
      .say resp rest st

/-- `BECOME_PRIMARY`. -/
def handleBecomePrimary (ss : Words) (rest : Bytes) (st : σ) : ReplTurn σ :=
  match findTablet S (getWord ss).1 with
  | none => .say notHosted rest st
  | some hosted => .say (ascii "+OK" ++ crlf) rest (S.promoteToPrimary hosted st)

/-- `BECOME_SECONDARY`. -/
def handleBecomeSecondary (ss : Words) (rest : Bytes) (st : σ) : ReplTurn σ :=
  let (name, ss) := getWord ss
  let (host, ss) := getWord ss
  let (port, _) := getInt ss
  match findTablet S name with
  | none => .say notHosted rest st
  | some hosted =>
      let (ok, st) := S.becomeSecondaryAndSync hosted host port st
      .say ((if ok then ascii "+OK" else ascii "-ERR sync failed") ++ crlf) rest st

/-- `ADD_REPLICA`. -/
def handleAddReplica (ss : Words) (rest : Bytes) (st : σ) : ReplTurn σ :=
  let (name, ss) := getWord ss
  let (id, ss) := getWord ss
  let (host, ss) := getWord ss
  let (port, _) := getInt ss
  match findTablet S name with
  | none => .say notHosted rest st
  | some hosted =>
      if id = [] ∨ host = [] ∨ port ≤ 0 then .say (ascii "-ERR malformed ADD_REPLICA" ++ crlf) rest st
      else .say (ascii "+OK" ++ crlf) rest (S.addReplica hosted id host port st)

/-- One turn of the loop of `handle_repl_connection`. -/
def handleReplLine (input : Bytes) (st : σ) : ReplTurn σ :=
  match readLine maxLine input with
  | none => .close st
  | some (line, rest) =>
      if line = [] then ⟨true, [], rest, st⟩
      else
        let (cmd, ss) := getWord (some line)
        if cmd = ascii "REPLICATE" then handleReplicate S ss rest st
        else if cmd = ascii "SYNC_FROM" then handleSyncFrom S ss rest st
        else if cmd = ascii "BECOME_PRIMARY" then handleBecomePrimary S ss rest st
        else if cmd = ascii "BECOME_SECONDARY" then handleBecomeSecondary S ss rest st
        else if cmd = ascii "ADD_REPLICA" then handleAddReplica S ss rest st
        else .say (ascii "-ERR unknown replication command" ++ crlf) rest st

/-- What a connection comes to: where the lines began that were taken for commands, as
the number of bytes from there to the end, and the answers. -/
@[ext]
structure ReplLog (σ : Type) where
  starts : List Nat
  answers : List Bytes
  st : σ

/-- Where a line begins, if there is anything left. -/
def lineStart (input : Bytes) : List Nat := if input = [] then [] else [input.length]

/-- The loop, for at most so many turns. -/
def serveRepl : (turns : Nat) → Bytes → σ → ReplLog σ
  | 0, _, st => ⟨[], [], st⟩
  | turns + 1, input, st =>
      let t := handleReplLine S input st
      let l := if t.again then serveRepl turns t.rest t.st else ⟨[], [], t.st⟩
      ⟨lineStart input ++ l.starts, t.answers ++ l.answers, l.st⟩

/-- `handle_repl_connection` on everything that is sent. Every turn reads a line. -/
def handleReplConnection (input : Bytes) (st : σ) : ReplLog σ := serveRepl S (input.length + 1) input st

/-! ## What messages are for -/

/-- What should come of a message: whether the next one is read, the answer, and the
state. -/
def ReplMsg.deliver (m : ReplMsg) (st : σ) : Bool × Bytes × σ :=
  match findTablet S m.tablet with
  | none => (true, notHosted, st)
  | some hosted =>
      let (ok, st) := m.op.apply S hosted m.lsn st
      if ok then (true, okLsn (S.lsn hosted st), st) else (false, replFailed m.op, st)

/-- Every message is read from its first byte on and has its answer, until the first one
that cannot be applied. -/
def deliverAll : List ReplMsg → σ → ReplLog σ
  | [], st => ⟨[], [], st⟩
  | m :: ms, st =>
      let (again, answer, st) := m.deliver S st
      let l := if again then deliverAll ms st else ⟨[], [], st⟩
      ⟨((m :: ms).flatMap ReplMsg.bytes).length :: l.starts, answer :: l.answers, l.st⟩

/-- The messages up to there. -/
def reached : List ReplMsg → σ → List ReplMsg
  | [], _ => []
  | m :: ms, st =>
      let (again, _, st) := m.deliver S st
      m :: (if again then reached ms st else [])

/-- A message that leaves the connection where the next one begins: its header is not too
long for a line, and there is a tablet for it or nothing behind the header. -/
def ReplMsg.Takes (m : ReplMsg) : Prop :=
  m.header.length < maxLine ∧ ((findTablet S m.tablet).isSome ∨ m.payload = [])

/-! ## One message -/

theorem isWord_replOp (op : ReplOp) : IsWord op.word := by
  cases op with
  | put row col val => exact isWord_word .put
  | delete row col => exact isWord_word .delete

theorem lf_notMem_replHeader (m : ReplMsg) : lf ∉ m.header := by
  have hword : lf ∉ m.op.word := fun h => absurd ((isWord_replOp m.op).blank lf h) (by decide)
  have htablet : lf ∉ m.tablet := fun h => absurd (m.isWord.blank lf h) (by decide)
  have hspace : lf ≠ space := by decide
  have hcmd : lf ∉ ascii "REPLICATE" := by decide
  rw [ReplMsg.header, replHeader]
  simp only [List.mem_append, List.mem_cons, not_or]
  exact ⟨hcmd, hspace, htablet, hspace, lf_notMem_text _, hspace, hword, lf_notMem_sizeText _⟩

theorem replHeader_ne_nil (m : ReplMsg) : m.header ≠ [] := List.cons_ne_nil _ _

theorem lt_length_bytes (m : ReplMsg) : m.payload.length < m.bytes.length := by
  rw [ReplMsg.bytes_eq, List.length_append, List.length_append, crlf]
  simp

/-- **The words of the header.** -/
theorem getWord_header (m : ReplMsg) :
    getWord (some m.header) =
      (ascii "REPLICATE",
        some (space :: (m.tablet ++ space :: (Decimal.text m.lsn ++ space :: (m.op.word ++ sizeText m.op.fields))))) :=
  getWord_append ⟨by decide +kernel, by decide +kernel⟩ (endsWord_space _)

theorem getWord_tablet (m : ReplMsg) (rest : Bytes) :
    getWord (some (space :: (m.tablet ++ space :: rest))) = (m.tablet, some (space :: rest)) :=
  getWord_space m.isWord (endsWord_space rest)

theorem getNat_lsn (m : ReplMsg) (rest : Bytes) :
    getNat 64 (some (space :: (Decimal.text m.lsn ++ space :: rest))) = (m.lsn, some (space :: rest)) :=
  getNat_space m.lsn_lt (endsWord_space rest)

theorem getWord_op (m : ReplMsg) :
    getWord (some (space :: (m.op.word ++ sizeText m.op.fields))) = (m.op.word, some (sizeText m.op.fields)) :=
  getWord_space (isWord_replOp m.op) (endsWord_sizeText _)

/-- A line with the header of a message goes to `REPLICATE`, which finds the tablet by
its name. -/
theorem handleReplLine_bytes {m : ReplMsg} (hfits : m.header.length < maxLine) (rest : Bytes) (st : σ) :
    handleReplLine S (m.bytes ++ rest) st =
      handleReplicate S
        (some (space :: (m.tablet ++ space :: (Decimal.text m.lsn ++ space :: (m.op.word ++ sizeText m.op.fields)))))
        (m.payload ++ rest) st := by
  have hline : readLine maxLine (m.bytes ++ rest) = some (m.header, m.payload ++ rest) := by
    rw [ReplMsg.bytes_eq, List.append_assoc]
    exact readLine_crlf (lf_notMem_replHeader m) hfits _
  rw [handleReplLine, hline]
  dsimp only
  rw [if_neg (replHeader_ne_nil m), getWord_header]
  exact if_pos rfl

/-- For a tablet that is not found the payload stays where it is. -/
theorem handleReplLine_notHosted {m : ReplMsg} (hfits : m.header.length < maxLine)
    (hnone : findTablet S m.tablet = none) (rest : Bytes) (st : σ) :
    handleReplLine S (m.bytes ++ rest) st = .say notHosted (m.payload ++ rest) st := by
  rw [handleReplLine_bytes S hfits, handleReplicate, getWord_tablet]
  dsimp only
  rw [if_neg m.isWord.ne_nil, getNat_lsn]
  dsimp only
  rw [getWord_op]
  dsimp only
  rw [hnone]

/-- Otherwise it is read and applied. -/
theorem handleReplLine_hosted {m : ReplMsg} {hosted : HostedTablet} (hfits : m.header.length < maxLine)
    (hsome : findTablet S m.tablet = some hosted) (rest : Bytes) (st : σ) :
    handleReplLine S (m.bytes ++ rest) st = finishReplicate S hosted m.lsn m.op rest st := by
  rw [handleReplLine_bytes S hfits, handleReplicate, getWord_tablet]
  dsimp only
  rw [if_neg m.isWord.ne_nil, getNat_lsn]
  dsimp only
  rw [getWord_op]
  dsimp only
  rw [hsome]
  dsimp only
  have htake := takeFields_append m.op.fields rest
  have hnats := getNats_sizeText m.op.fields
  rw [ReplMsg.payload]
  cases hop : m.op with
  | put row col val =>
      rw [hop] at htake hnats
      have hput : (ReplOp.put row col val).word = ascii "PUT" := rfl
      have hsizes : (getNats 32 3 (some (sizeText (ReplOp.put row col val).fields))).1 =
          (ReplOp.put row col val).fields.map (fun f => f.val.length) := congrArg Prod.fst hnats
      rw [if_pos hput, hsizes, htake]
      rfl
  | delete row col =>
      rw [hop] at htake hnats
      have hdelete : (ReplOp.delete row col).word = ascii "DELETE" := rfl
      have hsizes : (getNats 32 2 (some (sizeText (ReplOp.delete row col).fields))).1 =
          (ReplOp.delete row col).fields.map (fun f => f.val.length) := congrArg Prod.fst hnats
      have hput : ¬ (ReplOp.delete row col).word = ascii "PUT" := fun h => absurd h (by decide : ascii "DELETE" ≠ ascii "PUT")
      rw [if_neg hput, if_pos hdelete, hsizes, htake]
      rfl

/-- A header that does not fit ends the connection. -/
theorem handleReplLine_long {m : ReplMsg} (hlong : maxLine ≤ m.header.length) (rest : Bytes) (st : σ) :
    handleReplLine S (m.bytes ++ rest) st = .close st := by
  have hlf : lf ∉ m.header ++ [cr] := by
    rw [List.mem_append, List.mem_singleton]
    rintro (h | h)
    · exact lf_notMem_replHeader m h
    · exact absurd h (by decide)
  have hlen : maxLine < (m.header ++ [cr]).length := by
    rw [List.length_append, List.length_singleton]
    omega
  have hline : readLine maxLine (m.bytes ++ rest) = none := by
    have heq : m.bytes ++ rest = m.header ++ [cr] ++ (lf :: (m.payload ++ rest)) := by
      rw [ReplMsg.bytes_eq, crlf]
      simp only [List.append_assoc, List.cons_append, List.nil_append]
    rw [heq]
    exact readLine_eq_none hlf hlen _
  rw [handleReplLine, hline]

/-- **A message that leaves the connection in order** comes to what it is for. -/
theorem handleReplLine_takes {m : ReplMsg} (h : m.Takes S) (rest : Bytes) (st : σ) :
    handleReplLine S (m.bytes ++ rest) st =
      ⟨(m.deliver S st).1, [(m.deliver S st).2.1], rest, (m.deliver S st).2.2⟩ := by
  obtain ⟨hfits, hfound⟩ := h
  cases htablet : findTablet S m.tablet with
  | none =>
      have hpayload : m.payload = [] := hfound.resolve_left (by rw [htablet]; exact Bool.false_ne_true)
      rw [handleReplLine_notHosted S hfits htablet, hpayload, ReplMsg.deliver, htablet]
      rfl
  | some hosted =>
      rw [handleReplLine_hosted S hfits htablet, finishReplicate, ReplMsg.deliver, htablet]
      dsimp only
      split
      · rfl
      · rfl

/-! ## A connection -/

theorem serveRepl_nil (turns : Nat) (st : σ) : serveRepl S turns [] st = ⟨[], [], st⟩ := by
  cases turns with
  | zero => rfl
  | succ turns => rfl

theorem lineStart_bytes (m : ReplMsg) (rest : Bytes) : lineStart (m.bytes ++ rest) = [(m.bytes ++ rest).length] := by
  have hpos := lt_length_bytes m
  have hne : m.bytes ++ rest ≠ [] := by
    intro hnil
    have hlen := congrArg List.length hnil
    rw [List.length_append, List.length_nil] at hlen
    omega
  exact if_neg hne

/-- **When every message leaves the connection in order**, all of them are read. -/
theorem serveRepl_flatMap {ms : List ReplMsg} {st : σ} (h : ∀ m ∈ reached S ms st, m.Takes S) {turns : Nat}
    (hturns : ms.length < turns) : serveRepl S turns (ms.flatMap ReplMsg.bytes) st = deliverAll S ms st := by
  induction ms generalizing st turns with
  | nil => exact serveRepl_nil S turns st
  | cons m ms ih =>
      obtain ⟨turns, rfl⟩ : ∃ n, turns = n + 1 := ⟨turns - 1, by omega⟩
      rw [List.length_cons] at hturns
      rw [reached] at h
      dsimp only at h
      have hm : m.Takes S := h m List.mem_cons_self
      rw [List.flatMap_cons, serveRepl, handleReplLine_takes S hm, lineStart_bytes, deliverAll, List.flatMap_cons]
      dsimp only
      split
      · rename_i hagain
        rw [if_pos hagain] at h
        rw [ih (fun x hx => h x (List.mem_cons_of_mem _ hx)) (by omega)]
        rfl
      · rfl

/-- Where the first line begins. -/
theorem head?_starts_deliverAll {ms : List ReplMsg} {st : σ} {n : Nat}
    (h : (deliverAll S ms st).starts.head? = some n) : n = (ms.flatMap ReplMsg.bytes).length := by
  cases ms with
  | nil => exact absurd h (by simp [deliverAll])
  | cons m ms => exact (Option.some.inj h).symm

/-- A message whose header does not fit is not answered. -/
theorem header_lt_of_serveRepl {m : ReplMsg} {ms : List ReplMsg} {st : σ} {turns : Nat}
    (h : serveRepl S (turns + 1) (m.bytes ++ ms.flatMap ReplMsg.bytes) st = deliverAll S (m :: ms) st) :
    m.header.length < maxLine := by
  by_contra hlong
  rw [serveRepl, handleReplLine_long S (Nat.not_lt.mp hlong)] at h
  exact absurd (congrArg ReplLog.answers h) nofun

/-- A payload that is not read is where the next line begins. -/
theorem found_of_serveRepl {m : ReplMsg} {ms : List ReplMsg} {st : σ} {turns : Nat}
    (h : serveRepl S (turns + 2) (m.bytes ++ ms.flatMap ReplMsg.bytes) st = deliverAll S (m :: ms) st) :
    (findTablet S m.tablet).isSome ∨ m.payload = [] := by
  by_contra hnot
  rw [not_or, Bool.not_eq_true, Option.isSome_eq_false_iff, Option.isNone_iff_eq_none] at hnot
  obtain ⟨hnone, hpayload⟩ := hnot
  have hfits := header_lt_of_serveRepl S h
  rw [serveRepl, handleReplLine_notHosted S hfits hnone, lineStart_bytes, deliverAll, List.flatMap_cons,
    ReplMsg.deliver, hnone] at h
  have htail : (serveRepl S (turns + 1) (m.payload ++ ms.flatMap ReplMsg.bytes) st).starts =
    (deliverAll S ms st).starts := (List.cons.inj (congrArg ReplLog.starts h)).2
  have hne : m.payload ++ ms.flatMap ReplMsg.bytes ≠ [] := List.append_ne_nil_of_left_ne_nil hpayload _
  have hhead : (serveRepl S (turns + 1) (m.payload ++ ms.flatMap ReplMsg.bytes) st).starts.head? =
      some (m.payload ++ ms.flatMap ReplMsg.bytes).length := by
    rw [serveRepl, lineStart, if_neg hne]
    rfl
  rw [htail] at hhead
  have hlen := head?_starts_deliverAll S hhead
  have hpos := List.length_pos_of_ne_nil hpayload
  rw [List.length_append] at hlen
  omega

/-- **And only then**: at the first message that does not, the connection ends without an
answer, or the next line begins inside the payload. -/
theorem takes_of_serveRepl {ms : List ReplMsg} {st : σ} {turns : Nat}
    (hturns : (ms.flatMap ReplMsg.bytes).length < turns)
    (h : serveRepl S turns (ms.flatMap ReplMsg.bytes) st = deliverAll S ms st) :
    ∀ m ∈ reached S ms st, m.Takes S := by
  induction ms generalizing st turns with
  | nil => exact nofun
  | cons m ms ih =>
      have hpos := lt_length_bytes m
      rw [List.flatMap_cons] at hturns h
      rw [List.length_append] at hturns
      obtain ⟨turns, rfl⟩ : ∃ n, turns = n + 2 := ⟨turns - 2, by omega⟩
      have hm : m.Takes S := ⟨header_lt_of_serveRepl S h, found_of_serveRepl S h⟩
      rw [serveRepl, handleReplLine_takes S hm, lineStart_bytes, deliverAll, List.flatMap_cons] at h
      dsimp only at h
      intro x hx
      rw [reached] at hx
      dsimp only at hx
      rcases List.mem_cons.mp hx with rfl | hx
      · exact hm
      · split at hx
        · rename_i hagain
          rw [if_pos hagain, if_pos hagain] at h
          obtain ⟨hstarts, hanswers, hst⟩ := ReplLog.mk.inj h
          have hrest : serveRepl S (turns + 1) (ms.flatMap ReplMsg.bytes) (m.deliver S st).2.2 =
              deliverAll S ms (m.deliver S st).2.2 :=
            ReplLog.ext (List.cons.inj hstarts).2 (List.cons.inj hanswers).2 hst
          exact ih (by omega) hrest x hx
        · exact absurd hx (by simp)

/-- **Messages are read one after another, answered once, and nothing in them is taken for
a command**, if and only if each message that is reached has a header that fits into a
line, and a tablet on this server or nothing behind the header. -/
theorem repl_framed (ms : List ReplMsg) (st : σ) :
    handleReplConnection S (ms.flatMap ReplMsg.bytes) st = deliverAll S ms st ↔
      ∀ m ∈ reached S ms st, m.Takes S := by
  constructor
  · exact takes_of_serveRepl S (Nat.lt_succ_self _)
  · intro h
    have hlen : ms.length ≤ (ms.flatMap ReplMsg.bytes).length := by
      clear h
      induction ms with
      | nil => exact Nat.le_refl _
      | cons m ms ih =>
          have hpos := lt_length_bytes m
          rw [List.flatMap_cons, List.length_append, List.length_cons]
          omega
    exact serveRepl_flatMap S h (Nat.lt_succ_of_le hlen)

end Server

/-- A server with two tablets that have no replication to speak of; its state are the
tablets it has become the primary of. -/
def twoTablets : ReplServer (List Bytes) where
  hosted := [⟨ascii "a", true⟩, ⟨ascii "b", true⟩]
  applyReplicatePut _ _ _ _ _ st := (true, st)
  applyReplicateDelete _ _ _ _ st := (true, st)
  lsn _ _ := 0
  buildSyncResponse _ _ _ st := ([], st)
  promoteToPrimary hosted st := st ++ [hosted.name]
  becomeSecondaryAndSync _ _ _ st := (false, st)
  addReplica _ _ _ _ st := st

/-- A write to a third tablet, of a row that reads like a command. -/
def strayPut : ReplMsg where
  tablet := ascii "c"
  isWord := ⟨by decide +kernel, by decide +kernel⟩
  lsn := 1
  lsn_lt := by decide
  op := .put ⟨ascii "BECOME_PRIMARY b" ++ crlf, by decide⟩ emptyField emptyField

/-- The row makes the server the primary of its second tablet. -/
theorem strayPut_promotes :
    (handleReplConnection twoTablets ([strayPut].flatMap ReplMsg.bytes) []).st = [ascii "b"] ∧
      handleReplConnection twoTablets ([strayPut].flatMap ReplMsg.bytes) [] ≠
        deliverAll twoTablets [strayPut] [] := by
  have hst : (handleReplConnection twoTablets ([strayPut].flatMap ReplMsg.bytes) []).st = [ascii "b"] := by
    decide
  refine ⟨hst, fun heq => ?_⟩
  rw [heq] at hst
  exact absurd hst (by decide)

end NCloud.Protocol
