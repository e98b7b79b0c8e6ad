import NCloud.Lib.KeyValue
import NCloud.Lib.Stream
import NCloud.Replication.Manager
import NCloud.Storage.Format

/-!
# Requests between clients and storage nodes

A request is a header line with the sizes of what follows, and then the raw bytes of row,
column and values. The reply to a `GET` is a line with the size of the value and then
its bytes, every other reply is a line. Many requests share one connection, and whoever
reads one byte too few or too many takes data for a header from then on.

`handleConnection` is the server's loop on everything a client sends, and `readReplies`
what the client makes of everything the server sends back. What they should come to is
said in terms of the tablets alone: which of their functions are called, with which
arguments and in which order, and what each caller hears of what its call returned.
-/

namespace NCloud.Protocol

open Wire Reader

/-- The longest line that `read_line` takes. -/
def maxLine : Nat := 8192

/-! ## Requests -/

/-- The operations. -/
inductive Op where
  | put
  | get
  | cput
  | delete
  deriving DecidableEq

namespace Op

/-- The first word of the header. -/
def word : Op → Bytes
  | put => ascii "PUT"
  | get => ascii "GET"
  | cput => ascii "CPUT"
  | delete => ascii "DELETE"

/-- How many sizes follow. -/
def arity : Op → Nat
  | put => 3
  | get => 2
  | cput => 4
  | delete => 2

end Op

/-- Requests. -/
inductive Request where
  | put (row col val : Field)
  | get (row col : Field)
  | cput (row col v1 v2 : Field)
  | delete (row col : Field)

/-- The sizes in a header. -/
def sizeText (fields : List Field) : Bytes := fields.flatMap (fun f => space :: Decimal.text f.val.length)

/-- A header line without its end. -/
def header (word : Bytes) (fields : List Field) : Bytes := word ++ sizeText fields

/-- A header and what it announces. -/
def framed (word : Bytes) (fields : List Field) : Bytes :=
  header word fields ++ crlf ++ fields.flatMap (fun f => f.val)

/-- `send_put`, and `send_put_bytes` for a value given by its address and size. -/
def sendPut (row col val : Field) : Bytes := framed (ascii "PUT") [row, col, val]

/-- `send_get`. -/
def sendGet (row col : Field) : Bytes := framed (ascii "GET") [row, col]

/-- `send_cput`. -/
def sendCput (row col v1 v2 : Field) : Bytes := framed (ascii "CPUT") [row, col, v1, v2]

/-- `send_delete`. -/
def sendDelete (row col : Field) : Bytes := framed (ascii "DELETE") [row, col]

namespace Request

/-- The operation. -/
def op : Request → Op
  | put _ _ _ => .put
  | get _ _ => .get
  | cput _ _ _ _ => .cput
  | delete _ _ => .delete

/-- The arguments. -/
def fields : Request → List Field
  | put row col val => [row, col, val]
  | get row col => [row, col]
  | cput row col v1 v2 => [row, col, v1, v2]
  | delete row col => [row, col]

/-- What the client sends. -/
def bytes : Request → Bytes
  | put row col val => sendPut row col val
  | get row col => sendGet row col
  | cput row col v1 v2 => sendCput row col v1 v2
  | delete row col => sendDelete row col

/-- The request with these arguments. -/
def ofFields : Op → List Field → Option Request
  | .put, [row, col, val] => some (put row col val)
  | .get, [row, col] => some (get row col)
  | .cput, [row, col, v1, v2] => some (cput row col v1 v2)
  | .delete, [row, col] => some (delete row col)
  | _, _ => none

theorem bytes_eq (req : Request) : req.bytes = framed req.op.word req.fields := by
  cases req <;> rfl

theorem ofFields_fields (req : Request) : ofFields req.op req.fields = some req := by
  cases req <;> rfl

theorem length_fields (req : Request) : req.fields.length = req.op.arity := by
  cases req <;> rfl

end Request

/-! ## The server -/

/-- Why a request fails. -/
inductive Failure where
  | notHosted
  | noQuorum
  | putFailed
  | mismatch
  | deleteFailed
  | notFound
  deriving DecidableEq

/-- The text of the reply. -/
def Failure.text : Failure → Bytes
  | notHosted => ascii "row not hosted on this server"
  | noQuorum => ascii "no quorum"
  | putFailed => ascii "PUT failed"
  | mismatch => ascii "value mismatch"
  | deleteFailed => ascii "DELETE failed"
  | notFound => ascii "not found"

/-- What comes of a request. -/
inductive Result where
  | ok
  | value (v : Field)
  | error (f : Failure)

/-- Requests that carry no data. -/
inductive Admin where
  | ping
  | stats
  | dump (limit offset : Nat)
  | checkpoint

/-- The tablets behind a server. An operation says `none` where no tablet hosts the row,
and a tablet without replicas answers `ok` or `error`; `get` counts its operations;
`admin` gives the whole reply. -/
structure Backend (σ : Type) where
  put : (row col val : Field) → σ → Option KVPutStatus × σ
  get : (row col : Field) → σ → Option (Option Field) × σ
  cput : (row col v1 v2 : Field) → σ → Option KVPutStatus × σ
  delete : (row col : Field) → σ → Option KVPutStatus × σ
  admin : Admin → σ → Bytes × σ

/-- What a status is answered with, given the text for everything but the quorum. -/
def Result.ofStatus (failure : Failure) : Option KVPutStatus → Result
  | none => error .notHosted
  | some .ok => ok
  | some .quorumUnavailable => error .noQuorum
  | some _ => error failure

section Server

variable {σ : Type} (B : Backend σ)

/-- Execute a request. -/
def Request.perform : Request → σ → Result × σ
  | put row col val, st =>
      let (status, st) := B.put row col val st
      (.ofStatus .putFailed status, st)
  | get row col, st =>
      match B.get row col st with
      | (none, st) => (.error .notHosted, st)
      | (some none, st) => (.error .notFound, st)
      | (some (some v), st) => (.value v, st)
  | cput row col v1 v2, st =>
      let (status, st) := B.cput row col v1 v2 st
      (.ofStatus .mismatch status, st)
  | delete row col, st =>
      let (status, st) := B.delete row col st
      (.ofStatus .deleteFailed status, st)

/-- `ok_response`. -/
def okResponse : Bytes := ascii "+OK" ++ crlf

/-- `ok_value_response`. -/
def okValueResponse (v : Bytes) : Bytes := ascii "+OK " ++ Decimal.text v.length ++ crlf ++ v

/-- `err_response`. -/
def errResponse (msg : Bytes) : Bytes := ascii "-ERR " ++ msg ++ crlf

/-- The reply. -/
def Result.reply : Result → Bytes
  | ok => okResponse
  | value v => okValueResponse v.val
  | error f => errResponse f.text

/-- `read_exact` into several strings. -/
def takeFields : List Nat → Reader (List Field)
  | [] => pure []
  | n :: ns => do
      let f ← body n
      let fs ← takeFields ns
      return f :: fs

/-- `ss >> n1 >> n2 >> ...`. -/
def getNats (bits : Nat) : Nat → Words → List Nat × Words
  | 0, ss => ([], ss)
  | count + 1, ss =>
      let (n, ss) := getNat bits ss
      let (ns, ss) := getNats bits count ss
      (n :: ns, ss)

/-- One turn of the server: whether it goes on, what it has sent, and what is left to be
read. -/
structure Turn (σ : Type) where
  again : Bool
  sent : Bytes
  rest : Bytes
  st : σ

/-- A turn that ends the connection. -/
def Turn.close (st : σ) : Turn σ := ⟨false, [], [], st⟩

/-- A reply without a request. -/
def Turn.say (sent rest : Bytes) (st : σ) : Turn σ := ⟨true, sent, rest, st⟩

/-- The branch of `handle_request` for one of the operations. -/
def handleOp (op : Op) (ss : Words) (rest : Bytes) (st : σ) : Turn σ :=
  match getNats 32 op.arity ss with
  | (_, none) => .say (errResponse (ascii "malformed " ++ op.word ++ ascii " header")) rest st
  | (sizes, some _) =>
      match takeFields sizes rest with
      | none => .close st
      | some (fields, rest) =>
          match Request.ofFields op fields with
          | none => .close st
          | some req =>
              let (result, st) := req.perform B st
              ⟨true, result.reply, rest, st⟩

/-- The branches for the rest. -/
def handleAdmin (a : Admin) (rest : Bytes) (st : σ) : Turn σ :=
  let (sent, st) := B.admin a st
  .say sent rest st

/-- The arguments of `DUMP`. -/
def dumpOf (ss : Words) : Admin :=
  let (limit, ss) := getNat 64 ss
  let (offset, _) := getNat 64 ss
  .dump (min (if limit = 0 then 10 else limit) 200) offset

/-- `handle_request`. -/
def handleRequest (input : Bytes) (st : σ) : Turn σ :=
  match readLine maxLine input with
  | none => .close st
  | some (line, rest) =>
      if line = [] then .say [] rest st
      else
        let (op, ss) := getWord (some line)
        if op = ascii "PUT" then handleOp B .put ss rest st
        else if op = ascii "GET" then handleOp B .get ss rest st
        else if op = ascii "CPUT" then handleOp B .cput ss rest st
        else if op = ascii "DELETE" then handleOp B .delete ss rest st
        else if op = ascii "PING" then handleAdmin B .ping rest st
        else if op = ascii "STATS" then handleAdmin B .stats rest st
        else if op = ascii "DUMP" then handleAdmin B (dumpOf ss) rest st
        else if op = ascii "CHECKPOINT" then handleAdmin B .checkpoint rest st
        else .say (errResponse (ascii "unknown op: " ++ op)) rest st

/-- What a connection comes to: the header lines that were read, and what was sent. -/
structure Log (σ : Type) where
  lines : List Bytes
  sent : Bytes
  st : σ

/-- The line a turn begins with. -/
def firstLine (input : Bytes) : List Bytes := (readLine maxLine input).toList.map Prod.fst

/-- The loop of `handle_connection`, for at most so many turns. -/
def serve : (turns : Nat) → Bytes → σ → Log σ
  | 0, _, st => ⟨[], [], st⟩
  | turns + 1, input, st =>
      let t := handleRequest B input st
      let l := if t.again then serve turns t.rest t.st else ⟨[], [], t.st⟩
      ⟨firstLine input ++ l.lines, t.sent ++ l.sent, l.st⟩

/-- `handle_connection` on everything the client sends. Every turn reads a line. -/
def handleConnection (input : Bytes) (st : σ) : Log σ := serve B (input.length + 1) input st

/-- Requests one after another. -/
def performAll : List Request → σ → List Result × σ
  | [], st => ([], st)
  | req :: reqs, st =>
      let (result, st) := req.perform B st
      let (results, st) := performAll reqs st
      (result :: results, st)

end Server

/-! ## The client -/

/-- `KVResponse`. -/
structure KVResponse where
  ok : Bool
  value : Bytes
  error : Bytes
  deriving DecidableEq

/-- `std::stoul` on a string that has to be a number to its end. -/
def stoulAll (s : Bytes) : Option Nat :=
  if (getSign (skipBlanks s)).2.dropWhile (fun b => decide (Decimal.IsDigit b)) = [] then Decimal.stoul s
  else none

/-- What `read_exact` leaves in the string when the connection ends. -/
def truncated (n : Nat) (rest : Bytes) : Bytes := rest ++ List.replicate (n - rest.length) 0

/-- `read_response`. -/
def readResponse (input : Bytes) : KVResponse × Bytes :=
  match readLine maxLine input with
  | none => (⟨false, [], ascii "connection closed"⟩, [])
  | some (line, rest) =>
      if (ascii "+OK").isPrefixOf line then
        if line.length > 4 then
          match stoulAll (line.drop 4) with
          | none => (⟨false, [], ascii "bad value length"⟩, rest)
          | some n =>
              match take n rest with
              | none => (⟨false, truncated n rest, ascii "truncated value"⟩, [])
              | some (v, rest) => (⟨true, v, []⟩, rest)
        else (⟨true, [], []⟩, rest)
      else if (ascii "-ERR").isPrefixOf line then
        (⟨false, [], if line.length > 5 then line.drop 5 else []⟩, rest)
      else (⟨false, [], []⟩, rest)

/-- `do_get_once` after its request has been sent. -/
def doGetOnce (input : Bytes) : KeyValue.Read Bytes × Bytes :=
  match readLine maxLine input with
  | none => (.unavailable, [])
  | some (line, rest) =>
      if (ascii "+OK ").isPrefixOf line then
        match getNat 32 (some (line.drop 4)) with
        | (_, none) => (.unavailable, rest)
        | (n, some _) =>
            match take n rest with
            | none => (.unavailable, [])
            | some (v, rest) => (.found v, rest)
      else if (ascii "-ERR ").isPrefixOf line then
        if line.drop 5 = ascii "not found" then (.notFound, rest) else (.unavailable, rest)
      else (.unavailable, rest)

/-- How a client reads a reply. -/
inductive Decoder where
  | readResponse
  | doGetOnce

/-- What it hears. -/
inductive Heard where
  | response (r : KVResponse)
  | status (s : KeyValue.Read Bytes)

/-- One reply. -/
def Decoder.read (input : Bytes) : Decoder → Heard × Bytes
  | readResponse =>
      let (r, rest) := Protocol.readResponse input
      (.response r, rest)
  | doGetOnce =>
      let (s, rest) := Protocol.doGetOnce input
      (.status s, rest)

/-- One reply after another. -/
def readReplies : List Decoder → Bytes → List Heard × Bytes
  | [], input => ([], input)
  | d :: ds, input =>
      let (h, rest) := d.read input
      let (hs, rest) := readReplies ds rest
      (h :: hs, rest)

/-- What a result looks like to the caller. -/
def Decoder.hear : Decoder → Result → Heard
  | readResponse, .ok => .response ⟨true, [], []⟩
  | readResponse, .value v => .response ⟨true, v.val, []⟩
  | readResponse, .error f => .response ⟨false, [], f.text⟩
  | doGetOnce, .ok => .status .unavailable
  | doGetOnce, .value v => .status (.found v.val)
  | doGetOnce, .error f => .status (if f = .notFound then .notFound else .unavailable)

/-! ## What the tablets see -/

/-- A call of one of the functions of the tablets. -/
inductive TabletCall where
  | put (row col val : Field)
  | get (row col : Field)
  | cput (row col v1 v2 : Field)
  | delete (row col : Field)
  deriving DecidableEq

/-- What it returns. -/
inductive Returned where
  | status (s : Option KVPutStatus)
  | value (v : Option (Option Field))

/-- The call that a request asks for. -/
def Request.call : Request → TabletCall
  | put row col val => .put row col val
  | get row col => .get row col
  | cput row col v1 v2 => .cput row col v1 v2
  | delete row col => .delete row col

/-- The tablets, with a list of the calls that have been made. -/
def Backend.traced {σ : Type} (B : Backend σ) : Backend (σ × List TabletCall) where
  put := fun row col val st =>
    ((B.put row col val st.1).1, (B.put row col val st.1).2, st.2 ++ [.put row col val])
  get := fun row col st => ((B.get row col st.1).1, (B.get row col st.1).2, st.2 ++ [.get row col])
  cput := fun row col v1 v2 st =>
    ((B.cput row col v1 v2 st.1).1, (B.cput row col v1 v2 st.1).2, st.2 ++ [.cput row col v1 v2])
  delete := fun row col st => ((B.delete row col st.1).1, (B.delete row col st.1).2, st.2 ++ [.delete row col])
  admin := fun a st => ((B.admin a st.1).1, (B.admin a st.1).2, st.2)

/-- The effect of a call. -/
def TabletCall.run {σ : Type} (B : Backend σ) (st : σ) : TabletCall → Returned × σ
  | put row col val => (.status (B.put row col val st).1, (B.put row col val st).2)
  | get row col => (.value (B.get row col st).1, (B.get row col st).2)
  | cput row col v1 v2 => (.status (B.cput row col v1 v2 st).1, (B.cput row col v1 v2 st).2)
  | delete row col => (.status (B.delete row col st).1, (B.delete row col st).2)

/-- One call after another: what they return, and the tablets after them. -/
def runCalls {σ : Type} (B : Backend σ) : List TabletCall → σ → List Returned × σ
  | [], st => ([], st)
  | c :: cs, st => ((c.run B st).1 :: (runCalls B cs (c.run B st).2).1, (runCalls B cs (c.run B st).2).2)

/-- The text that a caller reads when a write has not gone through. -/
def TabletCall.failure : TabletCall → Bytes
  | put _ _ _ => ascii "PUT failed"
  | get _ _ => []
  | cput _ _ _ _ => ascii "value mismatch"
  | delete _ _ => ascii "DELETE failed"

/-- What `read_response` should make of a call and what it returned. -/
def TabletCall.response (c : TabletCall) : Returned → KVResponse
  | .status none => ⟨false, [], ascii "row not hosted on this server"⟩
  | .status (some .ok) => ⟨true, [], []⟩
  | .status (some .quorumUnavailable) => ⟨false, [], ascii "no quorum"⟩
  | .status (some _) => ⟨false, [], c.failure⟩
  | .value none => ⟨false, [], ascii "row not hosted on this server"⟩
  | .value (some none) => ⟨false, [], ascii "not found"⟩
  | .value (some (some v)) => ⟨true, v.val, []⟩

/-- And `do_get_once`. -/
def Returned.read : Returned → KeyValue.Read Bytes
  | .value (some (some v)) => .found v.val
  | .value (some none) => .notFound
  | _ => .unavailable

/-- What the caller should hear. -/
def Decoder.expect (c : TabletCall) (r : Returned) : Decoder → Heard
  | readResponse => .response (c.response r)
  | doGetOnce => .status r.read

/-! ## Framing -/

section Framing

theorem endsWord_sizeText (fields : List Field) : EndsWord (sizeText fields) := by
  cases fields with
  | nil => exact endsWord_nil
  | cons f fields => exact endsWord_space _

/-- **The sizes are read back.** -/
theorem getNats_sizeText (fields : List Field) :
    getNats 32 fields.length (some (sizeText fields)) = (fields.map (fun f => f.val.length), some []) := by
  induction fields with
  | nil => rfl
  | cons f fields ih =>
      have hone : getNat 32 (some (sizeText (f :: fields))) = (f.val.length, some (sizeText fields)) :=
        getNat_space f.property (endsWord_sizeText fields)
      rw [List.length_cons, getNats, hone]
      dsimp only
      rw [ih]
      rfl

/-- **So are the fields.** -/
theorem takeFields_append (fields : List Field) (rest : Bytes) :
    takeFields (fields.map (fun f => f.val.length)) (fields.flatMap (fun f => f.val) ++ rest) =
      some (fields, rest) := by
  induction fields with
  | nil => rfl
  | cons f fields ih =>
      rw [List.map_cons, takeFields, List.flatMap_cons, List.append_assoc,
        bind_of_some (body_append f _), bind_of_some ih]
      rfl

theorem isWord_word (op : Op) : IsWord op.word := by
  constructor
  · cases op <;> decide
  · cases op <;> decide +kernel

theorem lf_notMem_word (op : Op) : lf ∉ op.word := by cases op <;> decide

theorem length_word_le (op : Op) : op.word.length ≤ 6 := by cases op <;> decide

theorem arity_le (op : Op) : op.arity ≤ 4 := by cases op <;> decide

theorem length_sizeText_le (fields : List Field) : (sizeText fields).length ≤ 11 * fields.length := by
  induction fields with
  | nil => exact Nat.le_refl _
  | cons f fields ih =>
      have hlt : f.val.length < 10 ^ 10 := Nat.lt_trans f.property (by decide)
      have hdigits := Decimal.text_length_le (by decide : 0 < 10) hlt
      rw [sizeText, List.flatMap_cons, List.length_append, List.length_cons, List.length_cons]
      have ih : (fields.flatMap (fun f => space :: Decimal.text f.val.length)).length ≤ 11 * fields.length := ih
      omega

theorem lf_notMem_sizeText (fields : List Field) : lf ∉ sizeText fields := by
  intro h
  obtain ⟨f, -, hf⟩ := List.mem_flatMap.mp h
  rcases List.mem_cons.mp hf with heq | hf
  · exact absurd heq (by decide)
  · exact lf_notMem_text _ hf

/-- **The header line.** -/
theorem readLine_framed (req : Request) (rest : Bytes) :
    readLine maxLine (req.bytes ++ rest) =
      some (header req.op.word req.fields, req.fields.flatMap (fun f => f.val) ++ rest) := by
  have hlf : lf ∉ header req.op.word req.fields := by
    rw [header, List.mem_append]
    rintro (h | h)
    · exact lf_notMem_word _ h
    · exact lf_notMem_sizeText _ h
  have hlen : (header req.op.word req.fields).length < maxLine := by
    have hsizes := length_sizeText_le req.fields
    have hword := length_word_le req.op
    have harity : req.fields.length ≤ 4 := req.length_fields ▸ arity_le req.op
    rw [header, List.length_append, maxLine]
    omega
  rw [Request.bytes_eq, framed, List.append_assoc]
  exact readLine_crlf hlf hlen _

/-- A header is not an empty line. -/
theorem header_ne_nil (op : Op) (fields : List Field) : header op.word fields ≠ [] :=
  List.append_ne_nil_of_left_ne_nil (isWord_word op).ne_nil _

end Framing

section Theorems

variable {σ : Type} (B : Backend σ)

/-- **One request**: it is executed, and answered, and the next byte is that of the next
one. -/
theorem handleRequest_bytes (req : Request) (rest : Bytes) (st : σ) :
    handleRequest B (req.bytes ++ rest) st =
      ⟨true, (req.perform B st).1.reply, rest, (req.perform B st).2⟩ := by
  have hword : getWord (some (header req.op.word req.fields)) = (req.op.word, some (sizeText req.fields)) :=
    getWord_append (isWord_word req.op) (endsWord_sizeText req.fields)
  have hop : handleOp B req.op (some (sizeText req.fields)) (req.fields.flatMap (fun f => f.val) ++ rest) st =
      ⟨true, (req.perform B st).1.reply, rest, (req.perform B st).2⟩ := by
    rw [handleOp, ← Request.length_fields, getNats_sizeText]
    dsimp only
    rw [takeFields_append]
    dsimp only
    rw [Request.ofFields_fields]
  rw [handleRequest, readLine_framed]
  dsimp only
  rw [if_neg (header_ne_nil _ _), hword]
  dsimp only
  -- the word decides the branch
  cases hreq : req.op with
  | put =>
      have hput : Op.put.word = ascii "PUT" := rfl
      rw [hreq] at hop
      rw [if_pos hput, hop]
  | get =>
      have hget : Op.get.word = ascii "GET" := rfl
      rw [hreq] at hop
      rw [if_neg (by decide), if_pos hget, hop]
  | cput =>
      have hcput : Op.cput.word = ascii "CPUT" := rfl
      rw [hreq] at hop
      rw [if_neg (by decide), if_neg (by decide), if_pos hcput, hop]
  | delete =>
      have hdelete : Op.delete.word = ascii "DELETE" := rfl
      rw [hreq] at hop
      rw [if_neg (by decide), if_neg (by decide), if_neg (by decide), if_pos hdelete, hop]

/-- Many requests, and then the client closes its side. -/
theorem serve_flatMap (reqs : List Request) (st : σ) {turns : Nat} (h : reqs.length < turns) :
    serve B turns (reqs.flatMap Request.bytes) st =
      ⟨reqs.map (fun req => header req.op.word req.fields),
        ((performAll B reqs st).1.flatMap Result.reply), (performAll B reqs st).2⟩ := by
  induction reqs generalizing st turns with
  | nil =>
      obtain ⟨turns, rfl⟩ : ∃ n, turns = n + 1 := ⟨turns - 1, by omega⟩
      rfl
  | cons req reqs ih =>
      obtain ⟨turns, rfl⟩ : ∃ n, turns = n + 1 := ⟨turns - 1, by omega⟩
      rw [List.length_cons] at h
      rw [List.flatMap_cons, serve, handleRequest_bytes, firstLine, readLine_framed]
      dsimp only
      rw [if_pos rfl, ih (req.perform B st).2 (by omega)]
      rfl

theorem length_le_flatMap (reqs : List Request) : reqs.length ≤ (reqs.flatMap Request.bytes).length := by
  induction reqs with
  | nil => exact Nat.le_refl _
  | cons req reqs ih =>
      have hpos : 0 < req.bytes.length := by cases req <;> exact Nat.succ_pos _
      rw [List.flatMap_cons, List.length_append, List.length_cons]
      omega

/-! ## Replies -/

theorem lf_notMem_failure (f : Failure) : lf ∉ f.text := by cases f <;> decide

/-- A line that tells of a failure. -/
theorem readLine_errResponse (f : Failure) (rest : Bytes) :
    readLine maxLine (errResponse f.text ++ rest) = some (ascii "-ERR " ++ f.text, rest) := by
  have hlf : lf ∉ ascii "-ERR " ++ f.text := by
    rw [List.mem_append]
    rintro (h | h)
    · exact absurd h (by decide)
    · exact lf_notMem_failure f h
  have hlen : (ascii "-ERR " ++ f.text).length < maxLine := by cases f <;> decide
  exact readLine_crlf hlf hlen rest

/-- The line in front of a value. -/
theorem readLine_okValueResponse (v : Field) (rest : Bytes) :
    readLine maxLine (okValueResponse v.val ++ rest) =
      some (ascii "+OK " ++ Decimal.text v.val.length, v.val ++ rest) := by
  have hlf : lf ∉ ascii "+OK " ++ Decimal.text v.val.length := by
    rw [List.mem_append]
    rintro (h | h)
    · exact absurd h (by decide)
    · exact lf_notMem_text _ h
  have hdigits := Decimal.text_length_le (by decide : 0 < 10)
    (Nat.lt_trans v.property (by decide : 2 ^ 32 < 10 ^ 10))
  have hlen : (ascii "+OK " ++ Decimal.text v.val.length).length < maxLine := by
    rw [List.length_append, show (ascii "+OK ").length = 4 from rfl, maxLine]
    omega
  rw [okValueResponse, List.append_assoc]
  exact readLine_crlf hlf hlen _

theorem stoulAll_text {n : Nat} (h : n < 2 ^ 64) : stoulAll (Decimal.text n) = some n := by
  have hsign : getSign (skipBlanks (Decimal.text n)) = (false, Decimal.text n) := by
    have hsign := getSign_text n []
    rwa [List.append_nil] at hsign
  have hend : (Decimal.text n).dropWhile (fun b => decide (Decimal.IsDigit b)) = [] := by
    have hcut : (Decimal.text n ++ []).dropWhile (fun b => decide (Decimal.IsDigit b)) = [] :=
      (Decimal.cut_text n (fun b hb => absurd hb (by simp))).2
    rwa [List.append_nil] at hcut
  rw [stoulAll, hsign, if_pos hend, Decimal.stoul_text h]

/-- `read_response` takes one reply. -/
theorem readResponse_reply (result : Result) (rest : Bytes) :
    Decoder.readResponse.read (result.reply ++ rest) = (Decoder.readResponse.hear result, rest) := by
  cases result with
  | ok => rfl
  | value v =>
      have hprefixed : (ascii "+OK").isPrefixOf (ascii "+OK " ++ Decimal.text v.val.length) = true := rfl
      obtain ⟨b, s, htext, -⟩ := Decimal.text_cons v.val.length
      -- there are digits behind the word, so a value is read, also an empty one
      have hlong : (ascii "+OK " ++ Decimal.text v.val.length).length > 4 := by
        rw [htext, List.length_append, List.length_cons, show (ascii "+OK ").length = 4 from rfl]
        omega
      have hdrop : (ascii "+OK " ++ Decimal.text v.val.length).drop 4 = Decimal.text v.val.length := rfl
      have hstoul : stoulAll (Decimal.text v.val.length) = some v.val.length :=
        stoulAll_text (Nat.lt_trans v.property (by decide))
      rw [Decoder.read, Result.reply, readResponse, readLine_okValueResponse]
      dsimp only
      rw [if_pos hprefixed, if_pos hlong, hdrop, hstoul]
      dsimp only
      rw [take_append]
      rfl
  | error f =>
      rw [Decoder.read, Result.reply, readResponse, readLine_errResponse]
      cases f <;> rfl

/-- So does `do_get_once`. -/
theorem doGetOnce_reply (result : Result) (rest : Bytes) :
    Decoder.doGetOnce.read (result.reply ++ rest) = (Decoder.doGetOnce.hear result, rest) := by
  cases result with
  | ok => rfl
  | value v =>
      have hprefixed : (ascii "+OK ").isPrefixOf (ascii "+OK " ++ Decimal.text v.val.length) = true := rfl
      have hdrop : (ascii "+OK " ++ Decimal.text v.val.length).drop 4 = Decimal.text v.val.length := rfl
      have hsize : getNat 32 (some (Decimal.text v.val.length)) = (v.val.length, some []) := by
        have hsize := getNat_text v.property endsWord_nil
        rwa [List.append_nil] at hsize
      rw [Decoder.read, Result.reply, doGetOnce, readLine_okValueResponse]
      dsimp only
      rw [if_pos hprefixed, hdrop, hsize]
      dsimp only
      rw [take_append]
      rfl
  | error f =>
      rw [Decoder.read, Result.reply, doGetOnce, readLine_errResponse]
      cases f <;> rfl

/-- **Both decoders agree on where a reply ends**, and hear what the server meant. -/
theorem Decoder.read_reply (d : Decoder) (result : Result) (rest : Bytes) :
    d.read (result.reply ++ rest) = (d.hear result, rest) := by
  cases d with
  | readResponse => exact readResponse_reply result rest
  | doGetOnce => exact doGetOnce_reply result rest

theorem readReplies_flatMap (ds : List Decoder) (results : List Result) (h : ds.length = results.length) :
    readReplies ds (results.flatMap Result.reply) = (List.zipWith Decoder.hear ds results, []) := by
  induction ds generalizing results with
  | nil =>
      cases results with
      | nil => rfl
      | cons result results => exact absurd h (by simp)
  | cons d ds ih =>
      cases results with
      | nil => exact absurd h (by simp)
      | cons result results =>
          rw [List.flatMap_cons, readReplies, Decoder.read_reply]
          dsimp only
          rw [ih results (Nat.succ.inj h)]
          rfl

theorem length_performAll (reqs : List Request) (st : σ) : (performAll B reqs st).1.length = reqs.length := by
  induction reqs generalizing st with
  | nil => rfl
  | cons req reqs ih => exact congrArg (· + 1) (ih _)

/-! ## The whole connection -/

/-- The server calls what the request asks for. -/
theorem perform_state (req : Request) (st : σ) : (req.perform B st).2 = (req.call.run B st).2 := by
  cases req with
  | put row col val => rfl
  | cput row col v1 v2 => rfl
  | delete row col => rfl
  | get row col =>
      rw [Request.perform, Request.call, TabletCall.run]
      rcases B.get row col st with ⟨_ | _ | v, st'⟩ <;> rfl

/-- And the reply tells what the call returned. -/
theorem hear_perform (d : Decoder) (req : Request) (st : σ) :
    d.hear (req.perform B st).1 = d.expect req.call (req.call.run B st).1 := by
  cases req with
  | put row col val =>
      rw [Request.perform, Request.call, TabletCall.run]
      rcases B.put row col val st with ⟨_ | status, st'⟩
      · cases d <;> rfl
      · cases status <;> cases d <;> rfl
  | cput row col v1 v2 =>
      rw [Request.perform, Request.call, TabletCall.run]
      rcases B.cput row col v1 v2 st with ⟨_ | status, st'⟩
      · cases d <;> rfl
      · cases status <;> cases d <;> rfl
  | delete row col =>
      rw [Request.perform, Request.call, TabletCall.run]
      rcases B.delete row col st with ⟨_ | status, st'⟩
      · cases d <;> rfl
      · cases status <;> cases d <;> rfl
  | get row col =>
      rw [Request.perform, Request.call, TabletCall.run]
      rcases B.get row col st with ⟨_ | _ | v, st'⟩ <;> cases d <;> rfl

theorem performAll_state (reqs : List Request) (st : σ) :
    (performAll B reqs st).2 = (runCalls B (reqs.map Request.call) st).2 := by
  induction reqs generalizing st with
  | nil => rfl
  | cons req reqs ih =>
      show (performAll B reqs (req.perform B st).2).2 = (runCalls B (reqs.map Request.call) (req.call.run B st).2).2
      rw [ih, perform_state]

/-- What the callers hear, one after another. -/
def expected (calls : List (Request × Decoder)) (st : σ) : List Heard :=
  List.zipWith (fun call r => call.2.expect call.1.call r) calls
    (runCalls B ((calls.map Prod.fst).map Request.call) st).1

theorem hear_performAll (calls : List (Request × Decoder)) (st : σ) :
    List.zipWith Decoder.hear (calls.map Prod.snd) (performAll B (calls.map Prod.fst) st).1 =
      expected B calls st := by
  induction calls generalizing st with
  | nil => rfl
  | cons call calls ih =>
      have htail := ih (call.1.perform B st).2
      rw [perform_state] at htail
      show call.2.hear (call.1.perform B st).1 :: List.zipWith Decoder.hear (calls.map Prod.snd)
          (performAll B (calls.map Prod.fst) (call.1.perform B st).2).1
        = call.2.expect call.1.call (call.1.call.run B st).1 :: expected B calls (call.1.call.run B st).2
      rw [hear_perform, perform_state, htail]

/-- The list grows by what is called, and nothing else changes. -/
theorem runCalls_traced (cs : List TabletCall) (st : σ) (before : List TabletCall) :
    runCalls B.traced cs (st, before) = ((runCalls B cs st).1, (runCalls B cs st).2, before ++ cs) := by
  induction cs generalizing st before with
  | nil =>
      rw [List.append_nil]
      rfl
  | cons c cs ih =>
      have hone : c.run B.traced (st, before) = ((c.run B st).1, (c.run B st).2, before ++ [c]) := by
        cases c <;> rfl
      rw [runCalls, hone, ih, List.append_assoc]
      rfl

theorem expected_traced (calls : List (Request × Decoder)) (st : σ) (before : List TabletCall) :
    expected B.traced calls (st, before) = expected B calls st := by
  rw [expected, expected, runCalls_traced]

/-- Everything that comes of a connection. -/
theorem handleConnection_flatMap (reqs : List Request) (st : σ) :
    handleConnection B (reqs.flatMap Request.bytes) st =
      ⟨reqs.map (fun req => header req.op.word req.fields), (performAll B reqs st).1.flatMap Result.reply,
        (performAll B reqs st).2⟩ :=
  serve_flatMap B reqs st (Nat.lt_succ_of_le (length_le_flatMap reqs))

/--
**A connection does what its requests ask for.**

Whatever bytes are in rows, columns and values: the lines that the server takes for
headers are those that the client sent as headers; the functions of the tablets are
called once for each request, in order and with its arguments, and nothing else is
called; and every caller reads one reply, which tells what its own call returned, a
stored value byte for byte.
-/
theorem connection_framed (calls : List (Request × Decoder)) (st : σ) :
    let reqs := calls.map Prod.fst
    let log := handleConnection B.traced (reqs.flatMap Request.bytes) (st, [])
    log.lines = reqs.map (fun req => header req.op.word req.fields) ∧
      log.st = ((runCalls B (reqs.map Request.call) st).2, reqs.map Request.call) ∧
      readReplies (calls.map Prod.snd) log.sent = (expected B calls st, []) := by
  intro reqs log
  have hlog : log = _ := handleConnection_flatMap B.traced reqs (st, [])
  have hlen : (calls.map Prod.snd).length = (performAll B.traced reqs (st, [])).1.length := by
    rw [length_performAll, List.length_map, List.length_map]
  refine ⟨by rw [hlog], ?_, ?_⟩
  · rw [hlog, performAll_state, runCalls_traced]
    rfl
  · rw [hlog, ← expected_traced B calls st [], ← hear_performAll]
    exact readReplies_flatMap _ _ hlen

end Theorems

end NCloud.Protocol
