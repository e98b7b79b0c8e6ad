import NCloud.Protocol.Answers

/-!
# Persistent connections

`handle_connection` and `handle_one_request` of `fe_server.cc`: one request after the other is
read from a connection and answered on it, until the client or an answer closes it. The
handlers are whatever they are.

Clients may send the next request before they have the answer to the last one, and may hang up
at any time. The requests that are handled are those that were sent, in order, and each is
handled after the ones before it have been answered in full (`connection_served`).
-/

namespace NCloud.Persistent

open Wire Protocol.Http Smtp

/-! ## The loop -/

/-- What requests are handled by. -/
structure Handlers (σ : Type) where
  /-- `redirect_to` or `page_not_found_stub` is set. -/
  stub : Bool
  dispatch : HttpRequest → σ → HttpResponse × σ
  getUser : HttpRequest → σ → Bytes × σ
  acquireSseSlot : σ → Bool × σ
  /-- What the stream of events sends, until it ends and its slot is free again. -/
  handleSse : HttpRequest → Bytes → σ → Bytes × σ

/-- What a request comes to: a response, after which the connection may be closed, or one of
the texts that `/events` is answered with. -/
inductive Answer where
  | response (resp : HttpResponse) (isHead close : Bool)
  | unauthorized
  | stream (out : Bytes)

/-- The body of `r401`. -/
def unauthorizedBody : Bytes := ascii "\x7b\"ok\":false,\"error\":\"auth\"\x7d"

/-- `r401`. -/
def unauthorizedText : Bytes :=
  ascii "HTTP/1.1 401 Unauthorized" ++ crlf ++
  ascii "Content-Type: application/json" ++ crlf ++
  ascii "Content-Length: 27" ++ crlf ++
  ascii "Connection: close" ++ crlf ++
  crlf ++ unauthorizedBody

/-- `busy`. -/
def busy : HttpResponse where
  statusCode := 429
  statusText := ascii "Too Many Requests"
  headers := [(ascii "Content-Type", ascii "application/json"), (ascii "Retry-After", ascii "5")]
  body := ascii "\x7b\"ok\":false,\"error\":\"too many live event streams\"\x7d"

/-- `finish_response`, up to the sending. -/
def finishResponse (req : HttpRequest) (resp : HttpResponse) (isHead : Bool) : Answer :=
  match resp.headers.lookup connectionKey with
  | none =>
      let conn := if req.keepAlive then ascii "keep-alive" else ascii "close"
      .response { resp with headers := (connectionKey, conn) :: resp.headers } isHead (!req.keepAlive)
  | some conn => .response resp isHead (!req.keepAlive || contains (ascii "close") (lowerCopy conn))

namespace Answer

/-- The connection is kept. -/
def again : Answer → Bool
  | .response _ _ close => !close
  | .unauthorized => false
  | .stream _ => false

/-- What is sent. -/
def bytes : Answer → Bytes
  | .response resp isHead _ => responseBytes resp isHead
  | .unauthorized => unauthorizedText
  | .stream out => out

/-- Sending it; whether the connection is kept. -/
def send : Answer → Talk Bool
  | .response resp isHead close => do
      sendHttpResponse resp isHead
      pure (!close)
  | .unauthorized => do
      Talk.writeAll unauthorizedText
      pure false
  | .stream out => do
      Talk.writeAll out
      pure false

end Answer

/-- How a connection fares: the requests that were handled, each with how much had been sent
when it was, everything that was sent, and the state of the server. -/
structure Log (σ : Type) where
  handled : List (HttpRequest × Nat)
  sent : Bytes
  st : σ

/-- What `handle_one_request` comes to. -/
structure Turn (σ : Type) where
  again : Bool
  handled : List (HttpRequest × Nat)
  socket : Socket
  st : σ

/-- The fields of `r401`. -/
def unauthorizedFields : List (Bytes × Bytes) :=
  [(ascii "Content-Type", ascii "application/json"), (ascii "Content-Length", ascii "27"),
    (ascii "Connection", ascii "close")]

/-- What the client is to make of an answer. -/
def Answer.reply : Answer → Option Client.Reply
  | .response resp isHead _ => some (resp.reply isHead)
  | .unauthorized => some ⟨401, ascii "Unauthorized", unauthorizedFields, unauthorizedBody⟩
  | .stream _ => none

section Model

variable {σ : Type} (H : Handlers σ) (peer : Bytes)

/-- What a request is answered with. -/
def answer (req : HttpRequest) (st : σ) : Answer × σ :=
  if !H.stub ∧ req.path = ascii "/events" ∧ req.method = ascii "GET" then
    let (user, st) := H.getUser req st
    if user = [] then (.unauthorized, st)
    else
      let (slot, st) := H.acquireSseSlot st
      if slot then
        let (out, st) := H.handleSse req user st
        (.stream out, st)
      else (.response busy false true, st)
  else
    let (resp, st) := H.dispatch req st
    (finishResponse req resp (decide (req.method = ascii "HEAD")), st)

/-- `handle_one_request`. -/
def handleOneRequest (s : Socket) (st : σ) : Turn σ :=
  match readHttpRequest s with
  | (none, s) => ⟨false, [], s, st⟩
  | (some req, s) =>
      let req := { req with remoteAddr := peer }
      let (ans, st) := answer H req st
      let (kept, s') := ans.send s
      ⟨kept.getD false, [(req, s.sent.length)], s', st⟩

/-- The loop of `handle_connection`, while the server runs: for so many turns. -/
def serve : (turns : Nat) → Socket → σ → Log σ
  | 0, s, st => ⟨[], s.sent, st⟩
  | turns + 1, s, st =>
      let t := handleOneRequest H peer s st
      let l := if t.again then serve turns t.socket t.st else ⟨[], t.socket.sent, t.st⟩
      ⟨t.handled ++ l.handled, l.sent, l.st⟩

/-- `handle_connection` on everything the client sends, of which the client takes so much.
Every turn reads a byte. -/
def handleConnection (input : Bytes) (room : Option Nat) (st : σ) : Log σ :=
  serve H peer (input.length + 1) ⟨input, room, []⟩ st

/-! ## What is to come of it -/

/-- A request, what the client is told before the answer, and the answer. -/
structure Exchange where
  request : HttpRequest
  interim : Bytes
  answer : Answer

/-- Requests answered one after another, up to the first answer that closes the connection. -/
def exchanges : List ClientRequest → σ → List Exchange × σ
  | [], st => ([], st)
  | c :: calls, st =>
      let req := { c.request with remoteAddr := peer }
      let (ans, st) := answer H req st
      let first : Exchange := ⟨req, c.interim, ans⟩
      if ans.again then
        let (more, st) := exchanges calls st
        (first :: more, st)
      else ([first], st)

end Model

/-! ## One request -/

theorem runs_send (ans : Answer) (input : Bytes) : Talk.Runs ans.send input (some ans.again) input ans.bytes := by
  have hthen : ∀ {p : Talk Unit} {out : Bytes} (b : Bool), Talk.Runs p input (some ()) input out →
      Talk.Runs (p >>= fun _ => pure b) input (some b) input out := by
    intro p out b h
    have hruns := h.bind (f := fun _ => (pure b : Talk Bool)) (Talk.runs_pure b input)
    rwa [List.append_nil] at hruns
  cases ans with
  | response resp isHead close => exact hthen _ (runs_sendHttpResponse resp isHead input)
  | unauthorized => exact hthen _ (Talk.runs_writeAll _ _)
  | stream out => exact hthen _ (Talk.runs_writeAll _ _)

section Theorems

variable {σ : Type} (H : Handlers σ) (peer : Bytes)

/-- A request that is read is answered. -/
theorem handleOneRequest_of_some {s s' : Socket} {req : HttpRequest} (h : readHttpRequest s = (some req, s')) (st : σ) :
    handleOneRequest H peer s st =
      ⟨(((answer H { req with remoteAddr := peer } st).1.send s').1).getD false,
        [({ req with remoteAddr := peer }, s'.sent.length)],
        ((answer H { req with remoteAddr := peer } st).1.send s').2, (answer H { req with remoteAddr := peer } st).2⟩ := by
  rw [handleOneRequest, h]

theorem handleOneRequest_of_none {s s' : Socket} (h : readHttpRequest s = (none, s')) (st : σ) :
    handleOneRequest H peer s st = ⟨false, [], s', st⟩ := by
  rw [handleOneRequest, h]

/-! ## Clients that hang up -/

/-- The state is that after the requests that were handled. -/
theorem serve_st (turns : Nat) (s : Socket) (st : σ) :
    (serve H peer turns s st).st =
      (serve H peer turns s st).handled.foldl (fun st handled => (answer H handled.1 st).2) st := by
  induction turns generalizing s st with
  | zero => rfl
  | succ turns ih =>
      rw [serve]
      dsimp only
      have hone : (handleOneRequest H peer s st).st =
          (handleOneRequest H peer s st).handled.foldl (fun st handled => (answer H handled.1 st).2) st := by
        cases hread : readHttpRequest s with
        | mk r s' =>
            cases r with
            | none => rw [handleOneRequest_of_none H peer hread]; rfl
            | some req => rw [handleOneRequest_of_some H peer hread]; rfl
      split
      · rw [List.foldl_append, ← hone]
        exact ih _ _
      · rw [List.append_nil]
        exact hone

theorem filter_late {handled : List (HttpRequest × Nat)} {k n : Nat} (h : ∀ r ∈ handled, k ≤ r.2) (hn : n < k) :
    handled.filter (fun r => r.2 ≤ n) = [] := by
  rw [List.filter_eq_nil_iff]
  intro r hr
  rw [decide_eq_true_eq]
  have hle := h r hr
  omega

/-- The last request. -/
theorem serve_last {s : Socket} {st : σ} (h : (handleOneRequest H peer s st).again = false) (turns : Nat) :
    serve H peer (turns + 1) s st =
      ⟨(handleOneRequest H peer s st).handled, (handleOneRequest H peer s st).socket.sent,
        (handleOneRequest H peer s st).st⟩ := by
  rw [serve, h, if_neg Bool.false_ne_true, List.append_nil]

/-- One request, and more. -/
theorem serve_again {s : Socket} {st : σ} (h : (handleOneRequest H peer s st).again = true) (turns : Nat) :
    serve H peer (turns + 1) s st =
      ⟨(handleOneRequest H peer s st).handled ++
          (serve H peer turns (handleOneRequest H peer s st).socket (handleOneRequest H peer s st).st).handled,
        (serve H peer turns (handleOneRequest H peer s st).socket (handleOneRequest H peer s st).st).sent,
        (serve H peer turns (handleOneRequest H peer s st).socket (handleOneRequest H peer s st).st).st⟩ := by
  rw [serve, h, if_pos rfl]

/-- What one request comes to: the requests handled (one or none), what is sent before that
and after it, and what if not all of that is taken. -/
structure Turns (input : Bytes) (st : σ) (reqs : List HttpRequest) (before after : Bytes) (again : Bool) (rest : Bytes)
    (st' : σ) : Prop where
  whole : ∀ sent, handleOneRequest H peer ⟨input, none, sent⟩ st =
    ⟨again, reqs.map (fun req => (req, sent.length + before.length)), ⟨rest, none, sent ++ (before ++ after)⟩, st'⟩
  fits : ∀ n sent, (before ++ after).length ≤ n → handleOneRequest H peer ⟨input, some n, sent⟩ st =
    ⟨again, reqs.map (fun req => (req, sent.length + before.length)),
      ⟨rest, some (n - (before ++ after).length), sent ++ (before ++ after)⟩, st'⟩
  short : ∀ n sent, n < (before ++ after).length →
    (handleOneRequest H peer ⟨input, some n, sent⟩ st).again = false ∧
      (handleOneRequest H peer ⟨input, some n, sent⟩ st).socket.sent = sent ++ (before ++ after).take n ∧
      (handleOneRequest H peer ⟨input, some n, sent⟩ st).handled =
        (reqs.map (fun req => (req, sent.length + before.length))).filter (fun r => r.2 ≤ sent.length + n)

/-- A request that cannot be read. -/
theorem turns_of_none {input rest out : Bytes} (h : Talk.Runs readHttpRequest input none rest out) (st : σ) :
    Turns H peer input st [] out [] false rest st where
  whole sent := by
    rw [List.append_nil]
    exact handleOneRequest_of_none H peer (h.whole sent) st
  fits n sent hn := by
    rw [List.append_nil] at hn ⊢
    exact handleOneRequest_of_none H peer (h.fits n sent hn) st
  short n sent hn := by
    rw [List.append_nil] at hn ⊢
    obtain ⟨hnone, hsent⟩ := h.short n sent hn
    have hpair : readHttpRequest ⟨input, some n, sent⟩ = (none, (readHttpRequest ⟨input, some n, sent⟩).2) :=
      Prod.ext hnone rfl
    rw [handleOneRequest_of_none H peer hpair]
    exact ⟨rfl, hsent, rfl⟩

/-- A request that is read. -/
theorem turns_of_some {input rest out : Bytes} {req : HttpRequest} (h : Talk.Runs readHttpRequest input (some req) rest out)
    {st st' : σ} {ans : Answer} (hans : answer H { req with remoteAddr := peer } st = (ans, st')) :
    Turns H peer input st [{ req with remoteAddr := peer }] out ans.bytes ans.again rest st' where
  whole sent := by
    rw [handleOneRequest_of_some H peer (h.whole sent), hans]
    dsimp only
    rw [(runs_send ans rest).whole, List.length_append, List.append_assoc]
    rfl
  fits n sent hn := by
    rw [List.length_append] at hn ⊢
    rw [handleOneRequest_of_some H peer (h.fits n sent (by omega)), hans]
    dsimp only
    rw [(runs_send ans rest).fits _ _ (by omega), List.length_append, List.append_assoc, Nat.sub_sub]
    rfl
  short n sent hn := by
    rw [List.length_append] at hn
    by_cases hle : out.length ≤ n
    · -- it is handled, but the answer is cut off
      obtain ⟨hnone, hsent⟩ := (runs_send ans rest).short (n - out.length) (sent ++ out) (by omega)
      rw [handleOneRequest_of_some H peer (h.fits n sent hle), hans]
      dsimp only
      rw [hnone, hsent, List.take_append, List.take_of_length_le hle, List.append_assoc, List.length_append]
      refine ⟨rfl, rfl, ?_⟩
      refine (List.filter_eq_self.mpr ?_).symm
      intro r hr
      obtain rfl := List.mem_singleton.mp hr
      exact decide_eq_true (Nat.add_le_add_left hle _)
    · obtain ⟨hnone, hsent⟩ := h.short n sent (Nat.not_le.mp hle)
      have hpair : readHttpRequest ⟨input, some n, sent⟩ = (none, (readHttpRequest ⟨input, some n, sent⟩).2) :=
        Prod.ext hnone rfl
      rw [handleOneRequest_of_none H peer hpair, List.take_append_of_le_length (Nat.le_of_lt (Nat.not_le.mp hle))]
      refine ⟨rfl, hsent, ?_⟩
      refine (filter_late (k := sent.length + out.length) ?_ (by omega)).symm
      intro r hr
      obtain rfl := List.mem_singleton.mp hr
      exact Nat.le_refl _

theorem exists_turns (input : Bytes) (st : σ) :
    ∃ reqs before after again rest st', Turns H peer input st reqs before after again rest st' := by
  obtain ⟨r, rest, out, hread⟩ := steady_readHttpRequest input
  cases r with
  | none => exact ⟨_, _, _, _, _, _, turns_of_none H peer hread st⟩
  | some req => exact ⟨_, _, _, _, _, _, turns_of_some H peer hread rfl⟩

/-- **What a client that hangs up gets** is the beginning of what it would have got, and what
is handled are the requests that are reached while it takes everything. -/
theorem serve_room (turns : Nat) (input sent : Bytes) (n : Nat) (st : σ) :
    ∃ out, (serve H peer turns ⟨input, none, sent⟩ st).sent = sent ++ out ∧
      (serve H peer turns ⟨input, some n, sent⟩ st).sent = sent ++ out.take n ∧
      (∀ r ∈ (serve H peer turns ⟨input, none, sent⟩ st).handled, sent.length ≤ r.2) ∧
      (serve H peer turns ⟨input, some n, sent⟩ st).handled =
        (serve H peer turns ⟨input, none, sent⟩ st).handled.filter (fun r => r.2 ≤ sent.length + n) := by
  induction turns generalizing input sent n st with
  | zero =>
      refine ⟨[], (List.append_nil _).symm, ?_, fun handled hmem => absurd hmem List.not_mem_nil, rfl⟩
      rw [List.take_nil, List.append_nil]
      rfl
  | succ turns ih =>
      obtain ⟨reqs, before, after, again, rest, st', h⟩ := exists_turns H peer input st
      have hearly : ∀ r ∈ reqs.map (fun req => (req, sent.length + before.length)), sent.length ≤ r.2 := by
        intro r hr
        obtain ⟨req, -, rfl⟩ := List.mem_map.mp hr
        exact Nat.le_add_right _ _
      have hlen : (before ++ after).length = before.length + after.length := List.length_append
      have hagain : (handleOneRequest H peer ⟨input, none, sent⟩ st).again = again := by rw [h.whole]
      by_cases hn : (before ++ after).length ≤ n
      · -- there is room for all of it
        have hagainN : (handleOneRequest H peer ⟨input, some n, sent⟩ st).again = again := by rw [h.fits n sent hn]
        have hkeep : (reqs.map (fun req => (req, sent.length + before.length))).filter (fun r => r.2 ≤ sent.length + n) =
            reqs.map (fun req => (req, sent.length + before.length)) := by
          rw [List.filter_eq_self]
          intro r hr
          obtain ⟨req, -, rfl⟩ := List.mem_map.mp hr
          rw [decide_eq_true_eq]
          omega
        cases again with
        | false =>
            rw [serve_last H peer hagain, serve_last H peer hagainN, h.whole, h.fits n sent hn]
            exact ⟨_, rfl, by rw [List.take_of_length_le hn], hearly, hkeep.symm⟩
        | true =>
            rw [serve_again H peer hagain, serve_again H peer hagainN, h.whole, h.fits n sent hn]
            obtain ⟨out, hsent, hsentN, hlate, hhandled⟩ :=
              ih rest (sent ++ (before ++ after)) (n - (before ++ after).length) st'
            have hroom : (sent ++ (before ++ after)).length + (n - (before ++ after).length) = sent.length + n := by
              rw [List.length_append]
              omega
            rw [hroom] at hhandled
            rw [List.length_append] at hlate
            refine ⟨before ++ after ++ out, ?_, ?_, ?_, ?_⟩
            · rw [hsent, List.append_assoc]
            · rw [hsentN, List.take_append, List.take_of_length_le hn, List.append_assoc]
            · intro r hr
              rcases List.mem_append.mp hr with hr | hr
              · exact hearly r hr
              · have hle := hlate r hr
                omega
            · rw [List.filter_append, hkeep, hhandled]
      · -- the connection ends here
        obtain ⟨hstop, hsentN, hhandledN⟩ := h.short n sent (Nat.not_le.mp hn)
        rw [serve_last H peer hstop, hsentN, hhandledN]
        cases again with
        | false =>
            rw [serve_last H peer hagain, h.whole]
            exact ⟨_, rfl, rfl, hearly, rfl⟩
        | true =>
            rw [serve_again H peer hagain, h.whole]
            obtain ⟨out, hsent, -, hlate, -⟩ := ih rest (sent ++ (before ++ after)) n st'
            rw [List.length_append] at hlate
            refine ⟨before ++ after ++ out, ?_, ?_, ?_, ?_⟩
            · rw [hsent, List.append_assoc]
            · rw [List.take_append_of_le_length (Nat.le_of_lt (Nat.not_le.mp hn))]
            · intro r hr
              rcases List.mem_append.mp hr with hr | hr
              · exact hearly r hr
              · have hle := hlate r hr
                omega
            · rw [List.filter_append, filter_late hlate (by omega), List.append_nil]

/-! ## Clients that take everything -/

theorem not_readHead_nil : readHead [] = none := rfl

/-- **Requests are answered as they were sent**, up to the first answer that closes the
connection. What follows that is not looked at. -/
theorem serve_calls {calls : List ClientRequest} (hwf : ∀ c ∈ calls, c.Wf) {st : σ} {rest : Bytes}
    (hend : rest = [] ∨ ∃ e ∈ (exchanges H peer calls st).1, e.answer.again = false) {turns : Nat}
    (hturns : calls.length < turns) (sent : Bytes) :
    (serve H peer turns ⟨calls.flatMap ClientRequest.bytes ++ rest, none, sent⟩ st).handled.map Prod.fst =
        (exchanges H peer calls st).1.map Exchange.request ∧
      (serve H peer turns ⟨calls.flatMap ClientRequest.bytes ++ rest, none, sent⟩ st).sent =
        sent ++ (exchanges H peer calls st).1.flatMap (fun e => e.interim ++ e.answer.bytes) ∧
      (serve H peer turns ⟨calls.flatMap ClientRequest.bytes ++ rest, none, sent⟩ st).st =
        (exchanges H peer calls st).2 := by
  induction calls generalizing st turns sent with
  | nil =>
      obtain ⟨turns, rfl⟩ : ∃ n, turns = n + 1 := ⟨turns - 1, by omega⟩
      have hnil : rest = [] := by
        rcases hend with hnil | ⟨e, he, -⟩
        · exact hnil
        · exact absurd he List.not_mem_nil
      subst hnil
      have hread : Talk.Runs readHttpRequest [] none [] [] := (Talk.runs_recv_none not_readHead_nil).bind_none
      have h := turns_of_none H peer hread st
      have hstop : (handleOneRequest H peer ⟨[], none, sent⟩ st).again = false := by rw [h.whole]
      rw [List.flatMap_nil, List.append_nil, serve_last H peer hstop, h.whole, exchanges]
      exact ⟨rfl, rfl, rfl⟩
  | cons c calls ih =>
      obtain ⟨turns, rfl⟩ : ∃ n, turns = n + 1 := ⟨turns - 1, by omega⟩
      obtain ⟨hc, hcalls⟩ := List.forall_mem_cons.mp hwf
      rw [List.length_cons] at hturns
      generalize hans : answer H { c.request with remoteAddr := peer } st = a
      obtain ⟨ans, st'⟩ := a
      have h := turns_of_some H peer (ClientRequest.runs_readHttpRequest hc (calls.flatMap ClientRequest.bytes ++ rest)) hans
      have hagain : ∀ sent, (handleOneRequest H peer
          ⟨c.bytes ++ (calls.flatMap ClientRequest.bytes ++ rest), none, sent⟩ st).again = ans.again := by
        intro sent
        rw [h.whole]
      rw [exchanges, hans] at hend ⊢
      dsimp only at hend ⊢
      rw [List.flatMap_cons, List.append_assoc]
      cases hkept : ans.again with
      | false =>
          rw [if_neg Bool.false_ne_true, serve_last H peer ((hagain sent).trans hkept), h.whole, List.flatMap_singleton]
          exact ⟨rfl, rfl, rfl⟩
      | true =>
          rw [hkept, if_pos rfl] at hend
          dsimp only at hend
          have hend' : rest = [] ∨ ∃ e ∈ (exchanges H peer calls st').1, e.answer.again = false := by
            rcases hend with hnil | ⟨e, he, hclose⟩
            · exact .inl hnil
            · rcases List.mem_cons.mp he with rfl | he
              · exact absurd (hkept.symm.trans hclose) (by decide)
              · exact .inr ⟨e, he, hclose⟩
          obtain ⟨hhandled, hsent, hst⟩ := ih hcalls hend' (show calls.length < turns by omega) (sent ++ (c.interim ++ ans.bytes))
          rw [if_pos rfl, serve_again H peer ((hagain sent).trans hkept), h.whole]
          dsimp only
          rw [List.map_append, hhandled, hsent, hst, List.flatMap_cons, List.append_assoc]
          exact ⟨rfl, rfl, rfl⟩

/-! ## What the client makes of it -/

theorem unauthorizedText_eq (rest : Bytes) :
    unauthorizedText ++ rest = ascii "HTTP/1.1 401 Unauthorized" ++ (crlf ++
      (unauthorizedFields.flatMap (fun f => headerLine f.1 f.2 ++ crlf) ++ (crlf ++ (unauthorizedBody ++ rest)))) := by
  have htext : unauthorizedText = ascii "HTTP/1.1 401 Unauthorized" ++ (crlf ++
      (unauthorizedFields.flatMap (fun f => headerLine f.1 f.2 ++ crlf) ++ (crlf ++ unauthorizedBody))) := by
    decide +kernel
  rw [htext]
  simp only [List.append_assoc]

theorem readReply_unauthorized (fuel : Nat) (rest : Bytes) :
    Client.readReply false (fuel + 1) (unauthorizedText ++ rest) =
      some (⟨401, ascii "Unauthorized", unauthorizedFields, unauthorizedBody⟩, rest) := by
  have hcr : cr ∉ ascii "HTTP/1.1 401 Unauthorized" := by decide
  have hstatus : Client.statusLine (ascii "HTTP/1.1 401 Unauthorized") = some (401, ascii "Unauthorized") := by
    decide +kernel
  have hfits : ∀ f ∈ unauthorizedFields, HeaderFits f := by
    have hall : ∀ f ∈ unauthorizedFields, (colon ∉ f.1 ∧ cr ∉ f.1) ∧ cr ∉ f.2 ∧ f.2.head? ≠ some space := by decide +kernel
    exact fun f hf => ⟨(hall f hf).1, (hall f hf).2.1, (hall f hf).2.2⟩
  have hlen : unauthorizedFields.length <
      (unauthorizedFields.flatMap (fun f => headerLine f.1 f.2 ++ crlf) ++ (crlf ++ (unauthorizedBody ++ rest))).length + 1 := by
    have hle := length_le_lines (fun f : Bytes × Bytes => headerLine f.1 f.2) unauthorizedFields
    rw [List.length_append]
    omega
  have hfields := Client.fields_lines hfits hlen (unauthorizedBody ++ rest)
  have htransfer : Client.field "transfer-encoding" unauthorizedFields ≠ some (ascii "chunked") := by decide +kernel
  have hlength : Client.field "content-length" unauthorizedFields = some (ascii "27") := by decide +kernel
  have hbody : Client.readBody false 401 unauthorizedFields (unauthorizedBody ++ rest) = some (unauthorizedBody, rest) := by
    have hvalue : Decimal.valueFrom 0 (ascii "27") = unauthorizedBody.length := by decide +kernel
    rw [Client.readBody, if_neg (by decide), if_neg htransfer, hlength]
    dsimp only
    rw [hvalue]
    exact Reader.take_append _ _
  rw [unauthorizedText_eq, Client.readReply, Client.cut_crlf hcr]
  dsimp only [Option.bind_eq_bind, Option.bind_some]
  rw [hstatus]
  dsimp only [Option.bind_some]
  rw [hfields]
  dsimp only [Option.bind_some]
  rw [if_neg (by decide), hbody]
  rfl

theorem framed_finishResponse (req : HttpRequest) {resp : HttpResponse} (h : resp.Framed) (isHead : Bool) :
    ∃ resp' close, finishResponse req resp isHead = .response resp' isHead close ∧ resp'.Framed := by
  rw [finishResponse]
  cases hlookup : resp.headers.lookup connectionKey with
  | some conn => exact ⟨_, _, rfl, h⟩
  | none =>
      refine ⟨_, _, rfl, h.status, h.empty, h.text, ?_, h.cookies⟩
      intro f hf
      rcases List.mem_cons.mp hf with rfl | hf
      · have hkey : colon ∉ connectionKey ∧ cr ∉ connectionKey := by decide
        have hother : lowerCopy connectionKey ≠ ascii "transfer-encoding" ∧ lowerCopy connectionKey ≠ ascii "content-length" := by
          decide
        refine ⟨?_, hother⟩
        split
        · exact ⟨hkey, by decide, by decide⟩
        · exact ⟨hkey, by decide, by decide⟩
      · exact h.headers f hf

theorem framed_busy : busy.Framed where
  status := by decide
  empty h := absurd h (by decide)
  text := by decide +kernel
  headers f hf := by
    have hall : ∀ f ∈ busy.headers, ((colon ∉ f.1 ∧ cr ∉ f.1) ∧ cr ∉ f.2 ∧ f.2.head? ≠ some space) ∧
        lowerCopy f.1 ≠ ascii "transfer-encoding" ∧ lowerCopy f.1 ≠ ascii "content-length" := by decide +kernel
    obtain ⟨⟨hname, hvalue, hhead⟩, hother⟩ := hall f hf
    exact ⟨⟨hname, hvalue, hhead⟩, hother⟩
  cookies c hc := absurd hc List.not_mem_nil

/-- Every answer but a stream of events can be told from what follows it. -/
theorem readReply_answer (hframed : ∀ req st, (H.dispatch req st).1.Framed) (req : HttpRequest) (st : σ)
    (hquiet : ∀ out, (answer H req st).1 ≠ .stream out) (fuel : Nat) (rest : Bytes) :
    ∃ reply, (answer H req st).1.reply = some reply ∧
      Client.readReply (decide (req.method = ascii "HEAD")) (fuel + 1) ((answer H req st).1.bytes ++ rest) =
        some (reply, rest) := by
  rw [answer] at hquiet ⊢
  split
  · rename_i hevents
    have hget : decide (req.method = ascii "HEAD") = false := by
      rw [hevents.2.2]
      decide
    rw [if_pos hevents] at hquiet
    dsimp only at hquiet ⊢
    rw [hget]
    split
    · exact ⟨_, rfl, readReply_unauthorized fuel rest⟩
    · rename_i hknown
      rw [if_neg hknown] at hquiet
      split
      · rename_i hslot
        rw [if_pos hslot] at hquiet
        exact absurd rfl (hquiet _)
      · exact ⟨_, rfl, Client.readReply_responseBytes framed_busy false fuel rest⟩
  · dsimp only
    obtain ⟨resp, close, hfinish, hresp⟩ := framed_finishResponse req (hframed req st)
      (decide (req.method = ascii "HEAD"))
    rw [hfinish]
    exact ⟨_, rfl, Client.readReply_responseBytes hresp _ fuel rest⟩

/-- The go-ahead does not get in the way. -/
theorem readReply_interim (c : ClientRequest) {isHead : Bool} {input : Bytes} {r : Client.Reply × Bytes}
    (h : ∀ fuel, Client.readReply isHead (fuel + 1) input = some r) :
    Client.readReply isHead ((c.interim ++ input).length + 1) (c.interim ++ input) = some r := by
  rw [ClientRequest.interim]
  split
  · have hlen : (continueText ++ input).length = continueText.length - 1 + input.length + 1 := by
      have hpos : 0 < continueText.length := by decide +kernel
      rw [List.length_append]
      omega
    rw [Client.readReply_continueText, hlen]
    exact h _
  · exact h _

/-- **The client gets the answers to its requests**, each to its own. -/
theorem readReplies_exchanges (hframed : ∀ req st, (H.dispatch req st).1.Framed) (calls : List ClientRequest) (st : σ)
    (hquiet : ∀ e ∈ (exchanges H peer calls st).1, ∀ out, e.answer ≠ .stream out) :
    Client.readReplies ((exchanges H peer calls st).1.map (fun e => decide (e.request.method = ascii "HEAD")))
        ((exchanges H peer calls st).1.flatMap (fun e => e.interim ++ e.answer.bytes)) =
      some ((exchanges H peer calls st).1.filterMap (fun e => e.answer.reply), []) := by
  induction calls generalizing st with
  | nil => rfl
  | cons c calls ih =>
      have hreply := readReply_answer H hframed { c.request with remoteAddr := peer } st
      generalize hans : answer H { c.request with remoteAddr := peer } st = a at hreply
      obtain ⟨ans, st'⟩ := a
      rw [exchanges, hans] at hquiet ⊢
      dsimp only at hreply hquiet ⊢
      have hfirst : ∀ tail, ∃ reply, ans.reply = some reply ∧
          Client.readReply (decide (c.request.method = ascii "HEAD")) ((c.interim ++ ans.bytes ++ tail).length + 1)
            (c.interim ++ ans.bytes ++ tail) = some (reply, tail) := by
        intro tail
        have hquiet : ∀ out, ans ≠ .stream out := by
          split at hquiet
          · exact hquiet _ List.mem_cons_self
          · exact hquiet _ List.mem_cons_self
        obtain ⟨reply, hsome, -⟩ := hreply hquiet 0 tail
        refine ⟨reply, hsome, ?_⟩
        rw [List.append_assoc]
        refine readReply_interim c fun fuel => ?_
        obtain ⟨reply', hsome', hread⟩ := hreply hquiet fuel tail
        obtain rfl := Option.some.inj (hsome'.symm.trans hsome)
        exact hread
      cases hkept : ans.again with
      | false =>
          obtain ⟨reply, hsome, hread⟩ := hfirst []
          rw [List.append_nil] at hread
          rw [if_neg Bool.false_ne_true]
          dsimp only
          rw [List.map_singleton, List.flatMap_singleton, List.filterMap_cons]
          dsimp only
          rw [hsome, Client.readReplies, hread]
          rfl
      | true =>
          rw [hkept, if_pos rfl] at hquiet
          dsimp only at hquiet
          have hrest := ih st' fun e he => hquiet e (List.mem_cons_of_mem _ he)
          obtain ⟨reply, hsome, hread⟩ := hfirst
            ((exchanges H peer calls st').1.flatMap (fun e => e.interim ++ e.answer.bytes))
          rw [if_pos rfl]
          dsimp only
          rw [List.map_cons, List.flatMap_cons, List.filterMap_cons]
          dsimp only
          rw [hsome, Client.readReplies, hread]
          dsimp only [Option.bind_eq_bind, Option.bind_some]
          rw [hrest]
          rfl

theorem length_le_bytes (calls : List ClientRequest) : calls.length ≤ (calls.flatMap ClientRequest.bytes).length := by
  induction calls with
  | nil => exact Nat.le_refl _
  | cons c calls ih =>
      have hpos : 0 < c.bytes.length := by
        rw [ClientRequest.bytes, List.length_append, List.length_append]
        exact Nat.add_pos_right _ (Nat.add_pos_left (by decide) _)
      rw [List.flatMap_cons, List.length_append, List.length_cons]
      omega

end Theorems

/-! ## A connection -/

/-- A server that sends back what it is sent, and counts. -/
def echo : Handlers Nat where
  stub := false
  dispatch req st := (.ok (req.path ++ req.body) (ascii "text/plain"), st + 1)
  getUser _ st := ([], st)
  acquireSseSlot st := (true, st)
  handleSse _ _ st := ([], st)

/-- A request with a parameter, and a body that waits for a go-ahead. -/
def postCall : ClientRequest where
  method := ascii "POST"
  path := ascii "/a"
  query := some (ascii "x=1")
  version := ascii "HTTP/1.1"
  fields := [⟨ascii "Expect", 1, ascii "100-continue"⟩, ⟨ascii "content-LENGTH", 2, ascii "3 "⟩]
  params := [([120], [49])]
  cookies := []
  content := .sized (ascii "abc")

/-- A request in chunks, after which the connection is to be closed. -/
def lastCall : ClientRequest where
  method := ascii "GET"
  path := ascii "/b"
  query := none
  version := ascii "HTTP/1.1"
  fields := [⟨ascii "Connection", 1, ascii "Close"⟩, ⟨ascii "Cookie", 1, ascii "a=1; b=2"⟩,
    ⟨ascii "Transfer-Encoding", 1, ascii "chunked"⟩]
  params := []
  cookies := [(ascii "a", ascii "1"), (ascii "b", ascii "2")]
  content := .chunked [⟨ascii ";q", ascii "de"⟩, ⟨[], ascii "f"⟩] [ascii "t: u"]

theorem wf_header {f : Header} (h : (colon ∉ f.name ∧ lf ∉ f.name) ∧ lf ∉ f.value ∧ f.value.head? ≠ some space ∧
    f.value ≠ [] ∧ f.line.length < Protocol.Chunked.maxLine) : f.Wf :=
  ⟨h.1, h.2.1, h.2.2.1, fun hnil => absurd hnil h.2.2.2.1, h.2.2.2.2⟩

theorem wf_postCall : postCall.Wf where
  method := ⟨by decide +kernel, by decide +kernel⟩
  target := ⟨by decide +kernel, by decide +kernel⟩
  path := by decide +kernel
  version := ⟨by decide +kernel, by decide +kernel⟩
  short := by decide +kernel
  fields f hf := by
    refine wf_header ?_
    revert f
    decide +kernel
  asks := by
    have hx : Protocol.Forms.Encodes [120] [120] := .cons (.plain (by unfold Protocol.Forms.Unreserved; decide)) .nil
    have hone : Protocol.Forms.Encodes [49] [49] := .cons (.plain (by unfold Protocol.Forms.Unreserved; decide)) .nil
    exact ⟨[ascii "x=1"], .cons ⟨_, _, hx, hone, by decide +kernel⟩ .nil, by decide +kernel⟩
  cookies c hc := absurd hc List.not_mem_nil
  cookie := by decide +kernel
  framed := by
    refine ⟨by decide +kernel, ⟨[], ascii "3", ascii " ", ?_⟩, by decide +kernel⟩
    decide +kernel

theorem wf_lastCall : lastCall.Wf where
  method := ⟨by decide +kernel, by decide +kernel⟩
  target := ⟨by decide +kernel, by decide +kernel⟩
  path := by decide +kernel
  version := ⟨by decide +kernel, by decide +kernel⟩
  short := by decide +kernel
  fields f hf := by
    refine wf_header ?_
    revert f
    decide +kernel
  asks := rfl
  cookies := by decide +kernel
  cookie := by decide +kernel
  framed := by
    refine ⟨by decide +kernel, ?_, by decide +kernel, by decide +kernel⟩
    have hall : ∀ chunk ∈ [(⟨ascii ";q", ascii "de"⟩ : Chunk), ⟨[], ascii "f"⟩], chunk.data ≠ [] ∧
        (chunk.ext = [] ∨ chunk.ext.head? = some Protocol.Chunked.semicolon) ∧ lf ∉ chunk.ext ∧
        (Hex.text chunk.data.length ++ chunk.ext).length < Protocol.Chunked.maxLine := by decide +kernel
    exact fun chunk hchunk => ⟨(hall chunk hchunk).1, (hall chunk hchunk).2.1, (hall chunk hchunk).2.2.1,
      (hall chunk hchunk).2.2.2⟩

theorem framed_echo (req : HttpRequest) (st : Nat) : (echo.dispatch req st).1.Framed :=
  framed_ok (by decide +kernel) _

/-- What comes of it. -/
example : (exchanges echo [] [postCall, lastCall] 0).1.filterMap (fun e => e.answer.reply.map Client.Reply.body) =
    [ascii "/aabc", ascii "/bdef"] := by decide +kernel

end NCloud.Persistent
