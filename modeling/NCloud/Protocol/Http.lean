import NCloud.Lib.Socket
import NCloud.Protocol.Chunked
import NCloud.Protocol.Forms
import NCloud.Smtp.Session

/-!
# HTTP

`HttpRequest` and `HttpResponse` of `http.h`, `read_http_request` and `send_http_response` of
`http_reader.h`. Whatever way a client puts a request, the server reads what was meant and
leaves what follows (`runs_readHttpRequest`); and whatever the server answers, a client that
goes by the framing of the protocol gets that answer and leaves what follows
(`Client.readReply_bytes`).
-/

namespace NCloud.Protocol.Http

open Wire Forms Chunked Smtp

/-! ## Requests -/

/-- `HttpRequest`. -/
structure HttpRequest where
  method : Bytes
  path : Bytes
  query : Bytes
  version : Bytes
  headers : Params
  cookies : Params
  queryParams : Params
  body : Bytes
  remoteAddr : Bytes

/-- What `s.find(pat) != npos` says. -/
def contains (pat s : Bytes) : Bool := (cut pat s).isSome

namespace HttpRequest

/-- `header`. -/
def header (r : HttpRequest) (name : Bytes) : Bytes := (r.headers (lowerCopy name)).getD []

/-- `cookie`. -/
def cookie (r : HttpRequest) (name : Bytes) : Bytes := (r.cookies name).getD []

/-- `param`. -/
def param (r : HttpRequest) (name : Bytes) : Bytes := (r.queryParams name).getD []

/-- `keep_alive`. -/
def keepAlive (r : HttpRequest) : Bool :=
  let conn := lowerCopy (r.header (ascii "connection"))
  if r.version = ascii "HTTP/1.1" then !contains (ascii "close") conn else contains (ascii "keep-alive") conn

end HttpRequest

/-- `HttpRequest{}`. -/
def emptyRequest : HttpRequest := ⟨[], [], [], [], fun _ => none, fun _ => none, fun _ => none, [], []⟩

/-- `?`. -/
def questionMark : UInt8 := 63

/-- `:`. -/
def colon : UInt8 := 58

/-- What is left after the spaces in front; a text of nothing but spaces is left as it is. -/
def trimSpaces (s : Bytes) : Bytes :=
  match s.dropWhile (· = space) with
  | [] => s
  | b :: rest => b :: rest

/-- One turn of the loop over cookies. -/
def addCookie (cookies : Params) (token : Bytes) : Params :=
  match token.dropWhile (· = space) with
  | [] => cookies
  | b :: rest =>
      match cut [equals] (b :: rest) with
      | none => cookies
      | some (name, value) => Function.update cookies name (some value)

/-- `parse_cookies`. -/
def parseCookies (cookieHeader : Bytes) : Params := (tokens Chunked.semicolon cookieHeader).foldl addCookie (fun _ => none)

/-- `http_parse_size_t` with base 10. -/
def httpParseLength (raw : Bytes) : Option Nat :=
  let s := httpTrimCopy raw
  if s = [] ∨ s.head? = some 43 ∨ s.head? = some 45 then none
  else if s.all (fun b => decide (Decimal.IsDigit b)) then
    if Decimal.valueFrom 0 s < 2 ^ 64 then some (Decimal.valueFrom 0 s) else none
  else none

/-- The words of a request line, and the query apart from the path. -/
def parseRequestLine (line : Bytes) : Option HttpRequest :=
  let (method, words) := getWord (some line)
  let (path, words) := getWord words
  let (version, _) := getWord words
  if line = [] ∨ method = [] ∨ path = [] then none
  else
    match cut [questionMark] path with
    | none => some { emptyRequest with method := method, path := path, version := version }
    | some (path, query) =>
        some { emptyRequest with
          method := method
          path := path
          version := version
          query := query
          queryParams := parseUrlencoded query }

/-- One header line. -/
def addHeader (headers : Params) (line : Bytes) : Params :=
  match cut [colon] line with
  | none => headers
  | some (key, value) => Function.update headers (lowerCopy key) (some (trimSpaces value))

/-- The loop over header lines, for at most so many. -/
def readHeaders : (fuel : Nat) → Params → Reader Params
  | 0, _ => fun _ => none
  | fuel + 1, headers => do
      let line ← httpReadLine
      if line = [] then pure headers else readHeaders fuel (addHeader headers line)

/-- All of them. Every line takes a byte at least. -/
def readAllHeaders : Reader Params := fun input => readHeaders (input.length + 1) (fun _ => none) input

/-- The request line and the headers. -/
def readHead : Reader HttpRequest := do
  let line ← httpReadLine
  match parseRequestLine line with
  | none => fun _ => none
  | some req =>
      let headers ← readAllHeaders
      pure { req with headers := headers }

/-- `kContinue`. -/
def continueText : Bytes := ascii "HTTP/1.1 100 Continue" ++ crlf ++ crlf

/-- What is said of a body that is too long. -/
def tooLargeBody : Bytes := ascii "\x7b\"ok\":false,\"error\":\"file exceeds 1023 MB limit\"\x7d"

/-- `k413`. -/
def tooLargeText : Bytes :=
  ascii "HTTP/1.1 413 Content Too Large" ++ crlf ++
  ascii "Content-Type: application/json" ++ crlf ++
  ascii "Content-Length: " ++ Decimal.text tooLargeBody.length ++ crlf ++
  ascii "Connection: close" ++ crlf ++ crlf ++ tooLargeBody

/-- The body, for the headers that were read. -/
def readBody (req : HttpRequest) : Talk Bytes :=
  let transferEncoding := lowerCopy (req.header (ascii "transfer-encoding"))
  let wantsContinue := contains (ascii "100-continue") (lowerCopy (req.header (ascii "expect")))
  if contains (ascii "chunked") transferEncoding then do
    if wantsContinue then Talk.writeAll continueText
    Talk.recv readChunkedBody
  else
    let clStr := req.header (ascii "content-length")
    if clStr = [] then pure []
    else
      match httpParseLength clStr with
      | none => Talk.fail
      | some contentLength =>
          if contentLength > maxRequestBodyBytes then do
            Talk.writeAll tooLargeText
            Talk.fail
          else do
            if wantsContinue ∧ contentLength > 0 then Talk.writeAll continueText
            Talk.recv (Reader.take contentLength)

/-- The cookies and the body. -/
def readRest (req : HttpRequest) : Talk HttpRequest := do
  let cookieHeader := req.header (ascii "cookie")
  let req := if cookieHeader = [] then req else { req with cookies := parseCookies cookieHeader }
  let body ← readBody req
  pure { req with body := body }

/-- `read_http_request`. -/
def readHttpRequest : Talk HttpRequest := Talk.recv readHead >>= readRest

/-! ## Responses -/

/-- `HttpResponse`, its headers in the order they are gone through in. -/
structure HttpResponse where
  statusCode : Nat := 200
  statusText : Bytes := ascii "OK"
  headers : List (Bytes × Bytes) := []
  setCookies : List Bytes := []
  body : Bytes
  chunked : Bool := false

/-- The key of the header that the connection is kept or closed by. -/
def connectionKey : Bytes := ascii "Connection"

namespace HttpResponse

/-- `HttpResponse::ok`. -/
def ok (body contentType : Bytes) : HttpResponse := { headers := [(ascii "Content-Type", contentType)], body := body }

/-- `HttpResponse::json`. -/
def json (body : Bytes) : HttpResponse := ok body (ascii "application/json")

/-- `HttpResponse::redirect`. -/
def redirect (location : Bytes) (code : Nat) : HttpResponse where
  statusCode := code
  statusText := if code = 301 then ascii "Moved Permanently" else ascii "Found"
  headers := [(ascii "Location", location)]
  body := []

/-- `HttpResponse::error`. -/
def error (code : Nat) (msg : Bytes) : HttpResponse where
  statusCode := code
  statusText := msg
  headers := [(ascii "Content-Type", ascii "text/html; charset=utf-8")]
  body := ascii "<html><body><h1>" ++ Decimal.text code ++ [space] ++ msg ++ ascii "</h1></body></html>"

/-- `set_cookie`. -/
def setCookie (r : HttpResponse) (name value path : Bytes) (httpOnly : Bool) (maxAge : Nat) : HttpResponse :=
  let cookie := name ++ equals :: value ++ ascii "; Path=" ++ path ++ ascii "; Max-Age=" ++ Decimal.text maxAge
  { r with setCookies := r.setCookies ++ [if httpOnly then cookie ++ ascii "; HttpOnly" else cookie] }

end HttpResponse

/-- A header line. -/
def headerLine (key value : Bytes) : Bytes := key ++ ascii ": " ++ value

/-- The header lines of a response, in order. -/
def responseHeaders (resp : HttpResponse) : List (Bytes × Bytes) :=
  [(ascii "Server", ascii "NCloud/1.0"),
    (connectionKey, (resp.headers.lookup connectionKey).getD (ascii "close")),
    if resp.chunked then (ascii "Transfer-Encoding", ascii "chunked")
      else (ascii "Content-Length", Decimal.text resp.body.length)] ++
  resp.headers.filter (fun h => h.1 ≠ connectionKey) ++
  resp.setCookies.map (fun cookie => (ascii "Set-Cookie", cookie)) ++
  [(ascii "Access-Control-Allow-Origin", ascii "*")]

/-- The status line. -/
def statusLine (resp : HttpResponse) : Bytes :=
  ascii "HTTP/1.1 " ++ Decimal.text resp.statusCode ++ [space] ++ resp.statusText

/-- Everything in front of the body. -/
def responseHead (resp : HttpResponse) : Bytes :=
  statusLine resp ++ crlf ++ (responseHeaders resp).flatMap (fun h => headerLine h.1 h.2 ++ crlf) ++ crlf

/-- The loop of `send_http_chunked_body`, for at most so many chunks. -/
def writeChunks : (fuel : Nat) → Bytes → Talk Unit
  | 0, _ => Talk.writeAll lastChunk
  | fuel + 1, body =>
      if body = [] then Talk.writeAll lastChunk
      else do
        let take := min maxChunk body.length
        Talk.writeAll (httpChunkPrefix take ++ (crlf ++ (body.take take ++ crlf)))
        writeChunks fuel (body.drop take)

/-- `send_http_response`. -/
def sendHttpResponse (resp : HttpResponse) (isHead : Bool) : Talk Unit :=
  if isHead then Talk.writeAll (responseHead resp)
  else if resp.chunked then do
    Talk.writeAll (responseHead resp)
    writeChunks resp.body.length resp.body
  else Talk.writeAll (responseHead resp ++ resp.body)

/-! ## What a client sends -/

/-- A header as it is sent: its name in whatever case, and spaces in front of the value. -/
structure Header where
  name : Bytes
  pad : Nat
  value : Bytes

namespace Header

/-- The line of a header. -/
def line (f : Header) : Bytes := f.name ++ colon :: (List.replicate f.pad space ++ f.value)

/-- A line that can be read back. -/
structure Wf (f : Header) : Prop where
  name : colon ∉ f.name ∧ lf ∉ f.name
  value : lf ∉ f.value
  head : f.value.head? ≠ some space
  empty : f.value = [] → f.pad = 0
  short : f.line.length < maxLine

end Header

/-- A chunk as it is sent, with an extension or without one. -/
structure Chunk where
  ext : Bytes
  data : Bytes

namespace Chunk

/-- The bytes of a chunk. -/
def bytes (c : Chunk) : Bytes := Hex.text c.data.length ++ c.ext ++ (crlf ++ (c.data ++ crlf))

/-- A chunk that can be read back. -/
structure Wf (c : Chunk) : Prop where
  data : c.data ≠ []
  ext : c.ext = [] ∨ c.ext.head? = some Chunked.semicolon
  text : lf ∉ c.ext
  short : (Hex.text c.data.length ++ c.ext).length < maxLine

end Chunk

/-- How a body is sent. -/
inductive Content where
  | none
  | sized (body : Bytes)
  | chunked (chunks : List Chunk) (trailers : List Bytes)

namespace Content

/-- The body. -/
def body : Content → Bytes
  | .none => []
  | .sized body => body
  | .chunked chunks _ => chunks.flatMap Chunk.data

/-- What is sent of it. -/
def bytes : Content → Bytes
  | .none => []
  | .sized body => body
  | .chunked chunks trailers =>
      chunks.flatMap Chunk.bytes ++ (ascii "0" ++ (crlf ++ (trailers.flatMap (fun t => t ++ crlf) ++ crlf)))

/-- There is something to wait for. -/
def Awaited : Content → Prop
  | .none => False
  | .sized body => body ≠ []
  | .chunked _ _ => True

instance : DecidablePred Awaited
  | .none => inferInstanceAs (Decidable False)
  | .sized body => inferInstanceAs (Decidable (body ≠ []))
  | .chunked _ _ => inferInstanceAs (Decidable True)

end Content

/-- A number as a client writes it: digits, perhaps with blanks around them. -/
def IsLength (v : Bytes) (n : Nat) : Prop :=
  ∃ a ds b, v = a ++ (ds ++ b) ∧ (∀ x ∈ a, Decimal.IsBlank x) ∧ ds ≠ [] ∧ (∀ x ∈ ds, Decimal.IsDigit x) ∧
    Decimal.valueFrom 0 ds = n ∧ ∀ x ∈ b, Decimal.IsBlank x

/-- What a client asks for, and how it puts it. -/
structure ClientRequest where
  method : Bytes
  path : Bytes
  query : Option Bytes
  version : Bytes
  fields : List Header
  params : List (Bytes × Bytes)
  cookies : List (Bytes × Bytes)
  content : Content

namespace ClientRequest

/-- The path and the query. -/
def target (c : ClientRequest) : Bytes :=
  match c.query with
  | none => c.path
  | some query => c.path ++ questionMark :: query

/-- The first line. -/
def requestLine (c : ClientRequest) : Bytes := c.method ++ space :: (c.target ++ space :: c.version)

/-- Everything that is sent. -/
def bytes (c : ClientRequest) : Bytes :=
  c.requestLine ++ (crlf ++ (c.fields.flatMap (fun f => f.line ++ crlf) ++ (crlf ++ c.content.bytes)))

/-- The headers: names in lower case, and for each the last value there is. -/
def headers (c : ClientRequest) : Params :=
  fun key => (c.fields.map (fun f => (lowerCopy f.name, f.value))).reverse.lookup key

/-- The value of a header. -/
def field (c : ClientRequest) (name : String) : Bytes := (c.headers (ascii name)).getD []

/-- Cookies as they are put together. -/
def cookieText (c : ClientRequest) : Bytes :=
  (ascii "; ").intercalate (c.cookies.map (fun cookie => cookie.1 ++ equals :: cookie.2))

/-- What is meant. -/
def request (c : ClientRequest) : HttpRequest where
  method := c.method
  path := c.path
  query := c.query.getD []
  version := c.version
  headers := c.headers
  cookies := fun name => c.cookies.reverse.lookup name
  queryParams := fun key => c.params.reverse.lookup key
  body := c.content.body
  remoteAddr := []

/-- The client waits for a go-ahead before it sends the body. -/
def Expects (c : ClientRequest) : Prop :=
  ascii "100-continue" <:+: lowerCopy (c.field "expect") ∧ c.content.Awaited

instance (c : ClientRequest) : Decidable c.Expects := inferInstanceAs (Decidable (_ ∧ _))

/-- What it is told before the answer. -/
def interim (c : ClientRequest) : Bytes := if c.Expects then continueText else []

/-- The headers say how the body is sent. -/
def Framed (c : ClientRequest) : Prop :=
  match c.content with
  | .none => ¬ ascii "chunked" <:+: lowerCopy (c.field "transfer-encoding") ∧ c.field "content-length" = []
  | .sized body =>
      ¬ ascii "chunked" <:+: lowerCopy (c.field "transfer-encoding") ∧
        IsLength (c.field "content-length") body.length ∧ body.length ≤ maxRequestBodyBytes
  | .chunked chunks trailers =>
      ascii "chunked" <:+: lowerCopy (c.field "transfer-encoding") ∧ (∀ chunk ∈ chunks, chunk.Wf) ∧
        (chunks.flatMap Chunk.data).length ≤ maxRequestBodyBytes ∧
        ∀ t ∈ trailers, t ≠ [] ∧ lf ∉ t ∧ t.length < maxLine

/-- The query is that of the parameters. -/
def Asks (c : ClientRequest) : Prop :=
  match c.query with
  | none => c.params = []
  | some query => ∃ parts, List.Forall₂ EncodesPair c.params parts ∧ query = [ampersand].intercalate parts

/-- A request that can be read back. -/
structure Wf (c : ClientRequest) : Prop where
  method : IsWord c.method
  target : IsWord c.target
  path : questionMark ∉ c.path
  version : IsWord c.version
  short : c.requestLine.length < maxLine
  fields : ∀ f ∈ c.fields, f.Wf
  asks : c.Asks
  cookies : ∀ cookie ∈ c.cookies, cookie.1.head? ≠ some space ∧ equals ∉ cookie.1 ∧ Chunked.semicolon ∉ cookie.1 ∧
    Chunked.semicolon ∉ cookie.2
  cookie : c.field "cookie" = c.cookieText
  framed : c.Framed

end ClientRequest

/-! ## Reading it -/

theorem contains_iff {pat s : Bytes} : contains pat s = true ↔ pat <:+: s := by
  rw [contains, Option.isSome_iff_exists]
  constructor
  · rintro ⟨⟨before, after⟩, hcut⟩
    exact ⟨before, after, by rw [eq_of_cut hcut, List.append_assoc]⟩
  · intro hin
    cases hcut : cut pat s with
    | some parts => exact ⟨parts, rfl⟩
    | none => exact absurd hin (not_infix_of_cut hcut)

theorem foldl_update (pairs : List (Bytes × Bytes)) (m : Params) (key : Bytes) :
    pairs.foldl (fun (m : Params) p => Function.update m p.1 (some p.2)) m key = (pairs.reverse.lookup key).or (m key) := by
  induction pairs generalizing m with
  | nil => rfl
  | cons p pairs ih =>
      rw [List.foldl_cons, ih, List.reverse_cons, List.lookup_append, Option.or_assoc]
      refine congrArg _ ?_
      obtain ⟨name, value⟩ := p
      by_cases hkey : key = name
      · rw [hkey, Function.update_self]
        simp
      · rw [Function.update_of_ne hkey, List.lookup_cons, beq_eq_false_iff_ne.mpr hkey]
        rfl

theorem trimSpaces_pad {value : Bytes} (hhead : value.head? ≠ some space) {pad : Nat} (hempty : value = [] → pad = 0) :
    trimSpaces (List.replicate pad space ++ value) = value := by
  have hdrop : (List.replicate pad space ++ value).dropWhile (· = space) = value := by
    induction pad with
    | zero =>
        cases value with
        | nil => rfl
        | cons b value =>
            refine List.dropWhile_cons_of_neg ?_
            rw [decide_eq_true_eq]
            rintro rfl
            exact hhead rfl
    | succ pad ih =>
        rw [List.replicate_succ, List.cons_append, List.dropWhile_cons_of_pos (by decide)]
        refine ih fun hnil => ?_
        exact absurd (hempty hnil) (Nat.succ_ne_zero pad)
  rw [trimSpaces, hdrop]
  cases value with
  | nil => rw [hempty rfl]; rfl
  | cons b value => rfl

namespace Header

theorem lf_notMem_line {f : Header} (h : f.Wf) : lf ∉ f.line := by
  rw [line, List.mem_append, List.mem_cons, List.mem_append]
  rintro (hmem | heq | hmem | hmem)
  · exact h.name.2 hmem
  · exact absurd heq (by decide)
  · exact absurd (List.eq_of_mem_replicate hmem) (by decide)
  · exact h.value hmem

theorem line_ne_nil (f : Header) : f.line ≠ [] := List.append_ne_nil_of_right_ne_nil _ (List.cons_ne_nil _ _)

theorem addHeader_line {f : Header} (h : f.Wf) (headers : Params) :
    addHeader headers f.line = Function.update headers (lowerCopy f.name) (some f.value) := by
  rw [addHeader, line, cut_char _ h.name.1]
  dsimp only
  rw [trimSpaces_pad h.head h.empty]

end Header

/-- There are at least as many bytes as lines. -/
theorem length_le_lines {α : Type} (text : α → Bytes) (ls : List α) :
    ls.length ≤ (ls.flatMap (fun l => text l ++ crlf)).length := by
  induction ls with
  | nil => exact Nat.le_refl _
  | cons l ls ih =>
      have hcrlf : crlf.length = 2 := rfl
      rw [List.flatMap_cons, List.length_append, List.length_append, List.length_cons]
      omega

/-- **The headers** are read up to the empty line. -/
theorem readHeaders_lines {fields : List Header} (h : ∀ f ∈ fields, f.Wf) {fuel : Nat} (hfuel : fields.length < fuel)
    (headers : Params) (rest : Bytes) :
    readHeaders fuel headers (fields.flatMap (fun f => f.line ++ crlf) ++ (crlf ++ rest)) =
      some ((fields.map (fun f => (lowerCopy f.name, f.value))).foldl
        (fun (m : Params) p => Function.update m p.1 (some p.2)) headers, rest) := by
  induction fields generalizing fuel headers with
  | nil =>
      obtain ⟨fuel, rfl⟩ : ∃ n, fuel = n + 1 := ⟨fuel - 1, by omega⟩
      have hline : httpReadLine ([] ++ (crlf ++ rest)) = some ([], rest) :=
        httpReadLine_crlf List.not_mem_nil (by decide) rest
      rw [List.flatMap_nil, readHeaders, Reader.bind_of_some hline, if_pos rfl]
      rfl
  | cons f fields ih =>
      obtain ⟨fuel, rfl⟩ : ∃ n, fuel = n + 1 := ⟨fuel - 1, by omega⟩
      obtain ⟨hf, hfields⟩ := List.forall_mem_cons.mp h
      rw [List.length_cons] at hfuel
      have hline := httpReadLine_crlf (Header.lf_notMem_line hf) hf.short
        (fields.flatMap (fun f => f.line ++ crlf) ++ (crlf ++ rest))
      rw [List.flatMap_cons, List.append_assoc, List.append_assoc, readHeaders, Reader.bind_of_some hline,
        if_neg f.line_ne_nil, ih hfields (by omega), Header.addHeader_line hf]
      rfl

/-! ### The request line -/

theorem lf_notMem_of_isWord {w : Bytes} (h : IsWord w) : lf ∉ w :=
  fun hmem => h.blank lf hmem (by decide)

namespace ClientRequest

variable {c : ClientRequest}

theorem lf_notMem_requestLine (h : c.Wf) : lf ∉ c.requestLine := by
  rw [requestLine, List.mem_append, List.mem_cons, List.mem_append, List.mem_cons]
  rintro (hmem | heq | hmem | heq | hmem)
  · exact lf_notMem_of_isWord h.method hmem
  · exact absurd heq (by decide)
  · exact lf_notMem_of_isWord h.target hmem
  · exact absurd heq (by decide)
  · exact lf_notMem_of_isWord h.version hmem

theorem parseRequestLine_requestLine (h : c.Wf) :
    parseRequestLine c.requestLine = some { emptyRequest with
      method := c.method
      path := c.path
      version := c.version
      query := c.query.getD []
      queryParams := fun key => c.params.reverse.lookup key } := by
  have hmethod : getWord (some c.requestLine) = (c.method, some (space :: (c.target ++ space :: c.version))) :=
    getWord_append h.method (endsWord_space _)
  have htarget : getWord (some (space :: (c.target ++ space :: c.version))) = (c.target, some (space :: c.version)) :=
    getWord_space h.target (endsWord_space _)
  have hversion : getWord (some (space :: c.version)) = (c.version, some []) := by
    have hlast := getWord_space h.version endsWord_nil
    rwa [List.append_nil] at hlast
  have hne : ¬ (c.requestLine = [] ∨ c.method = [] ∨ c.target = []) := by
    rintro (hnil | hnil | hnil)
    · exact absurd (List.append_eq_nil_iff.mp hnil).2 (List.cons_ne_nil _ _)
    · exact h.method.ne_nil hnil
    · exact h.target.ne_nil hnil
  rw [parseRequestLine, hmethod]
  dsimp only
  rw [htarget]
  dsimp only
  rw [hversion]
  dsimp only
  rw [if_neg hne]
  have hasks := h.asks
  rw [Asks] at hasks
  rw [target]
  cases hquery : c.query with
  | none =>
      rw [hquery] at hasks
      dsimp only at hasks ⊢
      rw [cut_eq_none (List.cons_ne_nil _ _) (not_infix_of_notMem h.path), hasks]
      rfl
  | some query =>
      rw [hquery] at hasks
      dsimp only at hasks ⊢
      obtain ⟨parts, hparts, rfl⟩ := hasks
      rw [cut_char _ h.path]
      dsimp only
      rw [parseUrlencoded_encoded hparts]
      rfl

/-- What has been read in front of the body. -/
def head (c : ClientRequest) : HttpRequest := { c.request with cookies := fun _ => none, body := [] }

theorem readHead_bytes (h : c.Wf) (rest : Bytes) :
    readHead (c.requestLine ++ (crlf ++ (c.fields.flatMap (fun f => f.line ++ crlf) ++ (crlf ++ rest)))) =
      some (c.head, rest) := by
  have hline := httpReadLine_crlf (lf_notMem_requestLine h) h.short
    (c.fields.flatMap (fun f => f.line ++ crlf) ++ (crlf ++ rest))
  rw [readHead, Reader.bind_of_some hline]
  rw [parseRequestLine_requestLine h]
  dsimp only
  have hlen : c.fields.length < (c.fields.flatMap (fun f => f.line ++ crlf) ++ (crlf ++ rest)).length + 1 := by
    have hle := length_le_lines Header.line c.fields
    rw [List.length_append]
    omega
  have hheaders : readAllHeaders _ = some (_, rest) := readHeaders_lines h.fields hlen (fun _ => none) rest
  rw [Reader.bind_of_some hheaders, Reader.pure_apply]
  refine congrArg (fun headers => some ({ c.head with headers := headers }, rest)) ?_
  funext key
  rw [foldl_update, Option.or_none]
  rfl

end ClientRequest

/-! ### Cookies -/

theorem intercalate_space (p : Bytes) (ps : List Bytes) :
    (ascii "; ").intercalate (p :: ps) = [Chunked.semicolon].intercalate (p :: ps.map (fun p => space :: p)) := by
  have hsep : ascii "; " = [Chunked.semicolon, space] := by decide
  rw [hsep]
  induction ps generalizing p with
  | nil => rw [List.map_nil, List.intercalate_singleton, List.intercalate_singleton]
  | cons q ps ih =>
      rw [List.map_cons, List.intercalate_cons_cons, List.intercalate_cons_cons, ih q]
      have hfront : ∀ rest, [Chunked.semicolon].intercalate ((space :: q) :: rest) =
          space :: [Chunked.semicolon].intercalate (q :: rest) := by
        intro rest
        cases rest with
        | nil => rw [List.intercalate_singleton, List.intercalate_singleton]
        | cons r rest =>
            rw [List.intercalate_cons_cons, List.intercalate_cons_cons]
            rfl
      rw [hfront]
      simp

theorem addCookie_pair {name value : Bytes} (hhead : name.head? ≠ some space) (hequals : equals ∉ name) (pad : Nat)
    (cookies : Params) :
    addCookie cookies (List.replicate pad space ++ (name ++ equals :: value)) =
      Function.update cookies name (some value) := by
  have hdrop : (List.replicate pad space ++ (name ++ equals :: value)).dropWhile (· = space) = name ++ equals :: value := by
    induction pad with
    | zero =>
        cases name with
        | nil => exact List.dropWhile_cons_of_neg (by decide)
        | cons b name =>
            refine List.dropWhile_cons_of_neg ?_
            rw [decide_eq_true_eq]
            rintro rfl
            exact hhead rfl
    | succ pad ih => rw [List.replicate_succ, List.cons_append, List.dropWhile_cons_of_pos (by decide), ih]
  obtain ⟨b, rest, hcons⟩ := List.exists_cons_of_ne_nil
    (List.append_ne_nil_of_right_ne_nil name (List.cons_ne_nil equals value))
  rw [addCookie, hdrop, hcons]
  dsimp only
  rw [← hcons, cut_char _ hequals]

/-- **Cookies read back.** -/
theorem parseCookies_cookieText {c : ClientRequest} (h : c.Wf) :
    parseCookies c.cookieText = fun name => c.cookies.reverse.lookup name := by
  have hone : ∀ cookie ∈ c.cookies, ∀ (pad : Nat) (m : Params),
      addCookie m (List.replicate pad space ++ (cookie.1 ++ equals :: cookie.2)) =
        Function.update m cookie.1 (some cookie.2) :=
    fun cookie hcookie pad m => addCookie_pair (h.cookies cookie hcookie).1 (h.cookies cookie hcookie).2.1 pad m
  have hsemi : ∀ cookie ∈ c.cookies, Chunked.semicolon ∉ cookie.1 ++ equals :: cookie.2 := by
    intro cookie hcookie
    obtain ⟨-, -, hname, hvalue⟩ := h.cookies cookie hcookie
    rw [List.mem_append, List.mem_cons]
    rintro (hmem | heq | hmem)
    · exact hname hmem
    · exact absurd heq (by decide)
    · exact hvalue hmem
  rw [ClientRequest.cookieText, parseCookies]
  funext name
  have hfold := foldl_update c.cookies (fun _ => none) name
  rw [Option.or_none] at hfold
  rw [← hfold]
  cases hcookies : c.cookies with
  | nil => rfl
  | cons first cookies =>
      rw [hcookies] at hone hsemi
      obtain ⟨hfirst, hmore⟩ := List.forall_mem_cons.mp hone
      have htokens : tokens Chunked.semicolon ((ascii "; ").intercalate ((first :: cookies).map (fun cookie => cookie.1 ++ equals :: cookie.2))) =
          (first.1 ++ equals :: first.2) :: cookies.map (fun cookie => space :: (cookie.1 ++ equals :: cookie.2)) := by
        rw [List.map_cons, intercalate_space, List.map_map]
        refine tokens_intercalate ?_
        intro part hpart
        rcases List.mem_cons.mp hpart with rfl | hpart
        · exact ⟨List.append_ne_nil_of_right_ne_nil _ (List.cons_ne_nil _ _), hsemi _ List.mem_cons_self⟩
        · obtain ⟨cookie, hcookie, rfl⟩ := List.mem_map.mp hpart
          refine ⟨List.cons_ne_nil _ _, ?_⟩
          dsimp only [Function.comp_apply]
          rw [List.mem_cons, not_or]
          exact ⟨by decide, hsemi _ (List.mem_cons_of_mem _ hcookie)⟩
      have hrest : ∀ (m : Params),
          (cookies.map (fun cookie => space :: (cookie.1 ++ equals :: cookie.2))).foldl addCookie m =
            cookies.foldl (fun (m : Params) p => Function.update m p.1 (some p.2)) m := by
        intro m
        rw [List.foldl_map]
        refine List.foldl_ext _ _ _ ?_
        intro m cookie hcookie
        exact hmore cookie hcookie 1 m
      rw [htokens, List.foldl_cons, List.foldl_cons, hrest, ← hfirst 0]
      rfl

/-! ### Lengths -/

theorem not_isBlank_of_head_isDigit {ds : Bytes} (hne : ds ≠ []) (hdigits : ∀ x ∈ ds, Decimal.IsDigit x) (rest : Bytes) :
    (ds ++ rest).dropWhile (fun b => decide (Decimal.IsBlank b)) = ds ++ rest := by
  obtain ⟨d, ds, rfl⟩ := List.exists_cons_of_ne_nil hne
  refine List.dropWhile_cons_of_neg ?_
  rw [decide_eq_true_eq]
  exact Decimal.not_isBlank_of_isDigit (hdigits d List.mem_cons_self)

theorem dropWhile_blanks {a : Bytes} (h : ∀ x ∈ a, Decimal.IsBlank x) (rest : Bytes) :
    (a ++ rest).dropWhile (fun b => decide (Decimal.IsBlank b)) =
      rest.dropWhile (fun b => decide (Decimal.IsBlank b)) := by
  induction a with
  | nil => rfl
  | cons x a ih =>
      obtain ⟨hx, ha⟩ := List.forall_mem_cons.mp h
      simp only [List.cons_append, List.dropWhile_cons, hx, decide_true, if_true, ih ha]

/-- **A length is read back**, whatever blanks are around it. -/
theorem httpParseLength_of_isLength {v : Bytes} {n : Nat} (h : IsLength v n) (hn : n < 2 ^ 64) :
    v ≠ [] ∧ httpParseLength v = some n := by
  obtain ⟨a, ds, b, rfl, ha, hne, hdigits, hvalue, hb⟩ := h
  have htrim : httpTrimCopy (a ++ (ds ++ b)) = ds := by
    have hreverse : ∀ x ∈ b.reverse, Decimal.IsBlank x := fun x hx => hb x (List.mem_reverse.mp hx)
    have hback := not_isBlank_of_head_isDigit (List.reverse_ne_nil_iff.mpr hne)
      (fun x hx => hdigits x (List.mem_reverse.mp hx)) []
    rw [List.append_nil] at hback
    rw [httpTrimCopy, dropWhile_blanks ha, not_isBlank_of_head_isDigit hne hdigits, List.rdropWhile, List.reverse_append,
      dropWhile_blanks hreverse, hback, List.reverse_reverse]
  have hsign : ¬ (ds = [] ∨ ds.head? = some 43 ∨ ds.head? = some 45) := by
    rintro (hnil | hplus | hminus)
    · exact hne hnil
    · exact absurd (hdigits 43 (List.mem_of_mem_head? hplus)) (by decide)
    · exact absurd (hdigits 45 (List.mem_of_mem_head? hminus)) (by decide)
  have hall : ds.all (fun b => decide (Decimal.IsDigit b)) = true := by
    rw [List.all_eq_true]
    exact fun x hx => decide_eq_true (hdigits x hx)
  refine ⟨List.append_ne_nil_of_right_ne_nil _ (List.append_ne_nil_of_left_ne_nil hne _), ?_⟩
  rw [httpParseLength, htrim, if_neg hsign, if_pos hall, hvalue, if_pos hn]

/-! ### Chunks -/

/-- A chunk of whatever length, as a client sends it. -/
theorem readChunks_bytes {chunk : Chunk} (h : chunk.Wf) {fuel : Nat} {acc : Bytes}
    (hfits : acc.length + chunk.data.length ≤ maxRequestBodyBytes) (rest : Bytes) :
    readChunks (fuel + 1) acc (chunk.bytes ++ rest) = readChunks fuel (acc ++ chunk.data) rest := by
  have hpos := List.length_pos_iff.mpr h.data
  have hmax : maxRequestBodyBytes < 2 ^ 64 := by decide
  have hdigits : ∀ b ∈ Hex.text chunk.data.length, Hex.IsDigit b := fun b hb => Hex.isDigit_of_mem_text hb
  have hlf : lf ∉ Hex.text chunk.data.length ++ chunk.ext := by
    rw [List.mem_append]
    rintro (hmem | hmem)
    · exact absurd (hdigits _ hmem) (by decide)
    · exact h.text hmem
  have hline := httpReadLine_crlf hlf h.short (chunk.data ++ (crlf ++ rest))
  have hvalue : Hex.value (Hex.text chunk.data.length) = chunk.data.length := Hex.value_digits (Nat.lt_succ_self _)
  have hsize : chunkSize (Hex.text chunk.data.length ++ chunk.ext) = some chunk.data.length := by
    rw [(chunkSize_eq (Hex.text_ne_nil _) hdigits h.ext).2, hvalue, if_pos (by omega)]
  have hafter : httpReadLine (crlf ++ rest) = some ([], rest) :=
    httpReadLine_crlf (show lf ∉ [] by decide) (by decide) rest
  rw [Chunk.bytes]
  simp only [List.append_assoc] at hline ⊢
  rw [readChunks, hline]
  dsimp only [Option.bind_eq_bind, Option.bind_some]
  rw [hsize]
  dsimp only [Option.bind_some]
  rw [if_neg (by omega), if_neg (by omega), Reader.take_append]
  dsimp only [Option.bind_some]
  rw [hafter]
  rfl

theorem skipTrailers_lines {trailers : List Bytes} (h : ∀ t ∈ trailers, t ≠ [] ∧ lf ∉ t ∧ t.length < maxLine) {fuel : Nat}
    (hfuel : trailers.length < fuel) (rest : Bytes) :
    skipTrailers fuel (trailers.flatMap (fun t => t ++ crlf) ++ (crlf ++ rest)) = some rest := by
  induction trailers generalizing fuel with
  | nil =>
      obtain ⟨fuel, rfl⟩ : ∃ n, fuel = n + 1 := ⟨fuel - 1, by omega⟩
      have hline : httpReadLine ([] ++ (crlf ++ rest)) = some ([], rest) :=
        httpReadLine_crlf List.not_mem_nil (by decide) rest
      rw [List.flatMap_nil, skipTrailers, hline]
      rfl
  | cons t trailers ih =>
      obtain ⟨fuel, rfl⟩ : ∃ n, fuel = n + 1 := ⟨fuel - 1, by omega⟩
      obtain ⟨⟨hne, hlf, hshort⟩, htrailers⟩ := List.forall_mem_cons.mp h
      rw [List.length_cons] at hfuel
      have hline := httpReadLine_crlf hlf hshort (trailers.flatMap (fun t => t ++ crlf) ++ (crlf ++ rest))
      rw [List.flatMap_cons, List.append_assoc, List.append_assoc, skipTrailers, hline]
      dsimp only [Option.bind_eq_bind, Option.bind_some]
      rw [if_neg hne]
      exact ih htrailers (by omega)

/-- **A chunked body is read back**, extensions and trailers left out. -/
theorem readChunks_content {chunks : List Chunk} {trailers : List Bytes} (h : ∀ chunk ∈ chunks, chunk.Wf)
    (htrailers : ∀ t ∈ trailers, t ≠ [] ∧ lf ∉ t ∧ t.length < maxLine) {fuel : Nat} (hfuel : chunks.length < fuel)
    {acc : Bytes} (hfits : acc.length + (chunks.flatMap Chunk.data).length ≤ maxRequestBodyBytes) (rest : Bytes) :
    readChunks fuel acc ((Content.chunked chunks trailers).bytes ++ rest) =
      some (acc ++ chunks.flatMap Chunk.data, rest) := by
  induction chunks generalizing fuel acc with
  | nil =>
      obtain ⟨fuel, rfl⟩ : ∃ n, fuel = n + 1 := ⟨fuel - 1, by omega⟩
      have hline := httpReadLine_crlf (show lf ∉ ascii "0" by decide) (by decide)
        (trailers.flatMap (fun t => t ++ crlf) ++ (crlf ++ rest))
      have hsize : chunkSize (ascii "0") = some 0 := by decide
      have hskip : skipTrailers ((trailers.flatMap (fun t => t ++ crlf) ++ (crlf ++ rest)).length + 1)
          (trailers.flatMap (fun t => t ++ crlf) ++ (crlf ++ rest)) = some rest := by
        refine skipTrailers_lines htrailers ?_ rest
        rw [List.length_append]
        exact Nat.lt_succ_of_le (Nat.le_add_right_of_le (length_le_lines id trailers))
      rw [Content.bytes, List.flatMap_nil, List.nil_append]
      simp only [List.append_assoc] at hline hskip ⊢
      rw [readChunks, hline]
      dsimp only [Option.bind_eq_bind, Option.bind_some]
      rw [hsize]
      dsimp only [Option.bind_some]
      rw [if_pos rfl, hskip, List.flatMap_nil, List.append_nil]
      rfl
  | cons chunk chunks ih =>
      obtain ⟨fuel, rfl⟩ : ∃ n, fuel = n + 1 := ⟨fuel - 1, by omega⟩
      obtain ⟨hchunk, hchunks⟩ := List.forall_mem_cons.mp h
      rw [List.length_cons] at hfuel
      rw [List.flatMap_cons, List.length_append] at hfits
      have hrest := @ih hchunks fuel (by omega) (acc ++ chunk.data) (by rw [List.length_append]; omega)
      have hsplit : (Content.chunked (chunk :: chunks) trailers).bytes ++ rest =
          chunk.bytes ++ ((Content.chunked chunks trailers).bytes ++ rest) := by
        simp only [Content.bytes, List.flatMap_cons, List.append_assoc]
      rw [hsplit, readChunks_bytes hchunk (by omega), hrest, List.flatMap_cons, List.append_assoc]

theorem length_le_chunks (chunks : List Chunk) (trailers : List Bytes) :
    chunks.length ≤ (Content.chunked chunks trailers).bytes.length := by
  have hbytes : Chunk.bytes = fun chunk => Hex.text chunk.data.length ++ chunk.ext ++ (crlf ++ chunk.data) ++ crlf := by
    funext chunk
    simp only [Chunk.bytes, List.append_assoc]
  have hle := length_le_lines (fun chunk : Chunk => Hex.text chunk.data.length ++ chunk.ext ++ (crlf ++ chunk.data)) chunks
  rw [Content.bytes, List.length_append, hbytes]
  exact Nat.le_add_right_of_le hle

/-! ### The whole request -/

namespace ClientRequest

variable {c : ClientRequest}

theorem header_head (c : ClientRequest) (name : String) (hlower : lowerCopy (ascii name) = ascii name) :
    c.head.header (ascii name) = c.field name := by
  rw [HttpRequest.header, hlower]
  rfl

theorem contains_field {pat : Bytes} {value : Bytes} : contains pat value = decide (pat <:+: value) := by
  cases hcontains : contains pat value with
  | true => exact (decide_eq_true (contains_iff.mp hcontains)).symm
  | false =>
      refine (decide_eq_false fun hin => ?_).symm
      exact absurd (contains_iff.mpr hin) (by rw [hcontains]; decide)

/-- The go-ahead, if there is to be one. -/
theorem runs_continue {q : Reader Bytes} {input body rest : Bytes} (hq : q input = some (body, rest)) (wants : Prop)
    [Decidable wants] :
    Talk.Runs (if wants then Talk.writeAll continueText >>= fun _ => Talk.recv q else Talk.recv q) input (some body) rest
      (if wants then continueText else []) := by
  split
  · have hruns := (Talk.runs_writeAll continueText input).bind (f := fun _ => Talk.recv q) (Talk.runs_recv hq)
    rwa [List.append_nil] at hruns
  · exact Talk.runs_recv hq

/-- The body, in front of whatever follows. -/
theorem runs_readBody (h : c.Framed) (rest : Bytes) :
    Talk.Runs (readBody c.head) (c.content.bytes ++ rest) (some c.content.body) rest c.interim := by
  have htransfer := c.header_head "transfer-encoding" (by decide)
  have hlength := c.header_head "content-length" (by decide)
  have hexpect := c.header_head "expect" (by decide)
  have hinterim : c.interim =
      if ascii "100-continue" <:+: lowerCopy (c.field "expect") ∧ c.content.Awaited then continueText else [] := rfl
  rw [Framed] at h
  rw [readBody, htransfer, hlength, hexpect, contains_field, contains_field, hinterim]
  cases hcontent : c.content with
  | none =>
      rw [hcontent] at h
      obtain ⟨hnot, hempty⟩ := h
      rw [hempty, decide_eq_false hnot, if_neg (by decide), if_pos rfl, if_neg fun hexpects => hexpects.2]
      exact Talk.runs_pure _ _
  | sized body =>
      rw [hcontent] at h
      obtain ⟨hnot, hisLength, hfits⟩ := h
      have hmax : maxRequestBodyBytes < 2 ^ 64 := by decide
      obtain ⟨hne, hparse⟩ := httpParseLength_of_isLength hisLength (by omega)
      have hiff : (ascii "100-continue" <:+: lowerCopy (c.field "expect") ∧ (Content.sized body).Awaited) ↔
          decide (ascii "100-continue" <:+: lowerCopy (c.field "expect")) = true ∧ body.length > 0 := by
        rw [decide_eq_true_eq, gt_iff_lt, List.length_pos_iff]
        exact Iff.rfl
      rw [decide_eq_false hnot, if_neg (by decide), if_neg hne, hparse, if_congr hiff rfl rfl]
      dsimp only
      rw [if_neg (by omega)]
      exact runs_continue (Reader.take_append body rest) _
  | chunked chunks trailers =>
      rw [hcontent] at h
      obtain ⟨hchunked, hchunks, hfits, htrailers⟩ := h
      have hread : readChunkedBody ((Content.chunked chunks trailers).bytes ++ rest) =
          some (chunks.flatMap Chunk.data, rest) := by
        have hfuel : chunks.length < ((Content.chunked chunks trailers).bytes ++ rest).length + 1 := by
          have hle := length_le_chunks chunks trailers
          rw [List.length_append]
          omega
        exact readChunks_content hchunks htrailers hfuel (by rw [List.length_nil]; omega) rest
      have hiff : (ascii "100-continue" <:+: lowerCopy (c.field "expect") ∧ (Content.chunked chunks trailers).Awaited) ↔
          decide (ascii "100-continue" <:+: lowerCopy (c.field "expect")) = true := by
        rw [decide_eq_true_eq]
        exact and_iff_left trivial
      rw [decide_eq_true hchunked, if_pos rfl, if_congr hiff rfl rfl]
      exact runs_continue hread _

/-- **A request is read as it was meant**, and nothing of what follows is. -/
theorem runs_readHttpRequest (h : c.Wf) (rest : Bytes) :
    Talk.Runs readHttpRequest (c.bytes ++ rest) (some c.request) rest c.interim := by
  have hhead : readHead (c.bytes ++ rest) = some (c.head, c.content.bytes ++ rest) := by
    rw [bytes]
    simp only [List.append_assoc]
    exact readHead_bytes h (c.content.bytes ++ rest)
  have hcookie := c.header_head "cookie" (by decide)
  rw [h.cookie] at hcookie
  have hcookies : (if c.head.header (ascii "cookie") = [] then c.head
      else { c.head with cookies := parseCookies (c.head.header (ascii "cookie")) }) = { c.request with body := [] } := by
    rw [hcookie, parseCookies_cookieText h]
    split
    · rename_i hnil
      have hnone : (fun _ => none) = c.request.cookies := by
        have hparse := parseCookies_cookieText h
        rwa [hnil] at hparse
      show ({ c.request with cookies := fun _ => none, body := [] } : HttpRequest) =
        { c.request with cookies := c.request.cookies, body := [] }
      rw [hnone]
    · rfl
  have hrest : Talk.Runs (readRest c.head) (c.content.bytes ++ rest) (some c.request) rest c.interim := by
    rw [readRest, hcookies]
    have hruns := (runs_readBody h.framed rest).bind (f := fun body => pure { c.request with body := body })
      (Talk.runs_pure _ rest)
    rw [List.append_nil] at hruns
    exact hruns
  exact (Talk.runs_recv hhead).bind hrest

end ClientRequest

/-! ## Any input -/

theorem steady_readBody (req : HttpRequest) : Talk.Steady (readBody req) := by
  rw [readBody]
  have hgo : ∀ (wants : Prop) [Decidable wants] (q : Reader Bytes), Talk.Steady
      (if wants then Talk.writeAll continueText >>= fun _ => Talk.recv q else Talk.recv q) := by
    intro wants _ q
    split
    · exact (Talk.steady_writeAll _).bind fun _ => Talk.steady_recv q
    · exact Talk.steady_recv q
  split
  · exact hgo _ _
  · dsimp only
    split
    · exact Talk.steady_pure _
    · split
      · exact Talk.steady_fail
      · split
        · exact (Talk.steady_writeAll _).bind fun _ => Talk.steady_fail
        · exact hgo _ _

theorem steady_readHttpRequest : Talk.Steady readHttpRequest :=
  (Talk.steady_recv _).bind fun _ => (steady_readBody _).bind fun _ => Talk.steady_pure _

/-- A body that is said to be too long is not read. -/
theorem runs_readBody_tooLarge {req : HttpRequest} {n : Nat}
    (htransfer : ¬ ascii "chunked" <:+: lowerCopy (req.header (ascii "transfer-encoding")))
    (hlength : IsLength (req.header (ascii "content-length")) n) (hlong : maxRequestBodyBytes < n) (hn : n < 2 ^ 64)
    (input : Bytes) : Talk.Runs (readBody req) input none input tooLargeText := by
  obtain ⟨hne, hparse⟩ := httpParseLength_of_isLength hlength hn
  rw [readBody, ClientRequest.contains_field, decide_eq_false htransfer, if_neg (by decide), if_neg hne, hparse]
  dsimp only
  rw [if_pos hlong]
  have hruns := (Talk.runs_writeAll tooLargeText input).bind (f := fun _ => (Talk.fail : Talk Bytes)) (Talk.runs_fail input)
  rwa [List.append_nil] at hruns

/-! ## Answering -/

theorem runs_writeChunks (fuel : Nat) (body input : Bytes) :
    Talk.Runs (writeChunks fuel body) input (some ()) input (chunksFrom fuel body) := by
  induction fuel generalizing body with
  | zero => exact Talk.runs_writeAll _ _
  | succ fuel ih =>
      rw [writeChunks, chunksFrom]
      by_cases hnil : body = []
      · rw [if_pos hnil, if_pos hnil]
        exact Talk.runs_writeAll _ _
      · rw [if_neg hnil, if_neg hnil]
        dsimp only
        have hruns := (Talk.runs_writeAll (httpChunkPrefix (min maxChunk body.length) ++
          (crlf ++ (body.take (min maxChunk body.length) ++ crlf))) input).bind
          (f := fun _ => writeChunks fuel (body.drop (min maxChunk body.length))) (ih _)
        simp only [List.append_assoc] at hruns
        exact hruns

/-- What is sent of a response. -/
def responseBytes (resp : HttpResponse) (isHead : Bool) : Bytes :=
  responseHead resp ++ (if isHead then [] else if resp.chunked then sendHttpChunkedBody resp.body else resp.body)

theorem runs_sendHttpResponse (resp : HttpResponse) (isHead : Bool) (input : Bytes) :
    Talk.Runs (sendHttpResponse resp isHead) input (some ()) input (responseBytes resp isHead) := by
  rw [sendHttpResponse, responseBytes]
  cases isHead with
  | true =>
      rw [if_pos rfl, if_pos rfl, List.append_nil]
      exact Talk.runs_writeAll _ _
  | false =>
      rw [if_neg Bool.false_ne_true, if_neg Bool.false_ne_true]
      split
      · exact (Talk.runs_writeAll _ _).bind (f := fun _ => writeChunks resp.body.length resp.body) (runs_writeChunks _ _ _)
      · exact Talk.runs_writeAll _ _

end NCloud.Protocol.Http
