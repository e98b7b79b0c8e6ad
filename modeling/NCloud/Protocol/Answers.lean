import NCloud.Protocol.Http

/-!
# The other end of a connection

What a client that goes by the framing of HTTP/1.1 makes of the bytes it is sent: it looks for
line ends, for the length of the body or its chunks, and knows nothing of where one answer was
meant to end. It gets every answer as the server put it (`Client.readReply_responseBytes`).
-/

namespace NCloud.Protocol.Http

open Wire Forms Chunked Smtp

/-! ## A client -/

namespace Client

/-- What a client makes of an answer. -/
structure Reply where
  status : Nat
  text : Bytes
  fields : List (Bytes × Bytes)
  body : Bytes
  deriving DecidableEq

/-- The status and the text of a status line. -/
def statusLine (line : Bytes) : Option (Nat × Bytes) :=
  if (ascii "HTTP/1.1 ").isPrefixOf line then do
    let (code, text) ← cut [space] (line.drop (ascii "HTTP/1.1 ").length)
    if code ≠ [] ∧ ∀ b ∈ code, Decimal.IsDigit b then some (Decimal.valueFrom 0 code, text) else none
  else none

/-- The header lines up to the empty one, at most so many. -/
def fields : (fuel : Nat) → Bytes → Option (List (Bytes × Bytes) × Bytes)
  | 0, _ => none
  | fuel + 1, input => do
      let (line, rest) ← cut crlf input
      if line = [] then some ([], rest)
      else
        let (name, value) ← cut [colon] line
        let (more, rest) ← fields fuel rest
        some ((name, value.dropWhile (· = space)) :: more, rest)

/-- The first field of a name, whatever its case. -/
def field (name : String) (fs : List (Bytes × Bytes)) : Option Bytes :=
  (fs.find? (fun f => lowerCopy f.1 = ascii name)).map Prod.snd

/-- Chunks up to the empty one, at most so many. -/
def chunks : (fuel : Nat) → Bytes → Option (Bytes × Bytes)
  | 0, _ => none
  | fuel + 1, input => do
      let (size, rest) ← cut crlf input
      if size ≠ [] ∧ ∀ b ∈ size, Hex.IsDigit b then
        let (data, rest) ← Reader.take (Hex.value size) rest
        let (ending, rest) ← Reader.take crlf.length rest
        if ending ≠ crlf then none
        else if data = [] then some ([], rest)
        else
          let (more, rest) ← chunks fuel rest
          some (data ++ more, rest)
      else none

/-- The body, for the status and the fields: none after `HEAD`, chunks, as many bytes as the
length says, or whatever comes. -/
def readBody (isHead : Bool) (status : Nat) (fs : List (Bytes × Bytes)) (input : Bytes) : Option (Bytes × Bytes) :=
  if isHead ∨ status = 204 ∨ status = 304 then some ([], input)
  else if field "transfer-encoding" fs = some (ascii "chunked") then chunks (input.length + 1) input
  else
    match field "content-length" fs with
    | none => some (input, [])
    | some length => Reader.take (Decimal.valueFrom 0 length) input

/-- The next answer; at most so many that only say to go on are passed over. -/
def readReply (isHead : Bool) : (fuel : Nat) → Bytes → Option (Reply × Bytes)
  | 0, _ => none
  | fuel + 1, input => do
      let (line, rest) ← cut crlf input
      let (status, text) ← statusLine line
      let (fs, rest) ← fields (rest.length + 1) rest
      if 100 ≤ status ∧ status < 200 then readReply isHead fuel rest
      else
        let (body, rest) ← readBody isHead status fs rest
        some (⟨status, text, fs, body⟩, rest)

/-- The answers to so many requests; which of them were `HEAD` is known. -/
def readReplies : List Bool → Bytes → Option (List Reply × Bytes)
  | [], input => some ([], input)
  | isHead :: heads, input => do
      let (reply, rest) ← readReply isHead (input.length + 1) input
      let (replies, rest) ← readReplies heads rest
      some (reply :: replies, rest)

end Client

/-! ## Answers that can be framed -/

/-- A name and a value that make a header line. -/
structure HeaderFits (h : Bytes × Bytes) : Prop where
  name : colon ∉ h.1 ∧ cr ∉ h.1
  value : cr ∉ h.2
  head : h.2.head? ≠ some space

/-- An answer whose headers do not meddle with the framing. -/
structure HttpResponse.Framed (r : HttpResponse) : Prop where
  status : 200 ≤ r.statusCode
  empty : r.statusCode = 204 ∨ r.statusCode = 304 → r.body = [] ∧ r.chunked = false
  text : cr ∉ r.statusText
  headers : ∀ h ∈ r.headers, HeaderFits h ∧ lowerCopy h.1 ≠ ascii "transfer-encoding" ∧ lowerCopy h.1 ≠ ascii "content-length"
  cookies : ∀ cookie ∈ r.setCookies, cr ∉ cookie ∧ cookie.head? ≠ some space

/-- What the client is to make of it. -/
def HttpResponse.reply (r : HttpResponse) (isHead : Bool) : Client.Reply where
  status := r.statusCode
  text := r.statusText
  fields := responseHeaders r
  body := if isHead then [] else r.body

namespace Client

/-! ## Lines -/

theorem cut_crlf {line : Bytes} (h : cr ∉ line) (rest : Bytes) : cut crlf (line ++ (crlf ++ rest)) = some (line, rest) := by
  have hlf : cr ∉ [lf] := by decide
  refine cut_append_head rest hlf ?_
  rintro ⟨x, y, rfl⟩
  exact h (by simp)

theorem cr_notMem_of_isDigit {s : Bytes} (h : ∀ b ∈ s, Decimal.IsDigit b) : cr ∉ s :=
  fun hmem => absurd (h cr hmem) (by decide)

theorem statusLine_eq (resp : HttpResponse) :
    statusLine (Http.statusLine resp) = some (resp.statusCode, resp.statusText) := by
  have hassoc : Http.statusLine resp = ascii "HTTP/1.1 " ++ (Decimal.text resp.statusCode ++ space :: resp.statusText) := by
    rw [Http.statusLine]
    simp only [List.append_assoc, List.singleton_append]
  have hpre : (ascii "HTTP/1.1 ").isPrefixOf (Http.statusLine resp) = true := by
    rw [hassoc, List.isPrefixOf_iff_prefix]
    exact List.prefix_append _ _
  have hspace : space ∉ Decimal.text resp.statusCode :=
    fun hmem => absurd (Decimal.isDigit_of_mem_digits hmem) (by decide)
  rw [statusLine, if_pos hpre, hassoc, List.drop_left, cut_char _ hspace]
  dsimp only [Option.bind_eq_bind, Option.bind_some]
  rw [if_pos ⟨Decimal.digits_ne_nil _ _, fun b hb => Decimal.isDigit_of_mem_digits hb⟩]
  rw [Decimal.text, Decimal.valueFrom_digits (Nat.lt_succ_self _)]

/-- **Header lines are read back.** -/
theorem fields_lines {hs : List (Bytes × Bytes)} (h : ∀ f ∈ hs, HeaderFits f) {fuel : Nat} (hfuel : hs.length < fuel)
    (rest : Bytes) :
    fields fuel (hs.flatMap (fun f => headerLine f.1 f.2 ++ crlf) ++ (crlf ++ rest)) = some (hs, rest) := by
  induction hs generalizing fuel with
  | nil =>
      obtain ⟨fuel, rfl⟩ : ∃ n, fuel = n + 1 := ⟨fuel - 1, by omega⟩
      have hline : cut crlf ([] ++ (crlf ++ rest)) = some ([], rest) := cut_crlf List.not_mem_nil rest
      rw [List.flatMap_nil, fields, hline]
      rfl
  | cons f hs ih =>
      obtain ⟨fuel, rfl⟩ : ∃ n, fuel = n + 1 := ⟨fuel - 1, by omega⟩
      obtain ⟨hf, hhs⟩ := List.forall_mem_cons.mp h
      rw [List.length_cons] at hfuel
      obtain ⟨name, value⟩ := f
      have hassoc : headerLine name value = name ++ colon :: space :: value := by
        rw [headerLine, List.append_assoc]
        rfl
      have hcr : cr ∉ headerLine name value := by
        rw [hassoc, List.mem_append, List.mem_cons, List.mem_cons]
        rintro (hmem | heq | heq | hmem)
        · exact hf.name.2 hmem
        · exact absurd heq (by decide)
        · exact absurd heq (by decide)
        · exact hf.value hmem
      have hne : headerLine name value ≠ [] := by
        rw [hassoc]
        exact List.append_ne_nil_of_right_ne_nil _ (List.cons_ne_nil _ _)
      have hvalue : (space :: value).dropWhile (· = space) = value := by
        rw [List.dropWhile_cons_of_pos (by decide)]
        have hhead := hf.head
        cases value with
        | nil => rfl
        | cons b value =>
            refine List.dropWhile_cons_of_neg ?_
            rw [decide_eq_true_eq]
            rintro rfl
            exact hhead rfl
      rw [List.flatMap_cons, List.append_assoc, List.append_assoc, fields, cut_crlf hcr]
      dsimp only [Option.bind_eq_bind, Option.bind_some]
      rw [if_neg hne, hassoc, cut_char _ hf.name.1]
      dsimp only [Option.bind_some]
      rw [ih hhs (by omega), hvalue]
      rfl

/-! ## Bodies -/

/-- **A chunked body is read back.** -/
theorem chunks_chunksFrom {fuel : Nat} {body : Bytes} (hfuel : body.length ≤ fuel) (rest : Bytes) {turns : Nat}
    (hturns : body.length < turns) : chunks turns (chunksFrom fuel body ++ rest) = some (body, rest) := by
  have hlast : ∀ turns, chunks (turns + 1) (lastChunk ++ rest) = some ([], rest) := by
    intro turns
    have hline : cut crlf (lastChunk ++ rest) = some ([48], crlf ++ rest) :=
      cut_crlf (show cr ∉ [48] by decide) (crlf ++ rest)
    have hsize : ([48] : Bytes) ≠ [] ∧ ∀ b ∈ ([48] : Bytes), Hex.IsDigit b := by decide
    have hzero : Hex.value [48] = ([] : Bytes).length := by decide
    rw [chunks, hline]
    dsimp only [Option.bind_eq_bind, Option.bind_some]
    rw [if_pos hsize, hzero, show crlf ++ rest = [] ++ (crlf ++ rest) from rfl, Reader.take_append]
    dsimp only [Option.bind_some]
    rw [Reader.take_append]
    rfl
  induction fuel generalizing body turns with
  | zero =>
      obtain rfl := List.length_eq_zero_iff.mp (Nat.le_zero.mp hfuel)
      obtain ⟨turns, rfl⟩ : ∃ n, turns = n + 1 := ⟨turns - 1, by omega⟩
      exact hlast turns
  | succ fuel ih =>
      obtain ⟨turns, rfl⟩ : ∃ n, turns = n + 1 := ⟨turns - 1, by omega⟩
      rw [chunksFrom]
      by_cases hnil : body = []
      · rw [if_pos hnil, hnil]
        exact hlast turns
      · have hpos := List.length_pos_iff.mpr hnil
        have hmax : 0 < maxChunk := by decide
        rw [if_neg hnil]
        dsimp only
        generalize htake : min maxChunk body.length = take
        have hlen : (body.take take).length = take := by
          rw [List.length_take]
          omega
        have hdrop : (body.drop take).length = body.length - take := List.length_drop
        have hdigits : ∀ b ∈ httpChunkPrefix take, Hex.IsDigit b := fun b hb => Hex.isDigit_of_mem_text hb
        have hcr : cr ∉ httpChunkPrefix take := fun hmem => absurd (hdigits _ hmem) (by decide)
        have hvalue : Hex.value (httpChunkPrefix take) = (body.take take).length := by
          rw [hlen]
          exact Hex.value_digits (Nat.lt_succ_self _)
        have hdata : body.take take ≠ [] := by
          refine List.length_pos_iff.mp ?_
          omega
        simp only [List.append_assoc]
        rw [chunks, cut_crlf hcr]
        dsimp only [Option.bind_eq_bind, Option.bind_some]
        rw [if_pos ⟨Hex.text_ne_nil take, hdigits⟩, hvalue, Reader.take_append]
        dsimp only [Option.bind_some]
        rw [Reader.take_append]
        dsimp only [Option.bind_some]
        rw [if_neg (not_not_intro rfl), if_neg hdata, ih (by omega) (by omega), Option.bind_some, List.take_append_drop]

/-! ## Whole answers -/

variable {resp : HttpResponse}

theorem headerFits_responseHeaders (h : resp.Framed) : ∀ f ∈ responseHeaders resp, HeaderFits f := by
  have hplain : ∀ {name value : String}, colon ∉ ascii name ∧ cr ∉ ascii name → cr ∉ ascii value ∧
      (ascii value).head? ≠ some space → HeaderFits (ascii name, ascii value) :=
    fun hname hvalue => ⟨hname, hvalue.1, hvalue.2⟩
  intro f hf
  simp only [responseHeaders, List.mem_append, List.mem_cons, List.not_mem_nil, or_false, List.mem_map] at hf
  rcases hf with (((rfl | rfl | rfl) | hf) | ⟨cookie, hcookie, rfl⟩) | rfl
  · exact hplain (by decide) (by decide)
  · -- the connection is what the answer says of it, or is closed
    have hname : colon ∉ connectionKey ∧ cr ∉ connectionKey := by decide
    cases hlookup : resp.headers.lookup connectionKey with
    | none => exact ⟨hname, by decide, by decide⟩
    | some value =>
        obtain ⟨before, after, hsplit, -⟩ := List.lookup_eq_some_iff.mp hlookup
        have hmem : (connectionKey, value) ∈ resp.headers := by
          rw [hsplit]
          exact List.mem_append_right _ List.mem_cons_self
        have hfits := (h.headers _ hmem).1
        exact ⟨hname, hfits.value, hfits.head⟩
  · split
    · exact hplain (by decide) (by decide)
    · have hname : colon ∉ ascii "Content-Length" ∧ cr ∉ ascii "Content-Length" := by decide
      refine ⟨hname, fun hmem => absurd (Decimal.isDigit_of_mem_digits hmem) (by decide), fun hhead => ?_⟩
      exact absurd (Decimal.isDigit_of_mem_digits (List.mem_of_mem_head? hhead)) (by decide)
  · exact (h.headers f (List.mem_of_mem_filter hf)).1
  · have hname : colon ∉ ascii "Set-Cookie" ∧ cr ∉ ascii "Set-Cookie" := by decide
    exact ⟨hname, (h.cookies cookie hcookie).1, (h.cookies cookie hcookie).2⟩
  · exact hplain (by decide) (by decide)

theorem field_cons_of_ne {name : String} {f : Bytes × Bytes} (h : lowerCopy f.1 ≠ ascii name) (fs : List (Bytes × Bytes)) :
    field name (f :: fs) = field name fs := by
  rw [field, List.find?_cons_of_neg (by simpa using h)]
  rfl

theorem field_cons_of_eq {name : String} {f : Bytes × Bytes} (h : lowerCopy f.1 = ascii name) (fs : List (Bytes × Bytes)) :
    field name (f :: fs) = some f.2 := by
  rw [field, List.find?_cons_of_pos (by simpa using h)]
  rfl

theorem field_eq_none {name : String} {fs : List (Bytes × Bytes)} (h : ∀ f ∈ fs, lowerCopy f.1 ≠ ascii name) :
    field name fs = none := by
  rw [field, List.find?_eq_none.mpr (fun f hf => by simpa using h f hf)]
  rfl

/-- **The framing that the client finds** is the one that was used. -/
theorem field_responseHeaders (h : resp.Framed) :
    field "transfer-encoding" (responseHeaders resp) = (if resp.chunked then some (ascii "chunked") else none) ∧
      (resp.chunked = false →
        field "content-length" (responseHeaders resp) = some (Decimal.text resp.body.length)) := by
  have hfront : ∀ {name : String}, lowerCopy (ascii "Server") ≠ ascii name → lowerCopy connectionKey ≠ ascii name →
      ∀ (f : Bytes × Bytes) (fs : List (Bytes × Bytes)),
        field name ((ascii "Server", ascii "NCloud/1.0") ::
          (connectionKey, (resp.headers.lookup connectionKey).getD (ascii "close")) :: f :: fs) = field name (f :: fs) := by
    intro name hserver hconnection f fs
    rw [field_cons_of_ne hserver, field_cons_of_ne hconnection]
  have hmore : ∀ f ∈ resp.headers.filter (fun h => h.1 ≠ connectionKey) ++
      resp.setCookies.map (fun cookie => (ascii "Set-Cookie", cookie)) ++ [(ascii "Access-Control-Allow-Origin", ascii "*")],
      lowerCopy f.1 ≠ ascii "transfer-encoding" := by
    intro f hf
    simp only [List.mem_append, List.mem_singleton, List.mem_map] at hf
    rcases hf with (hf | ⟨cookie, -, rfl⟩) | rfl
    · exact (h.headers f (List.mem_of_mem_filter hf)).2.1
    · exact show lowerCopy (ascii "Set-Cookie") ≠ ascii "transfer-encoding" by decide
    · exact show lowerCopy (ascii "Access-Control-Allow-Origin") ≠ ascii "transfer-encoding" by decide
  rw [responseHeaders]
  simp only [List.append_assoc, List.cons_append, List.nil_append] at hmore ⊢
  rw [hfront (by decide) (by decide), hfront (by decide) (by decide)]
  cases hchunked : resp.chunked with
  | true =>
      refine ⟨?_, fun hfalse => absurd hfalse (by decide)⟩
      exact field_cons_of_eq (show lowerCopy (ascii "Transfer-Encoding") = ascii "transfer-encoding" by decide) _
  | false =>
      refine ⟨?_, fun _ => ?_⟩
      · exact (field_cons_of_ne (show lowerCopy (ascii "Content-Length") ≠ ascii "transfer-encoding" by decide) _).trans
          (field_eq_none hmore)
      · exact field_cons_of_eq (show lowerCopy (ascii "Content-Length") = ascii "content-length" by decide) _

theorem readBody_reply (h : resp.Framed) (isHead : Bool) (rest : Bytes) :
    readBody isHead resp.statusCode (responseHeaders resp)
      ((if isHead then [] else if resp.chunked then sendHttpChunkedBody resp.body else resp.body) ++ rest) =
      some (if isHead then [] else resp.body, rest) := by
  obtain ⟨htransfer, hlength⟩ := field_responseHeaders h
  have hempty := h.empty
  rw [readBody, htransfer]
  cases isHead with
  | true => rfl
  | false =>
      by_cases hnone : resp.statusCode = 204 ∨ resp.statusCode = 304
      · obtain ⟨hbody, hchunked⟩ := hempty hnone
        rw [if_pos (.inr hnone), hchunked, hbody]
        rfl
      · rw [if_neg (not_or.mpr ⟨Bool.false_ne_true, hnone⟩)]
        cases hchunked : resp.chunked with
        | true =>
            have hle := le_length_chunksFrom (Nat.le_refl resp.body.length)
            rw [if_pos rfl, if_neg Bool.false_ne_true, if_pos rfl, if_pos rfl, sendHttpChunkedBody]
            refine chunks_chunksFrom (Nat.le_refl _) rest ?_
            rw [List.length_append]
            omega
        | false =>
            rw [if_neg (by decide), hlength hchunked]
            dsimp only
            rw [Decimal.text, Decimal.valueFrom_digits (Nat.lt_succ_self _)]
            exact Reader.take_append resp.body rest

/-- **An answer is read as it was meant**, and nothing of what follows is. -/
theorem readReply_responseBytes (h : resp.Framed) (isHead : Bool) (fuel : Nat) (rest : Bytes) :
    readReply isHead (fuel + 1) (responseBytes resp isHead ++ rest) = some (resp.reply isHead, rest) := by
  have hstatus := statusLine_eq resp
  have hcr : cr ∉ Http.statusLine resp := by
    have hfront : cr ∉ ascii "HTTP/1.1 " := by decide
    have hspace : cr ∉ [space] := by decide
    rw [Http.statusLine]
    simp only [List.mem_append, not_or]
    exact ⟨⟨⟨hfront, cr_notMem_of_isDigit fun b hb => Decimal.isDigit_of_mem_digits hb⟩, hspace⟩, h.text⟩
  have hcode := h.status
  rw [responseBytes, responseHead]
  simp only [List.append_assoc]
  generalize hbody : (if isHead then [] else if resp.chunked then sendHttpChunkedBody resp.body else resp.body) ++ rest = tail
  have hread := readBody_reply h isHead rest
  rw [hbody] at hread
  have hfields : fields (((responseHeaders resp).flatMap (fun f => headerLine f.1 f.2 ++ crlf) ++ (crlf ++ tail)).length + 1)
      ((responseHeaders resp).flatMap (fun f => headerLine f.1 f.2 ++ crlf) ++ (crlf ++ tail)) =
      some (responseHeaders resp, tail) := by
    refine fields_lines (headerFits_responseHeaders h) ?_ tail
    have hle := length_le_lines (fun f : Bytes × Bytes => headerLine f.1 f.2) (responseHeaders resp)
    rw [List.length_append]
    omega
  rw [readReply, cut_crlf hcr]
  dsimp only [Option.bind_eq_bind, Option.bind_some]
  rw [hstatus]
  dsimp only [Option.bind_some]
  rw [hfields]
  dsimp only [Option.bind_some]
  rw [if_neg (by omega), hread]
  rfl

/-- The go-ahead is passed over. -/
theorem readReply_continueText (isHead : Bool) (fuel : Nat) (rest : Bytes) :
    readReply isHead (fuel + 1) (continueText ++ rest) = readReply isHead fuel rest := by
  have hcr : cr ∉ ascii "HTTP/1.1 100 Continue" := by decide
  have hstatus : statusLine (ascii "HTTP/1.1 100 Continue") = some (100, ascii "Continue") := by decide +kernel
  have hfields : fields ((crlf ++ rest).length + 1) (crlf ++ rest) = some ([], rest) :=
    fields_lines (fun f hf => absurd hf List.not_mem_nil) (Nat.succ_pos _) rest
  rw [continueText, List.append_assoc, List.append_assoc, readReply, cut_crlf hcr]
  dsimp only [Option.bind_eq_bind, Option.bind_some]
  rw [hstatus]
  dsimp only [Option.bind_some]
  rw [hfields]
  rfl

end Client

/-! ## The answers that the handlers put together -/

/-- One header that is not about the framing. -/
theorem framed_header {r : HttpResponse} {key value : Bytes} (hheaders : r.headers = [(key, value)])
    (hcookies : r.setCookies = []) (hstatus : 200 ≤ r.statusCode) (hsome : r.statusCode ≠ 204 ∧ r.statusCode ≠ 304)
    (htext : cr ∉ r.statusText) (hkey : colon ∉ key ∧ cr ∉ key)
    (hother : lowerCopy key ≠ ascii "transfer-encoding" ∧ lowerCopy key ≠ ascii "content-length")
    (hvalue : cr ∉ value ∧ value.head? ≠ some space) : r.Framed where
  status := hstatus
  empty h := absurd h (not_or.mpr hsome)
  text := htext
  headers f hf := by
    rw [hheaders] at hf
    obtain rfl := List.mem_singleton.mp hf
    exact ⟨⟨hkey, hvalue.1, hvalue.2⟩, hother⟩
  cookies c hc := by
    rw [hcookies] at hc
    exact absurd hc List.not_mem_nil

theorem framed_ok {contentType : Bytes} (h : cr ∉ contentType ∧ contentType.head? ≠ some space) (body : Bytes) :
    (HttpResponse.ok body contentType).Framed :=
  framed_header rfl rfl (show 200 ≤ 200 by decide) (show 200 ≠ 204 ∧ 200 ≠ 304 by decide) (show cr ∉ ascii "OK" by decide)
    (show colon ∉ ascii "Content-Type" ∧ cr ∉ ascii "Content-Type" by decide) (by decide) h

theorem framed_json (body : Bytes) : (HttpResponse.json body).Framed := framed_ok (by decide) body

theorem framed_redirect {location : Bytes} (h : cr ∉ location ∧ location.head? ≠ some space) {code : Nat}
    (hcode : 200 ≤ code ∧ code ≠ 204 ∧ code ≠ 304) : (HttpResponse.redirect location code).Framed := by
  refine framed_header rfl rfl hcode.1 hcode.2 ?_ (show colon ∉ ascii "Location" ∧ cr ∉ ascii "Location" by decide)
    (by decide) h
  show cr ∉ if code = 301 then ascii "Moved Permanently" else ascii "Found"
  split
  · decide
  · decide

theorem framed_error {code : Nat} (hcode : 200 ≤ code ∧ code ≠ 204 ∧ code ≠ 304) {msg : Bytes} (hmsg : cr ∉ msg) :
    (HttpResponse.error code msg).Framed :=
  framed_header rfl rfl hcode.1 hcode.2 hmsg
    (show colon ∉ ascii "Content-Type" ∧ cr ∉ ascii "Content-Type" by decide) (by decide) (by decide)

/-- A cookie does no harm, wherever its parts come from. -/
theorem HttpResponse.Framed.setCookie {r : HttpResponse} (h : r.Framed) {name value path : Bytes} (hname : cr ∉ name ∧ name ≠ [] ∧
    name.head? ≠ some space) (hvalue : cr ∉ value) (hpath : cr ∉ path) (httpOnly : Bool) (maxAge : Nat) :
    (r.setCookie name value path httpOnly maxAge).Framed := by
  refine ⟨h.status, h.empty, h.text, h.headers, ?_⟩
  intro cookie hcookie
  rcases List.mem_append.mp hcookie with hcookie | hcookie
  · exact h.cookies cookie hcookie
  · obtain rfl := List.mem_singleton.mp hcookie
    obtain ⟨hcr, hne, hhead⟩ := hname
    have hpathText : cr ∉ ascii "; Path=" := by decide
    have hageText : cr ∉ ascii "; Max-Age=" := by decide
    have honlyText : cr ∉ ascii "; HttpOnly" := by decide
    have hage : cr ∉ Decimal.text maxAge := Client.cr_notMem_of_isDigit fun b hb => Decimal.isDigit_of_mem_digits hb
    have hequals : cr ≠ equals := by decide
    obtain ⟨b, name, rfl⟩ := List.exists_cons_of_ne_nil hne
    split
    · simp only [List.mem_append, List.mem_cons, not_or]
      rw [List.mem_cons, not_or] at hcr
      exact ⟨⟨⟨⟨⟨⟨⟨hcr, hequals, hvalue⟩, hpathText⟩, hpath⟩, hageText⟩, hage⟩, honlyText⟩, hhead⟩
    · simp only [List.mem_append, List.mem_cons, not_or]
      rw [List.mem_cons, not_or] at hcr
      exact ⟨⟨⟨⟨⟨⟨hcr, hequals, hvalue⟩, hpathText⟩, hpath⟩, hageText⟩, hage⟩, hhead⟩

end NCloud.Protocol.Http
