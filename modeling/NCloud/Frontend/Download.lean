import NCloud.Lib.Faults
import NCloud.Lib.Pieces
import NCloud.Frontend.DriveTree
import NCloud.Frontend.Mail
import Mathlib.Data.List.Infix

/-!
# Downloads

A file of the drive and an attachment of a message are stored in chunks, with their
number in a cell of its own. A download reads the number and then the chunks; `get_str`
makes an empty string of a read that is not answered.
-/

namespace NCloud.Frontend

open Process Wire KeyValue

/-! ## Answers -/

/-- `HttpResponse`, as far as downloads use it. -/
structure HttpResponse where
  statusCode : Nat
  contentType : Bytes
  disposition : Option Bytes
  chunked : Bool
  body : Bytes

namespace HttpResponse

/-- `HttpResponse::ok`. -/
def ok (body contentType : Bytes) : HttpResponse := ⟨200, contentType, none, false, body⟩

/-- `HttpResponse::error`. -/
def error (code : Nat) (msg : String) : HttpResponse where
  statusCode := code
  contentType := ascii "text/html; charset=utf-8"
  disposition := none
  chunked := false
  body := ascii "<html><body><h1>" ++ Decimal.text code ++ ascii " " ++ ascii msg ++ ascii "</h1></body></html>"

/-- `HttpResponse::not_found`. -/
def notFound : HttpResponse := error 404 "Not Found"

/-- A file name between quotes. -/
def escapeName : Bytes → Bytes
  | [] => []
  | c :: name =>
      if c = 13 ∨ c = 10 then escapeName name
      else if c < 0x20 ∨ c = 0x7F then 95 :: escapeName name
      else if c = 34 ∨ c = 92 then 92 :: c :: escapeName name
      else c :: escapeName name

/-- The header for a name, with another name if nothing is left of it. -/
def dispositionOf (fallback : String) (name : Bytes) : Bytes :=
  ascii "attachment; filename=\"" ++ (if escapeName name = [] then ascii fallback else escapeName name) ++ ascii "\""

/-- The header is only set for a name. -/
def named (resp : HttpResponse) (fallback : String) (name : Bytes) : HttpResponse :=
  if name = [] then resp else { resp with disposition := some (dispositionOf fallback name) }

theorem named_statusCode (resp : HttpResponse) (fallback : String) (name : Bytes) :
    (resp.named fallback name).statusCode = resp.statusCode := by
  unfold named
  split <;> rfl

theorem named_body (resp : HttpResponse) (fallback : String) (name : Bytes) :
    (resp.named fallback name).body = resp.body := by
  unfold named
  split <;> rfl

/-- What is served as complete is these data. -/
def Whole (data : Bytes) (resp : HttpResponse) : Prop := resp.statusCode = 200 → resp.body = data

end HttpResponse

/-! ## Chunks -/

/-- The loop of `get_file_bytes` and `get_attachment_bytes`. -/
def readAll (cell : Nat → Cell) : List Nat → FeProg Bytes
  | [] => return []
  | i :: rest => do
      let chunk ← getStr (cell i)
      return chunk ++ (← readAll cell rest)

/-- The number of chunks and then the chunks. -/
def readChunks (count : Cell) (cell : Nat → Cell) : FeProg Bytes := do
  match Decimal.stoul (← getStr count) with
  | none => return []
  | some chunks => readAll cell (List.range chunks)

namespace Drive

theorem getChunks_eq (uid : Bytes) (l : List Nat) : getChunks uid l = readAll (.chunk uid) l := by
  induction l with
  | nil => rfl
  | cons i l ih => rw [getChunks, readAll, ih]

/-- `handle_download`. -/
def handleDownload (user uid : Bytes) : FeProg HttpResponse := do
  let owner ← getStr (.owner uid)
  let type ← getStr (.type uid)
  if owner ≠ user ∨ type ≠ file then return .notFound
  let resp := { HttpResponse.ok (← getFileBytes uid) (ascii "application/octet-stream") with chunked := true }
  return resp.named "download" (← getStr (.name uid))

end Drive

namespace Mail

/-- A column of `attachment_row`. -/
def attachment (attId : Bytes) (col : Bytes) : Cell := .other (ascii "mail:att:" ++ attId) col

/-- `attachment_chunk_col`. -/
def attachmentChunk (attId : Bytes) (idx : Nat) : Cell := attachment attId (ascii "chunk:" ++ Decimal.text idx)

/-- `kMailAttachmentChunkSize`. -/
def mailAttachmentChunkSize : Nat := 1024 * 1024

/-- The loop of `put_attachment_bytes` from chunk `i` on. -/
def putAttachmentChunks (attId : Bytes) (i : Nat) : List Bytes → FeProg Bool
  | [] => return true
  | chunk :: rest => do
      if !(← put (attachmentChunk attId i) chunk) then return false
      putAttachmentChunks attId (i + 1) rest

/-- `put_attachment_bytes`. -/
def putAttachmentBytes (attId data : Bytes) : FeProg Bool := do
  if !(← put (attachment attId (ascii "chunks"))
    (Decimal.text (Pieces.count mailAttachmentChunkSize data.length))) then return false
  putAttachmentChunks attId 0 (Pieces.cut mailAttachmentChunkSize data)

/-- `get_attachment_bytes`. -/
def getAttachmentBytes (attId : Bytes) : FeProg Bytes :=
  readChunks (attachment attId (ascii "chunks")) (attachmentChunk attId)

/-- `meta_contains_attachment`. -/
def metaContainsAttachment (metaJson attId : Bytes) : Bool :=
  decide (ascii "\"id\":\"" ++ attId ++ ascii "\"" <:+: metaJson)

/-- `message_belongs_to_user_folder`, for one folder after another. -/
def belongsToAny (user uid : Bytes) : List Folder → FeProg Bool
  | [] => return false
  | f :: rest => do
      if ← uidInFolder user f uid then return true
      belongsToAny user uid rest

/-- Whether nothing was read of an attachment that is not empty. -/
def attachmentMissing (attId bytes : Bytes) : FeProg Bool := do
  if bytes ≠ [] then return false
  return decide ((← getStr (attachment attId (ascii "size"))) ≠ ascii "0")

/-- `handle_mail_download_attachment`. -/
def handleMailDownloadAttachment (user uid attId folderParam : Bytes) : FeProg HttpResponse := do
  if uid = [] ∨ attId = [] then return .error 400 "Bad Request"
  if !(← belongsToAny user uid [normalizeFolder folderParam, .inbox, .sent, .trash]) then
    return .error 404 "Not Found"
  let metaJson ← getStr (.msg user uid)
  if metaJson = [] ∨ metaContainsAttachment metaJson attId = false then return .error 404 "Not Found"
  let bytes ← getAttachmentBytes attId
  if ← attachmentMissing attId bytes then return .error 404 "Not Found"
  let resp := HttpResponse.ok bytes (← getStr (attachment attId (ascii "mime")))
  return resp.named "attachment" (← getStr (attachment attId (ascii "name")))

end Mail

/-! ## Stored data -/

section Chunks

variable {count : Cell} {cell : Nat → Cell} {data : Bytes} {s s' : Store Cell Bytes} {α : Type}

/-- The chunks of some data and their number are stored. -/
structure Kept (size : Nat) (count : Cell) (cell : Nat → Cell) (data : Bytes) (s : Store Cell Bytes) : Prop where
  count : s count = some (Decimal.text (Pieces.count size data.length))
  chunk : ∀ i, i < Pieces.count size data.length → s (cell i) = some ((data.drop (i * size)).take size)

/-- Chunks are written in a row, and a write that fails is the last. -/
theorem leads_putLoop {loop : Nat → List Bytes → FeProg Bool} {fail : Nat → FeProg Bool}
    (hnil : ∀ i, loop i [] = pure true)
    (hcons : ∀ i chunk rest, loop i (chunk :: rest) =
      put (cell i) chunk >>= fun ok => if !ok then fail i else loop (i + 1) rest)
    (hfail : ∀ i s, Leads Alone (fail i) (fun ok _ _ => ok = false) s) (hcell : Function.Injective cell)
    (i : Nat) (l : List Bytes) :
    Leads Alone (loop i l) (fun ok s' _ => ok = true →
      (∀ j (hj : j < l.length), s' (cell (i + j)) = some l[j]) ∧ ∀ k, (∀ j, i ≤ j → k ≠ cell j) → s' k = s k) s := by
  induction l generalizing i s with
  | nil =>
      rw [hnil]
      exact fun _ => ⟨fun j hj => absurd hj (Nat.not_lt_zero j), fun _ _ => rfl⟩
  | cons chunk l ih =>
      rw [hcons]
      refine leads_act ?_
      rintro io _ rfl
      show Leads Alone (if !decide (2 ≤ io) then _ else _) _ _
      by_cases hio : 2 ≤ io
      · rw [decide_eq_true hio]
        refine (ih (i + 1)).mono ?_
        intro ok s₂ _ h hok
        obtain ⟨hchunk, hframe⟩ := h hok
        have hself : (exec io s (.put (cell i) chunk : Act Cell Bytes Answer)).2 (cell i) = some chunk :=
          put_self (by omega)
        refine ⟨fun j hj => ?_, fun k hk => ?_⟩
        · cases j with
          | zero =>
              refine (hframe (cell i) (fun j' hj' heq => ?_)).trans hself
              have := hcell heq
              omega
          | succ j =>
              rw [show i + (j + 1) = i + 1 + j by omega]
              exact hchunk j (Nat.lt_of_succ_lt_succ hj)
        · rw [hframe k (fun j hj => hk j (by omega))]
          exact put_of_ne (hk i (Nat.le_refl i))
      · rw [decide_eq_false hio]
        refine (hfail i _).mono ?_
        intro ok _ _ h hok
        rw [h] at hok
        exact absurd hok Bool.false_ne_true

/-- A number of chunks and then the chunks. -/
theorem leads_putChunks (size : Nat) (loop : Nat → List Bytes → FeProg Bool) (fail : Nat → FeProg Bool)
    (count : Cell) (cell : Nat → Cell) (data : Bytes) (s : Store Cell Bytes)
    (hnil : ∀ i, loop i [] = pure true)
    (hcons : ∀ i chunk rest, loop i (chunk :: rest) =
      put (cell i) chunk >>= fun ok => if !ok then fail i else loop (i + 1) rest)
    (hfail : ∀ i s, Leads Alone (fail i) (fun ok _ _ => ok = false) s) (hcell : Function.Injective cell)
    (hcount : ∀ i, count ≠ cell i) :
    Leads Alone (put count (Decimal.text (Pieces.count size data.length)) >>= fun ok =>
        if !ok then pure false else loop 0 (Pieces.cut size data))
      (fun ok s' _ => ok = true → Kept size count cell data s' ∧
        ∀ k, k ≠ count → (∀ j, k ≠ cell j) → s' k = s k) s := by
  refine leads_act ?_
  rintro io _ rfl
  show Leads Alone (if !decide (2 ≤ io) then _ else _) _ _
  by_cases hio : 2 ≤ io
  · rw [decide_eq_true hio]
    refine (leads_putLoop hnil hcons hfail hcell 0 _).mono ?_
    intro ok s₂ _ h hok
    obtain ⟨hchunk, hframe⟩ := h hok
    refine ⟨⟨?_, fun i hi => ?_⟩, fun k hk hcells => ?_⟩
    · rw [hframe count (fun j _ => hcount j)]
      exact put_self (by omega)
    · have hi' : i < (Pieces.cut size data).length := by rwa [Pieces.length_cut]
      have h := hchunk i hi'
      rw [Nat.zero_add] at h
      rw [h]
      simp [Pieces.cut]
    · rw [hframe k (fun j _ => hcells j)]
      exact put_of_ne hk
  · rw [decide_eq_false hio]
    exact fun hok => absurd hok Bool.false_ne_true

/-! ## Reading -/

/-- What `get_str` makes of a read. -/
def heard (e : Event Cell Bytes Answer) : Bytes :=
  match e.act with
  | .get k => if e.io = 0 then [] else (e.store k).getD []
  | _ => []

/-- What is stored in the cell that is read. -/
def held (e : Event Cell Bytes Answer) : Bytes :=
  match e.act with
  | .get k => (e.store k).getD []
  | _ => []

/-- **The loop** reads the chunks one after another. -/
theorem leads_readAll (cell : Nat → Cell) (l : List Nat) (s : Store Cell Bytes) :
    Leads Alone (readAll cell l) (fun b s' evs => s = s' ∧ b = (evs.map heard).flatten ∧
      evs.map Event.act = l.map (fun i => Act.get (cell i)) ∧ ∀ e ∈ evs, e.store = s) s := by
  induction l with
  | nil => exact ⟨rfl, rfl, rfl, fun e he => absurd he List.not_mem_nil⟩
  | cons i l ih =>
      refine leads_getStr ?_
      rintro io _ rfl
      refine Leads.bind (ih.mono ?_)
      rintro b _ evs ⟨rfl, rfl, hacts, hstores⟩
      refine ⟨rfl, ?_, ?_, ?_⟩
      · show _ = ((⟨.get (cell i), io, s⟩ :: (evs ++ [])).map heard).flatten
        rw [List.append_nil]
        rfl
      · show (⟨.get (cell i), io, s⟩ :: (evs ++ [])).map Event.act = _
        rw [List.append_nil, List.map_cons, hacts]
        rfl
      · intro e he
        rcases List.mem_cons.mp he with rfl | he
        · rfl
        · rw [List.append_nil] at he
          exact hstores e he

/-- Reads of some cells. -/
def ReadOf (P : Cell → Prop) (e : Event Cell Bytes Answer) : Prop := ∃ k, P k ∧ e.act = .get k

/-- **What a reader makes of stored chunks**: all of them if every read is answered, and
too little otherwise. -/
structure Fetched (count : Cell) (cell : Nat → Cell) (data b : Bytes) (evs : List (Event Cell Bytes Answer)) :
    Prop where
  reads : ∀ e ∈ evs, ReadOf (fun k => k = count ∨ ∃ i, k = cell i) e
  whole : b = data ↔ data = [] ∨ ∀ e ∈ evs, e.io ≠ 0
  empty : b = [] ↔ data = [] ∨ ∀ e ∈ evs, ReadOf (fun k => ∃ i, k = cell i) e → e.io = 0

section Kept

variable {size : Nat} (hsize : 0 < size) (h : Kept size count cell data s)
include hsize

/-- The number of chunks is read back as it was written. -/
theorem stoul_chunkCount (hlen : data.length < 2 ^ 63) :
    Decimal.stoul (Decimal.text (Pieces.count size data.length)) = some (Pieces.count size data.length) := by
  refine Decimal.stoul_text ?_
  have hle : Pieces.count size data.length ≤ data.length := by
    by_contra hgt
    have hlt := (Pieces.count_bounds hsize data.length).2 data.length (by omega)
    have := Nat.le_mul_of_pos_right data.length hsize
    omega
  omega

include h

/-- The read of a chunk tells whether it was answered, because no chunk is empty. -/
theorem Kept.heard_iff {e : Event Cell Bytes Answer} (hstore : e.store = s) {i : Nat}
    (hi : i < Pieces.count size data.length) (hact : e.act = .get (cell i)) :
    held e ≠ [] ∧ (heard e = held e ↔ e.io ≠ 0) ∧ (heard e = [] ↔ e.io = 0) := by
  have hheld : held e = (data.drop (i * size)).take size := by
    rw [held, hact]
    show (e.store (cell i)).getD [] = _
    rw [hstore, h.chunk i hi]
    rfl
  have hne : held e ≠ [] := by
    rw [hheld]
    exact Pieces.ne_nil_of_mem_cut hsize (List.mem_map.mpr ⟨i, List.mem_range.mpr hi, rfl⟩)
  have hheard : heard e = if e.io = 0 then [] else held e := by
    rw [heard, held, hact]
  rw [hheard]
  by_cases hio : e.io = 0
  · rw [if_pos hio]
    exact ⟨hne, iff_of_false (Ne.symm hne) (not_not_intro hio), iff_of_true rfl hio⟩
  · rw [if_neg hio]
    exact ⟨hne, iff_of_true rfl hio, iff_of_false hne hio⟩

/-- The chunks together are the data. -/
theorem Kept.flatten_held {evs : List (Event Cell Bytes Answer)} (hstores : ∀ e ∈ evs, e.store = s)
    (hacts : evs.map Event.act = (List.range (Pieces.count size data.length)).map (fun i => Act.get (cell i))) :
    (evs.map held).flatten = data := by
  have hmap : evs.map held = (evs.map Event.act).map (fun a => match a with
      | .get k => (s k).getD []
      | _ => []) := by
    rw [List.map_map]
    refine List.map_congr_left (fun e he => ?_)
    rw [held, hstores e he]
    rfl
  have hcut : evs.map held = Pieces.cut size data := by
    rw [hmap, hacts, List.map_map, Pieces.cut]
    refine List.map_congr_left (fun i hi => ?_)
    show (s (cell i)).getD [] = _
    rw [h.chunk i (List.mem_range.mp hi)]
    rfl
  rw [hcut, Pieces.flatten_cut hsize]

theorem leads_readChunks (hlen : data.length < 2 ^ 63) (hcount : ∀ i, count ≠ cell i) :
    Leads Alone (readChunks count cell) (fun b s' evs => s = s' ∧ Fetched count cell data b evs) s := by
  refine leads_getStr ?_
  rintro io _ rfl
  by_cases hio : io = 0
  · -- without the number nothing more is read
    rw [if_pos hio]
    refine ⟨rfl, ?_, ?_, ?_⟩
    · intro e he
      obtain rfl := List.mem_singleton.mp he
      exact ⟨count, .inl rfl, rfl⟩
    · constructor
      · exact fun hb => .inl hb.symm
      · rintro (hd | hall)
        · exact hd.symm
        · exact absurd hio (hall _ List.mem_cons_self)
    · refine iff_of_true rfl (.inr (fun e he _ => ?_))
      obtain rfl := List.mem_singleton.mp he
      exact hio
  · have hfound : Decimal.stoul (if io = 0 then [] else (s count).getD []) = some (Pieces.count size data.length) := by
      rw [if_neg hio, h.count]
      exact stoul_chunkCount hsize hlen
    show Leads Alone (match Decimal.stoul (if io = 0 then [] else (s count).getD []) with
      | none => pure []
      | some chunks => readAll cell (List.range chunks)) _ s
    rw [hfound]
    refine (leads_readAll cell (List.range (Pieces.count size data.length)) s).mono ?_
    rintro b _ evs ⟨rfl, rfl, hacts, hstores⟩
    have hcells : ∀ e ∈ evs, ∃ i, i < Pieces.count size data.length ∧ e.act = .get (cell i) := by
      intro e he
      have hmem := List.mem_map_of_mem (f := Event.act) he
      rw [hacts] at hmem
      obtain ⟨i, hi, heq⟩ := List.mem_map.mp hmem
      exact ⟨i, List.mem_range.mp hi, heq.symm⟩
    have hheard : ∀ e ∈ evs, held e ≠ [] ∧ (heard e = held e ↔ e.io ≠ 0) ∧ (heard e = [] ↔ e.io = 0) := by
      intro e he
      obtain ⟨i, hi, hact⟩ := hcells e he
      exact h.heard_iff hsize (hstores e he) hi hact
    have hdata := h.flatten_held hsize hstores hacts
    have hnone : data = [] → evs = [] := by
      intro hd
      rw [hd] at hdata
      refine List.eq_nil_iff_forall_not_mem.mpr (fun e he => (hheard e he).1 ?_)
      exact List.flatten_eq_nil_iff.mp hdata _ (List.mem_map_of_mem he)
    refine ⟨rfl, ?_, ?_, ?_⟩
    · intro e he
      rcases List.mem_cons.mp he with rfl | he
      · exact ⟨count, .inl rfl, rfl⟩
      · obtain ⟨i, -, hact⟩ := hcells e he
        exact ⟨cell i, .inr ⟨i, rfl⟩, hact⟩
    · have hlossy : (evs.map heard).flatten = (evs.map held).flatten ↔ ∀ e ∈ evs, heard e = held e := by
        refine Pieces.flatten_lossy_eq_iff (fun e he => ?_) (fun e he => (hheard e he).1)
        by_cases h0 : e.io = 0
        · exact .inr ((hheard e he).2.2.mpr h0)
        · exact .inl ((hheard e he).2.1.mpr h0)
      rw [hdata] at hlossy
      rw [hlossy]
      constructor
      · intro hall
        refine .inr (fun e he => ?_)
        rcases List.mem_cons.mp he with rfl | he
        · exact hio
        · exact (hheard e he).2.1.mp (hall e he)
      · rintro (hd | hall)
        · rw [hnone hd]
          exact fun e he => absurd he List.not_mem_nil
        · exact fun e he => (hheard e he).2.1.mpr (hall e (List.mem_cons_of_mem _ he))
    · rw [List.flatten_eq_nil_iff, List.forall_mem_map]
      constructor
      · intro hall
        refine .inr (fun e he hread => ?_)
        rcases List.mem_cons.mp he with rfl | he
        · obtain ⟨k, ⟨i, rfl⟩, hk⟩ := hread
          exact absurd (Act.get.inj hk) (hcount i)
        · exact (hheard e he).2.2.mp (hall e he)
      · rintro (hd | hall)
        · rw [hnone hd]
          exact fun e he => absurd he List.not_mem_nil
        · intro e he
          obtain ⟨i, -, hact⟩ := hcells e he
          exact (hheard e he).2.2.mpr (hall e (List.mem_cons_of_mem _ he) ⟨cell i, ⟨i, rfl⟩, hact⟩)

end Kept

theorem not_readOf {P : Cell → Prop} {e : Event Cell Bytes Answer} {k : Cell} (hact : e.act = .get k) (hk : ¬ P k) :
    ¬ ReadOf P e := by
  rintro ⟨k', hk', hact'⟩
  rw [hact] at hact'
  obtain rfl := Act.get.inj hact'
  exact hk hk'

end Chunks

/-! ## Files -/

namespace Drive

variable {s : Store Cell Bytes} {user uid data : Bytes}

/-- The cells of a file that `put_file_chunks` writes. -/
def ChunkCell (uid : Bytes) (k : Cell) : Prop := k = .chunks uid ∨ ∃ i, k = .chunk uid i

theorem getFileBytes_eq (uid : Bytes) : getFileBytes uid = getStr (.bytes uid) >>= fun legacy =>
    if legacy ≠ [] then pure legacy else readChunks (.chunks uid) (.chunk uid) := by
  have hparts : getChunks uid = readAll (.chunk uid) := funext (getChunks_eq uid)
  rw [getFileBytes, hparts]
  rfl

/-- **`put_file_chunks`** that returns true has stored the data. -/
theorem leads_putFileChunks (uid data : Bytes) (s : Store Cell Bytes) :
    Leads Alone (putFileChunks uid data) (fun ok s' _ => ok = true → Kept mib (.chunks uid) (.chunk uid) data s' ∧
      ∀ k, ¬ ChunkCell uid k → s' k = s k) s := by
  have hloop := leads_putChunks mib (putChunks uid)
    (fun i => delAll ((List.range i).map (Cell.chunk uid)) >>= fun _ => del (.chunks uid) >>= fun _ => pure false)
    (.chunks uid) (Cell.chunk uid) data s
    (fun _ => rfl) (fun _ _ _ => rfl) ?_ (fun i j h => (Cell.chunk.inj h).2) (fun _ => by simp)
  · refine hloop.mono ?_
    intro ok s' _ h hok
    obtain ⟨hkept, hframe⟩ := h hok
    exact ⟨hkept, fun k hk => hframe k (fun heq => hk (.inl heq)) (fun i heq => hk (.inr ⟨i, heq⟩))⟩
  · intro i s
    refine Leads.bind (Leads.mono (Q := fun _ _ _ => True) ?_ ?_)
    · exact (leads_only (only_delChunks uid i)).mono (fun _ _ _ _ => trivial)
    · intro _ s₁ _ _
      exact fun _ _ _ => rfl

/-- **`handle_download`** of a stored file. -/
theorem leads_handleDownload (h : Kept mib (.chunks uid) (.chunk uid) data s) (hlegacy : s (.bytes uid) = none)
    (hlen : data.length < 2 ^ 63) :
    Leads Alone (handleDownload user uid) (fun resp _ evs =>
      resp.Whole data ↔ data = [] ∨ ∀ e ∈ evs, ReadOf (ChunkCell uid) e → e.io ≠ 0) s := by
  have hother : ∀ {k io}, ¬ ChunkCell uid k →
      ¬ ReadOf (ChunkCell uid) ⟨.get k, io, s⟩ := fun hk => not_readOf rfl hk
  refine leads_getStr ?_
  rintro io₁ _ rfl
  refine leads_getStr ?_
  rintro io₂ _ rfl
  have howner : ¬ ReadOf (ChunkCell uid) ⟨.get (.owner uid), io₁, s⟩ := hother (by simp [ChunkCell])
  have htype : ¬ ReadOf (ChunkCell uid) ⟨.get (.type uid), io₂, s⟩ := hother (by simp [ChunkCell])
  generalize (if io₁ = 0 then default else (s (.owner uid)).getD default) = owner
  generalize (if io₂ = 0 then default else (s (.type uid)).getD default) = type
  split
  · refine iff_of_true (fun hcode => ?_) (.inr (fun e he hread => ?_))
    · exact absurd hcode (by decide)
    · simp only [List.mem_cons, List.not_mem_nil, or_false] at he
      rcases he with rfl | rfl
      · exact absurd hread howner
      · exact absurd hread htype
  · rw [getFileBytes_eq]
    refine Leads.bind (leads_getStr ?_)
    rintro io₃ _ rfl
    have hlegacy' : (if io₃ = 0 then default else (s (.bytes uid)).getD default) = ([] : Bytes) := by
      rw [hlegacy]
      split <;> rfl
    rw [hlegacy', if_neg (not_not_intro rfl)]
    have hbytes : ¬ ReadOf (ChunkCell uid) ⟨.get (.bytes uid), io₃, s⟩ := hother (by simp [ChunkCell])
    refine (leads_readChunks (by decide) h hlen (fun _ => by simp)).mono ?_
    rintro b _ evs ⟨rfl, hfetched⟩
    refine leads_getStr ?_
    rintro io₄ _ rfl
    have hname : ¬ ReadOf (ChunkCell uid) ⟨.get (.name uid), io₄, s⟩ := hother (by simp [ChunkCell])
    show HttpResponse.Whole data (HttpResponse.named _ _ _) ↔ _
    rw [HttpResponse.Whole, HttpResponse.named_statusCode, HttpResponse.named_body]
    show ((200 : Nat) = 200 → b = data) ↔ _
    rw [forall_prop_of_true rfl, hfetched.whole]
    refine or_congr_right ⟨fun hall e he hread => ?_, fun hall e he => ?_⟩
    · simp only [List.mem_cons, List.mem_append, List.not_mem_nil, or_false] at he
      rcases he with rfl | rfl | (rfl | he) | rfl
      · exact absurd hread howner
      · exact absurd hread htype
      · exact absurd hread hbytes
      · exact hall e he
      · exact absurd hread hname
    · exact hall e (by simp [he]) (hfetched.reads e he)

end Drive

/-! ## Attachments -/

namespace Mail

variable {s : Store Cell Bytes} {user uid attId data : Bytes}

/-- The cells of an attachment that `put_attachment_bytes` writes. -/
def ChunkCell (attId : Bytes) (k : Cell) : Prop :=
  k = attachment attId (ascii "chunks") ∨ ∃ i, k = attachmentChunk attId i

theorem attachmentChunk_ne {col : Bytes} (h : col.take 6 ≠ ascii "chunk:") (i : Nat) :
    attachment attId col ≠ attachmentChunk attId i := by
  intro heq
  obtain ⟨-, hcol⟩ := Cell.other.inj heq
  refine h ?_
  rw [hcol]
  exact List.take_left' rfl

theorem attachmentChunk_injective (attId : Bytes) : Function.Injective (attachmentChunk attId) :=
  fun _ _ h => Decimal.text_injective (List.append_cancel_left (Cell.other.inj h).2)

theorem not_chunkCell {col : Bytes} (h : col.take 6 ≠ ascii "chunk:") (hcount : col ≠ ascii "chunks") :
    ¬ ChunkCell attId (attachment attId col) := by
  rintro (heq | ⟨i, heq⟩)
  · exact hcount (Cell.other.inj heq).2
  · exact attachmentChunk_ne h i heq

/-- **`put_attachment_bytes`** that returns true has stored the data. -/
theorem leads_putAttachmentBytes (attId data : Bytes) (s : Store Cell Bytes) :
    Leads Alone (putAttachmentBytes attId data) (fun ok s' _ => ok = true →
      Kept mailAttachmentChunkSize (attachment attId (ascii "chunks")) (attachmentChunk attId) data s') s := by
  have hloop := leads_putChunks mailAttachmentChunkSize (putAttachmentChunks attId) (fun _ => pure false)
    (attachment attId (ascii "chunks")) (attachmentChunk attId) data s (fun _ => rfl) (fun _ _ _ => rfl) (fun _ _ => rfl)
    (attachmentChunk_injective attId) (attachmentChunk_ne (by decide))
  exact hloop.mono (fun ok s' _ h hok => (h hok).1)

/-- The lists of a user. -/
def ListCell (user : Bytes) (k : Cell) : Prop := k = .index user ∨ ∃ f, k = .folder user f

theorem only_belongsToAny (user uid : Bytes) (fs : List Folder) :
    (belongsToAny user uid fs).Only (Gets (ListCell user)) (fun _ => True) := by
  induction fs with
  | nil => trivial
  | cons f fs ih =>
      rw [belongsToAny]
      refine Prog.Only.bind (Prog.Only.bind ?_ (fun _ => trivial)) (fun b => ?_)
      · refine Prog.Only.bind (only_gets_getStr (.inr ⟨f, rfl⟩)) (fun val => ?_)
        split
        · exact only_gets_getStr (.inl rfl)
        · trivial
      · split
        · trivial
        · exact ih

/-- An attachment is served whole exactly if: its data are empty, or all reads of its
chunks are answered, or none and its size is not read as 0. -/
def Served (attId data : Bytes) (evs : List (Event Cell Bytes Answer)) : Prop :=
  data = [] ∨ (∀ e ∈ evs, ReadOf (ChunkCell attId) e → e.io ≠ 0) ∨
    ((∀ e ∈ evs, ReadOf (fun k => ∃ i, k = attachmentChunk attId i) e → e.io = 0) ∧
      ∀ e ∈ evs, e.act = .get (attachment attId (ascii "size")) → heard e ≠ ascii "0")

/-- Where no chunk is read nothing is wrong. -/
theorem served_of_unread {evs : List (Event Cell Bytes Answer)} (h : ∀ e ∈ evs, ¬ ReadOf (ChunkCell attId) e) :
    Served attId data evs :=
  .inr (.inl (fun e he hread => absurd hread (h e he)))

theorem readOf_chunkCell {e : Event Cell Bytes Answer} (h : ReadOf (fun k => ∃ i, k = attachmentChunk attId i) e) :
    ReadOf (ChunkCell attId) e := by
  obtain ⟨k, hk, hact⟩ := h
  exact ⟨k, .inr hk, hact⟩

/-- What has been read of the chunks decides, whatever else is read before and after. -/
theorem Fetched.served {b : Bytes} {before evs after : List (Event Cell Bytes Answer)}
    (h : Fetched (attachment attId (ascii "chunks")) (attachmentChunk attId) data b evs)
    (hbefore : ∀ e ∈ before, ¬ ReadOf (ChunkCell attId) e) (hafter : ∀ e ∈ after, ¬ ReadOf (ChunkCell attId) e)
    (hsize : ∀ e ∈ before, e.act ≠ .get (attachment attId (ascii "size"))) :
    Served attId data (before ++ (evs ++ after)) ↔ b = data ∨ (b = [] ∧
      ∀ e ∈ after, e.act = .get (attachment attId (ascii "size")) → heard e ≠ ascii "0") := by
  have hmem : ∀ e ∈ before ++ (evs ++ after), ReadOf (ChunkCell attId) e → e ∈ evs := by
    intro e he hread
    rcases List.mem_append.mp he with he | he
    · exact absurd hread (hbefore e he)
    · rcases List.mem_append.mp he with he | he
      · exact he
      · exact absurd hread (hafter e he)
  have hin : ∀ e ∈ evs, e ∈ before ++ (evs ++ after) := fun e he => by simp [he]
  have hnosize : ∀ e ∈ evs, e.act ≠ .get (attachment attId (ascii "size")) := by
    intro e he hact
    obtain ⟨k, hk, hact'⟩ := h.reads e he
    rw [hact] at hact'
    obtain rfl := Act.get.inj hact'
    exact not_chunkCell (by decide) (by decide) hk
  constructor
  · rintro (hd | hall | ⟨hnone, hread⟩)
    · exact .inl (h.whole.mpr (.inl hd))
    · exact .inl (h.whole.mpr (.inr (fun e he => hall e (hin e he) (h.reads e he))))
    · refine .inr ⟨h.empty.mpr (.inr (fun e he => hnone e (hin e he))), fun e he => hread e ?_⟩
      simp [he]
  · rintro (hb | ⟨hb, hread⟩)
    · rcases h.whole.mp hb with hd | hall
      · exact .inl hd
      · exact .inr (.inl (fun e he hr => hall e (hmem e he hr)))
    · rcases h.empty.mp hb with hd | hnone
      · exact .inl hd
      · refine .inr (.inr ⟨fun e he hr => hnone e (hmem e he (readOf_chunkCell hr)) hr, fun e he hact => ?_⟩)
        rcases List.mem_append.mp he with he | he
        · exact absurd hact (hsize e he)
        · rcases List.mem_append.mp he with he | he
          · exact absurd hact (hnosize e he)
          · exact hread e he hact

/-- What is done with the bytes that have been read. -/
theorem leads_serve (attId b data : Bytes) (s : Store Cell Bytes) :
    Leads Alone (attachmentMissing attId b >>= fun missing =>
        if missing = true then pure (HttpResponse.error 404 "Not Found")
        else getStr (attachment attId (ascii "mime")) >>= fun mime =>
          getStr (attachment attId (ascii "name")) >>= fun name =>
            pure ((HttpResponse.ok b mime).named "attachment" name))
      (fun resp _ after => (∀ e ∈ after, ¬ ReadOf (ChunkCell attId) e) ∧ (resp.Whole data ↔ b = data ∨ (b = [] ∧
        ∀ e ∈ after, e.act = .get (attachment attId (ascii "size")) → heard e ≠ ascii "0"))) s := by
  have hsilent : ∀ {col : Bytes} {io : Nat}, col.take 6 ≠ ascii "chunk:" → col ≠ ascii "chunks" →
      ¬ ReadOf (ChunkCell attId) ⟨.get (attachment attId col), io, s⟩ :=
    fun h hcount => not_readOf rfl (not_chunkCell h hcount)
  have hrest : Leads Alone (getStr (attachment attId (ascii "mime")) >>= fun mime =>
      getStr (attachment attId (ascii "name")) >>= fun name =>
        pure ((HttpResponse.ok b mime).named "attachment" name))
      (fun resp _ evs => (∀ e ∈ evs, ¬ ReadOf (ChunkCell attId) e) ∧ (resp.Whole data ↔ b = data)) s := by
    refine leads_getStr ?_
    rintro io₁ _ rfl
    refine leads_getStr ?_
    rintro io₂ _ rfl
    refine ⟨fun e he => ?_, ?_⟩
    · simp only [List.mem_cons, List.not_mem_nil, or_false] at he
      rcases he with rfl | rfl
      · exact hsilent (by decide) (by decide)
      · exact hsilent (by decide) (by decide)
    · rw [HttpResponse.Whole, HttpResponse.named_statusCode, HttpResponse.named_body]
      exact forall_prop_of_true rfl
  rw [attachmentMissing]
  by_cases hb : b = []
  · rw [if_neg (not_not_intro hb)]
    refine Leads.bind (leads_getStr ?_)
    rintro io _ rfl
    have hsize : ¬ ReadOf (ChunkCell attId) ⟨.get (attachment attId (ascii "size")), io, s⟩ :=
      hsilent (by decide) (by decide)
    have hheard : heard ⟨.get (attachment attId (ascii "size")), io, s⟩ =
        if io = 0 then [] else (s (attachment attId (ascii "size"))).getD [] := rfl
    show Leads Alone (if decide ((if io = 0 then [] else (s (attachment attId (ascii "size"))).getD []) ≠ ascii "0") = true
      then _ else _) _ s
    rw [← hheard]
    split
    · rename_i hmissing
      refine ⟨fun e he => ?_, iff_of_true (fun hcode => absurd hcode (by decide)) (.inr ⟨hb, fun e he _ => ?_⟩)⟩
      · obtain rfl := List.mem_singleton.mp he
        exact hsize
      · obtain rfl := List.mem_singleton.mp he
        exact of_decide_eq_true hmissing
    · rename_i hzero
      refine hrest.mono ?_
      rintro resp _ evs ⟨hevs, hwhole⟩
      refine ⟨fun e he => ?_, ?_⟩
      · rcases List.mem_cons.mp he with rfl | he
        · exact hsize
        · exact hevs e he
      · rw [hwhole]
        refine (or_iff_left (fun hread => ?_)).symm
        exact hzero (decide_eq_true (hread.2 _ List.mem_cons_self rfl))
  · rw [if_pos hb]
    refine hrest.mono ?_
    rintro resp _ evs ⟨hevs, hwhole⟩
    refine ⟨hevs, ?_⟩
    rw [hwhole]
    exact (or_iff_left (fun hread => hb hread.1)).symm

/-- **`handle_mail_download_attachment`** of a stored attachment. -/
theorem leads_handleMailDownloadAttachment
    (h : Kept mailAttachmentChunkSize (attachment attId (ascii "chunks")) (attachmentChunk attId) data s)
    (hlen : data.length < 2 ^ 63) (folderParam : Bytes) :
    Leads Alone (handleMailDownloadAttachment user uid attId folderParam)
      (fun resp _ evs => resp.Whole data ↔ Served attId data evs) s := by
  have hsilent : ∀ {k : Cell} {io : Nat}, ¬ ChunkCell attId k → ¬ ReadOf (ChunkCell attId) ⟨.get k, io, s⟩ :=
    fun hk => not_readOf rfl hk
  rw [handleMailDownloadAttachment]
  split
  · exact iff_of_true (fun hcode => absurd hcode (by decide)) (served_of_unread (fun e he => absurd he List.not_mem_nil))
  · refine Leads.bind ((leads_gets (only_belongsToAny user uid _)).mono ?_)
    rintro belongs _ evs₁ ⟨rfl, hgets⟩
    have hlists : ∀ e ∈ evs₁, ∃ k, ListCell user k ∧ e.act = .get k := by
      intro e he
      have hget := hgets e he
      cases hact : e.act with
      | get k =>
          rw [hact] at hget
          exact ⟨k, hget, rfl⟩
      | _ =>
          rw [hact] at hget
          exact hget.elim
    have hunread : ∀ e ∈ evs₁, ¬ ReadOf (ChunkCell attId) e := by
      intro e he
      obtain ⟨k, hk, hact⟩ := hlists e he
      refine not_readOf hact ?_
      rcases hk with rfl | ⟨f, rfl⟩ <;> simp [ChunkCell, attachment, attachmentChunk]
    have hnosize : ∀ e ∈ evs₁, e.act ≠ .get (attachment attId (ascii "size")) := by
      intro e he
      obtain ⟨k, hk, hact⟩ := hlists e he
      rw [hact]
      rcases hk with rfl | ⟨f, rfl⟩ <;> simp [attachment]
    cases belongs with
    | false =>
        refine iff_of_true (fun hcode => absurd hcode (by decide)) (served_of_unread (fun e he => hunread e ?_))
        simpa using he
    | true =>
        refine leads_getStr ?_
        rintro io _ rfl
        have hmsg : ¬ ReadOf (ChunkCell attId) ⟨.get (.msg user uid), io, s⟩ :=
          hsilent (by simp [ChunkCell, attachment, attachmentChunk])
        have hbefore : ∀ e ∈ evs₁ ++ [⟨.get (.msg user uid), io, s⟩], ¬ ReadOf (ChunkCell attId) e := by
          intro e he
          rcases List.mem_append.mp he with he | he
          · exact hunread e he
          · obtain rfl := List.mem_singleton.mp he
            exact hmsg
        have hbeforeSize : ∀ e ∈ evs₁ ++ [⟨.get (.msg user uid), io, s⟩],
            e.act ≠ .get (attachment attId (ascii "size")) := by
          intro e he
          rcases List.mem_append.mp he with he | he
          · exact hnosize e he
          · obtain rfl := List.mem_singleton.mp he
            simp [attachment]
        generalize (if io = 0 then default else (s (.msg user uid)).getD default) = metaJson
        split
        · exact iff_of_true (fun hcode => absurd hcode (by decide)) (served_of_unread hbefore)
        · refine Leads.bind ((leads_readChunks (by decide) h hlen (attachmentChunk_ne (by decide))).mono ?_)
          rintro b _ evs₂ ⟨rfl, hfetched⟩
          refine (leads_serve attId b data s).mono ?_
          rintro resp _ after ⟨hafter, hwhole⟩
          rw [hwhole, ← Fetched.served hfetched hbefore hafter hbeforeSize, List.append_assoc]
          rfl

end Mail

/-! ## Stored and downloaded -/

/-- The store when the chunks of a file have been written. -/
def afterPut (uid data : Bytes) (puts : List Nat) (s : Store Cell Bytes) : Played Cell Bytes Answer Bool :=
  play (Drive.putFileChunks uid data) (puts.map .alone) s

/-- The store when the chunks of an attachment have been written. -/
def afterPutAttachment (attId data : Bytes) (puts : List Nat) (s : Store Cell Bytes) :
    Played Cell Bytes Answer Bool :=
  play (Mail.putAttachmentBytes attId data) (puts.map .alone) s

/-- A run of `handle_download`. -/
def download (user uid : Bytes) (outcomes : List Nat) (s : Store Cell Bytes) :
    Played Cell Bytes Answer HttpResponse :=
  play (Drive.handleDownload user uid) (outcomes.map .alone) s

/-- A run of `handle_mail_download_attachment`. -/
def downloadAttachment (user uid attId folderParam : Bytes) (outcomes : List Nat) (s : Store Cell Bytes) :
    Played Cell Bytes Answer HttpResponse :=
  play (Mail.handleMailDownloadAttachment user uid attId folderParam) (outcomes.map .alone) s

/-- **When a download is whole.** A file that was stored under a new uid by a
`put_file_chunks` that returned true, and is there unchanged, is served whole exactly if
it is empty or the reads of its chunks are answered; for an attachment see `Served`. -/
theorem whole_download_iff (s₀ s : Store Cell Bytes) (user uid attId folderParam data : Bytes)
    (puts outcomes : List Nat) (hlen : data.length < 2 ^ 63) :
    (s₀ (.bytes uid) = none → (afterPut uid data puts s₀).value = true →
      (∀ k, Drive.Contents uid k → s k = (afterPut uid data puts s₀).store k) →
      ((download user uid outcomes s).value.Whole data ↔
        data = [] ∨ ∀ e ∈ (download user uid outcomes s).events, ReadOf (Drive.ChunkCell uid) e → e.io ≠ 0)) ∧
    ((afterPutAttachment attId data puts s₀).value = true →
      (∀ k, Mail.ChunkCell attId k → s k = (afterPutAttachment attId data puts s₀).store k) →
      ((downloadAttachment user uid attId folderParam outcomes s).value.Whole data ↔
        Mail.Served attId data (downloadAttachment user uid attId folderParam outcomes s).events)) := by
  constructor
  · intro hnew hput hsame
    obtain ⟨hkept, hframe⟩ := (Drive.leads_putFileChunks uid data s₀).play_alone puts hput
    have hkept' : Kept Drive.mib (.chunks uid) (.chunk uid) data s :=
      ⟨(hsame (.chunks uid) rfl).trans hkept.count, fun i hi => (hsame (.chunk uid i) rfl).trans (hkept.chunk i hi)⟩
    have hlegacy : s (.bytes uid) = none :=
      (hsame (.bytes uid) rfl).trans ((hframe (.bytes uid) (by simp [Drive.ChunkCell])).trans hnew)
    exact (Drive.leads_handleDownload hkept' hlegacy hlen).play_alone outcomes
  · intro hput hsame
    have hkept := (Mail.leads_putAttachmentBytes attId data s₀).play_alone puts hput
    have hkept' : Kept Mail.mailAttachmentChunkSize (Mail.attachment attId (ascii "chunks"))
        (Mail.attachmentChunk attId) data s :=
      ⟨(hsame _ (.inl rfl)).trans hkept.count, fun i hi => (hsame _ (.inr ⟨i, rfl⟩)).trans (hkept.chunk i hi)⟩
    exact (Mail.leads_handleMailDownloadAttachment hkept' hlen folderParam).play_alone outcomes

/-- A file of one byte in an otherwise empty drive. -/
def oneByte : Store Cell Bytes
  | .owner _ => some (ascii "bob")
  | .type _ => some Drive.file
  | k => (afterPut (ascii "f") [7] [] (fun _ => none)).store k

/-- A message with an attachment of one byte. -/
def oneByteAttached : Store Cell Bytes
  | .folder _ _ => some (ascii "m")
  | .msg _ _ => some (ascii "\"id\":\"f\"")
  | k =>
      if k = Mail.attachment (ascii "f") (ascii "size") then some (ascii "1")
      else (afterPutAttachment (ascii "f") [7] [] (fun _ => none)).store k

theorem whole_download_iff_oneByte :
    (download (ascii "bob") (ascii "f") [] oneByte).value.Whole [7] ∧
      (downloadAttachment (ascii "bob") (ascii "m") (ascii "f") [] [] oneByteAttached).value.Whole [7] := by
  constructor
  · refine ((whole_download_iff (fun _ => none) oneByte (ascii "bob") (ascii "f") (ascii "f") [] [7] [] []
      (by decide)).1 rfl (by decide +kernel) (fun k hk => ?_)).mpr (.inr (fun e he _ => ?_))
    · cases k with
      | owner _ => exact hk.elim
      | type _ => exact hk.elim
      | _ => rfl
    · have hall : ∀ e ∈ (download (ascii "bob") (ascii "f") [] oneByte).events, e.io ≠ 0 := by decide +kernel
      exact hall e he
  · refine ((whole_download_iff (fun _ => none) oneByteAttached (ascii "bob") (ascii "m") (ascii "f") [] [7] [] []
      (by decide)).2 (by decide +kernel) (fun k hk => ?_)).mpr (.inr (.inl (fun e he _ => ?_)))
    · have hsize : k ≠ Mail.attachment (ascii "f") (ascii "size") := by
        rintro rfl
        exact Mail.not_chunkCell (by decide) (by decide) hk
      have hcell : oneByteAttached k = if k = Mail.attachment (ascii "f") (ascii "size") then some (ascii "1")
          else (afterPutAttachment (ascii "f") [7] [] (fun _ => none)).store k := by
        rcases hk with rfl | ⟨i, rfl⟩ <;> rfl
      rw [hcell, if_neg hsize]
    · have hall : ∀ e ∈ (downloadAttachment (ascii "bob") (ascii "m") (ascii "f") [] [] oneByteAttached).events,
          e.io ≠ 0 := by
        decide +kernel
      exact hall e he

/-- **A chunk that cannot be read.** The fifth read of the request, that of the only
chunk, is unavailable, and an empty file is served. -/
theorem not_whole_lostChunk : (afterPut (ascii "f") [7] [] (fun _ => none)).value = true ∧
    (∀ k, Drive.Contents (ascii "f") k → oneByte k = (afterPut (ascii "f") [7] [] (fun _ => none)).store k) ∧
    ¬ (download (ascii "bob") (ascii "f") [2, 2, 2, 2, 0] oneByte).value.Whole [7] := by
  refine ⟨by decide +kernel, fun k hk => ?_, ?_⟩
  · cases k with
    | owner _ => exact hk.elim
    | type _ => exact hk.elim
    | _ => rfl
  · have hcode : (download (ascii "bob") (ascii "f") [2, 2, 2, 2, 0] oneByte).value.statusCode = 200 := by
      decide +kernel
    have hbody : (download (ascii "bob") (ascii "f") [2, 2, 2, 2, 0] oneByte).value.body ≠ [7] := by
      decide +kernel
    exact fun hwhole => hbody (hwhole hcode)

end NCloud.Frontend
