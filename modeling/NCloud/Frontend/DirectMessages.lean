import NCloud.Protocol.Forms
import NCloud.Frontend.DriveRequests
import NCloud.Frontend.Histories

/-!
# Direct messages

A thread is kept under the two names, the smaller one first, with a bar between them. Names
may have bars in them, and then two pairs of users can have the same thread.
-/

namespace NCloud.Frontend.DirectMessages

open Process Wire KeyValue Protocol.Forms Drive Histories

/-- `|`. -/
def bar : UInt8 := 124

def colon : UInt8 := 58

/-- `dm_canon_peer`. -/
def dmCanonPeer (a b : Bytes) : Bytes := if a < b then a ++ [bar] ++ b else b ++ [bar] ++ a

/-- `chat_dm_message_row`. -/
def chatDmMessageRow (canon id : Bytes) : Bytes := ascii "chat:dm:msg:" ++ canon ++ [colon] ++ id

/-- A column of a message. -/
def messageCell (canon id : Bytes) (col : String) : Cell := .other (chatDmMessageRow canon id) (ascii col)

/-- The column with the ids of a thread. -/
def threadCell (canon : Bytes) : Cell := .other (chatDmThreadRow canon) (ascii "ids")

/-- A message that is shown. -/
structure Message where
  id : Bytes
  sender : Bytes
  recipient : Bytes
  text : Bytes
  time : Bytes
  deriving DecidableEq

/-- The loop of `handle_chat_dm_messages`. -/
def loadMessages (canon : Bytes) : List Bytes → FeProg (List Message)
  | [] => return []
  | id :: ids => do
      let sender ← getStr (messageCell canon id "from")
      let recipient ← getStr (messageCell canon id "to")
      let text ← getStr (messageCell canon id "text")
      let time ← getStr (messageCell canon id "time")
      let msgs ← loadMessages canon ids
      return if sender = [] ∧ text = [] then msgs else ⟨id, sender, recipient, text, time⟩ :: msgs

/-- `handle_chat_dm_messages`. -/
def handleChatDmMessages (user peer : Bytes) : FeProg (Except String (List Message)) := do
  if peer = [] then return .error "peer required"
  else if peer = user then return .error "choose another user"
  else
    let canon := dmCanonPeer user peer
    let ids := splitCsv (← getStr (threadCell canon))
    return .ok (← loadMessages canon ids)

/-- A request to send a message: the user it comes from, its body, and what clock and counter say. -/
structure Send where
  user : Bytes
  body : Bytes
  ns : Nat
  seq : Nat
  time : Bytes

namespace Send

/-- Who it is for. -/
def peer (r : Send) : Bytes := field r.body "peer"

def text (r : Send) : Bytes := field r.body "text"

def id (r : Send) : Bytes := driveNewUid r.ns r.seq

/-- What is written for it. -/
def cells (r : Send) (canon : Bytes) : List (Cell × Bytes) :=
  [(messageCell canon r.id "from", r.user), (messageCell canon r.id "to", r.peer),
    (messageCell canon r.id "text", r.text), (messageCell canon r.id "time", r.time)]

/-- A request that is not turned away. -/
structure Accepted (r : Send) : Prop where
  peer_ne_nil : r.peer ≠ []
  peer_ne_user : r.peer ≠ r.user
  text_ne_nil : r.text ≠ []
  short : r.text.length ≤ 2000

end Send

/-- `handle_chat_dm_send`. -/
def handleChatDmSend (r : Send) : FeProg (Except String Message) := do
  if r.peer = [] then return .error "peer required"
  else if r.peer = r.user then return .error "choose another user"
  else if r.text = [] then return .error "message cannot be empty"
  else if r.text.length > 2000 then return .error "message too long"
  else
    let canon := dmCanonPeer r.user r.peer
    if !(← putAll (r.cells canon)) then return .error "failed to store message"
    else if !(← appendDmMessageId canon r.id) then return .error "failed to update conversation"
    else if !(← appendDmPeer r.user r.peer) then return .error "failed to update conversation"
    else if !(← appendDmPeer r.peer r.user) then return .error "failed to update conversation"
    else return .ok ⟨r.id, r.user, r.peer, r.text, r.time⟩

/-- Some of them, one after another, on a store whose operations succeed. -/
def sendAll (rs : List Send) (s : Store Cell Bytes) : Store Cell Bytes :=
  rs.foldl (fun s r => (run (handleChatDmSend r) s).2) s

/-! ## Names of threads -/

/-- The same two users. -/
def SamePair (a b c d : Bytes) : Prop := a = c ∧ b = d ∨ a = d ∧ b = c

/-- The smaller name. -/
def lower (a b : Bytes) : Bytes := if a < b then a else b

def upper (a b : Bytes) : Bytes := if a < b then b else a

/-- A bar in one of the names can be taken for the one between them: the smaller name of one
pair goes on with a bar, and the rest of it stands before a bar in the larger name of the
other pair. -/
def Overlap (a b c d : Bytes) : Prop :=
  ∃ m, lower c d = lower a b ++ [bar] ++ m ∧ upper a b = m ++ [bar] ++ upper c d ∨
    lower a b = lower c d ++ [bar] ++ m ∧ upper c d = m ++ [bar] ++ upper a b

variable {a b c d : Bytes}

theorem dmCanonPeer_eq (a b : Bytes) : dmCanonPeer a b = lower a b ++ [bar] ++ upper a b := by
  rw [dmCanonPeer, lower, upper]
  split
  · rfl
  · rfl

theorem lt_of_not_lt (hne : a ≠ b) (h : ¬ a < b) : b < a := by
  by_contra hba
  exact hne (List.le_antisymm (List.not_lt.mp hba) (List.not_lt.mp h))

theorem samePair_iff (hab : a ≠ b) (hcd : c ≠ d) :
    SamePair a b c d ↔ lower a b = lower c d ∧ upper a b = upper c d := by
  have hlt : ∀ {x y : Bytes}, x < y → ¬ y < x := fun h => List.lt_asymm h
  constructor
  · rintro (⟨rfl, rfl⟩ | ⟨rfl, rfl⟩)
    · exact ⟨rfl, rfl⟩
    · by_cases h : a < b
      · simp only [lower, upper, if_pos h, if_neg (hlt h), and_self]
      · simp only [lower, upper, if_neg h, if_pos (lt_of_not_lt hab h), and_self]
  · rintro ⟨hlower, hupper⟩
    rw [lower, lower] at hlower
    rw [upper, upper] at hupper
    by_cases h : a < b <;> by_cases h' : c < d <;> simp only [h, h', if_true, if_false] at hlower hupper
    · exact .inl ⟨hlower, hupper⟩
    · exact .inr ⟨hlower, hupper⟩
    · exact .inr ⟨hupper, hlower⟩
    · exact .inl ⟨hupper, hlower⟩

/-- Where two names of threads are the same. -/
theorem dmCanonPeer_eq_iff (hab : a ≠ b) (hcd : c ≠ d) :
    dmCanonPeer a b = dmCanonPeer c d ↔ SamePair a b c d ∨ Overlap a b c d := by
  rw [dmCanonPeer_eq, dmCanonPeer_eq, samePair_iff hab hcd, List.append_assoc, List.append_assoc]
  constructor
  · intro h
    rcases List.append_eq_append_iff.mp h with ⟨u, hu, hrest⟩ | ⟨u, hu, hrest⟩
    · cases u with
      | nil =>
          rw [List.append_nil] at hu
          exact .inl ⟨hu.symm, (List.cons.inj hrest).2⟩
      | cons x m =>
          obtain ⟨rfl, hupper⟩ := List.cons.inj hrest
          exact .inr ⟨m, .inl ⟨by rw [hu, List.append_assoc]; rfl, by rw [List.append_assoc]; exact hupper⟩⟩
    · cases u with
      | nil =>
          rw [List.append_nil] at hu
          exact .inl ⟨hu, (List.cons.inj hrest).2.symm⟩
      | cons x m =>
          obtain ⟨rfl, hupper⟩ := List.cons.inj hrest
          exact .inr ⟨m, .inr ⟨by rw [hu, List.append_assoc]; rfl, by rw [List.append_assoc]; exact hupper⟩⟩
  · rintro (⟨hlower, hupper⟩ | ⟨m, ⟨hlower, hupper⟩ | ⟨hlower, hupper⟩⟩)
    · rw [hlower, hupper]
    · rw [hlower, hupper]
      simp only [List.append_assoc]
    · rw [hlower, hupper]
      simp only [List.append_assoc]

/-- Pairs that overlap are different. -/
theorem not_samePair_of_overlap (hab : a ≠ b) (hcd : c ≠ d) (h : Overlap a b c d) : ¬ SamePair a b c d := by
  rw [samePair_iff hab hcd]
  rintro ⟨hlower, -⟩
  obtain ⟨m, ⟨hm, -⟩ | ⟨hm, -⟩⟩ := h
  · rw [hlower] at hm
    have hlen := congrArg List.length hm
    simp at hlen
  · rw [hlower] at hm
    have hlen := congrArg List.length hm
    simp at hlen

theorem threadRow_iff (hab : a ≠ b) (hcd : c ≠ d) :
    (chatDmThreadRow (dmCanonPeer a b) = chatDmThreadRow (dmCanonPeer c d) ↔ SamePair a b c d) ↔
      ¬ Overlap a b c d := by
  have hrow : chatDmThreadRow (dmCanonPeer a b) = chatDmThreadRow (dmCanonPeer c d) ↔
      dmCanonPeer a b = dmCanonPeer c d := ⟨List.append_cancel_left, congrArg _⟩
  rw [hrow, dmCanonPeer_eq_iff hab hcd]
  constructor
  · intro h hover
    exact not_samePair_of_overlap hab hcd hover (h.mp (.inr hover))
  · intro h
    exact ⟨fun hor => hor.resolve_right h, .inl⟩

/-! ## Cells -/

variable {canon canon' id id' : Bytes} {col col' : String} {s : Store Cell Bytes}

theorem other_ne {row row' col col' : Bytes} (h : col ≠ col') : Cell.other row col ≠ Cell.other row' col' :=
  fun heq => h (Cell.other.inj heq).2

theorem threadCell_inj (h : threadCell canon = threadCell canon') : canon = canon' :=
  List.append_cancel_left (Cell.other.inj h).1

/-- The last colon of a row is the one before the id. -/
theorem messageCell_inj (hid : colon ∉ id) (hid' : colon ∉ id')
    (h : messageCell canon id col = messageCell canon' id' col') : canon = canon' ∧ id = id' := by
  have hrow := (Cell.other.inj h).1
  rw [chatDmMessageRow, chatDmMessageRow] at hrow
  simp only [List.append_assoc] at hrow
  have htail := List.append_cancel_left hrow
  rcases List.append_eq_append_iff.mp htail with ⟨u, hu, hrest⟩ | ⟨u, hu, hrest⟩
  · cases u with
    | nil =>
        rw [List.append_nil] at hu
        exact ⟨hu.symm, (List.cons.inj hrest).2⟩
    | cons x u =>
        have hmem : id = u ++ colon :: id' := by simpa using (List.cons.inj hrest).2
        exact absurd (hmem ▸ List.mem_append_right u List.mem_cons_self) hid
  · cases u with
    | nil =>
        rw [List.append_nil] at hu
        exact ⟨hu, (List.cons.inj hrest).2.symm⟩
    | cons x u =>
        have hmem : id' = u ++ colon :: id := by simpa using (List.cons.inj hrest).2
        exact absurd (hmem ▸ List.mem_append_right u List.mem_cons_self) hid'

theorem colon_notMem_driveNewUid (ns seq : Nat) : colon ∉ driveNewUid ns seq := by
  have hdigit : ¬ Decimal.IsDigit colon := by decide
  have hunder : colon ∉ ascii "_" := by decide +kernel
  rw [driveNewUid, List.mem_append, List.mem_append, not_or, not_or]
  exact ⟨⟨fun hmem => hdigit (Decimal.isDigit_of_mem_digits hmem), hunder⟩,
    fun hmem => hdigit (Decimal.isDigit_of_mem_digits hmem)⟩

/-! ## Showing -/

/-- What is shown for an id. -/
def messageIn (s : Store Cell Bytes) (canon id : Bytes) : Option Message :=
  let sender := (s (messageCell canon id "from")).getD []
  let text := (s (messageCell canon id "text")).getD []
  if sender = [] ∧ text = [] then none
  else some ⟨id, sender, (s (messageCell canon id "to")).getD [], text, (s (messageCell canon id "time")).getD []⟩

theorem run_loadMessages (canon : Bytes) (ids : List Bytes) (s : Store Cell Bytes) :
    run (loadMessages canon ids) s = (ids.filterMap (messageIn s canon), s) := by
  induction ids with
  | nil => rfl
  | cons id ids ih =>
      have hload : run (loadMessages canon (id :: ids)) s =
          (if (s (messageCell canon id "from")).getD [] = [] ∧ (s (messageCell canon id "text")).getD [] = [] then
            ids.filterMap (messageIn s canon)
          else
            ⟨id, (s (messageCell canon id "from")).getD [], (s (messageCell canon id "to")).getD [],
              (s (messageCell canon id "text")).getD [], (s (messageCell canon id "time")).getD []⟩ ::
              ids.filterMap (messageIn s canon), s) := by
        rw [loadMessages, run_bind, run_getStr, run_bind, run_getStr, run_bind, run_getStr, run_bind, run_getStr,
          run_bind, ih]
        rfl
      rw [hload, List.filterMap_cons, messageIn]
      split
      · rfl
      · rfl

/-- **What a user is shown.** -/
theorem run_handleChatDmMessages {user peer : Bytes} (hne : peer ≠ []) (huser : peer ≠ user) (s : Store Cell Bytes) :
    (run (handleChatDmMessages user peer) s).1 =
      .ok ((items (s (threadCell (dmCanonPeer user peer)))).filterMap (messageIn s (dmCanonPeer user peer))) := by
  rw [handleChatDmMessages, if_neg hne, if_neg huser, run_bind, run_getStr, run_bind, run_loadMessages]
  rfl

/-! ## Sending -/

/-- The cells that a request may change. -/
def Touched (r : Send) (k : Cell) : Prop :=
  (∃ e ∈ r.cells (dmCanonPeer r.user r.peer), k = e.1) ∨ k = threadCell (dmCanonPeer r.user r.peer) ∨
    ∃ user, k = .other (chatDmRow user) (ascii "peers")

/-- How a request that is not turned away ends. -/
structure Sent (r : Send) (s s' : Store Cell Bytes) : Prop where
  sender : s' (messageCell (dmCanonPeer r.user r.peer) r.id "from") = some r.user
  recipient : s' (messageCell (dmCanonPeer r.user r.peer) r.id "to") = some r.peer
  text : s' (messageCell (dmCanonPeer r.user r.peer) r.id "text") = some r.text
  ids : items (s' (threadCell (dmCanonPeer r.user r.peer))) =
    push false 200 (items (s (threadCell (dmCanonPeer r.user r.peer)))) r.id
  others : ∀ k, ¬ Touched r k → s' k = s k

theorem ends_append_frame (k : Cell) (item : Bytes) (prepend : Bool) (maxItems : Nat) (s : Store Cell Bytes) :
    Ends (appendCsvItemCas k item prepend maxItems) (fun _ s' => ∀ k', k' ≠ k → s' k' = s k') s := by
  refine ends_onCells (P := fun k' => k' = k) ?_ s
  rw [appendCsvItemCas]
  split
  · trivial
  · exact only_appendCsvLoop_of trivial (fun _ => rfl) (fun _ => rfl) 16

/-- A list of peers is none of the other cells. -/
theorem Sent.appendDmPeer {r : Send} {s' : Store Cell Bytes} (h : Sent r s s') (user peer : Bytes) :
    Ends (appendDmPeer user peer) (fun _ => Sent r s) s' := by
  refine (ends_append_frame _ peer true 100 s').mono fun _ s'' hframe => ?_
  have hcol : ∀ {row : Bytes} {col : String}, ascii col ≠ ascii "peers" →
      s'' (.other row (ascii col)) = s' (.other row (ascii col)) := fun hne => hframe _ (other_ne hne)
  refine ⟨(hcol (by decide +kernel)).trans h.sender, (hcol (by decide +kernel)).trans h.recipient,
    (hcol (by decide +kernel)).trans h.text, ?_, fun k hk => ?_⟩
  · rw [threadCell, hcol (by decide +kernel)]
    exact h.ids
  · rw [hframe k fun heq => hk (.inr (.inr ⟨user, heq⟩))]
    exact h.others k hk

theorem written_of_ne {l : List (Cell × Bytes)} {k : Cell} (h : ∀ e ∈ l, k ≠ e.1) : written s l k = s k := by
  induction l generalizing s with
  | nil => rfl
  | cons e l ih =>
      rw [List.forall_mem_cons] at h
      exact (ih h.2).trans (Function.update_of_ne h.1 ..)

/-- The last write to a cell stays. -/
theorem written_of_mem {l : List (Cell × Bytes)} (hl : (l.map Prod.fst).Nodup) {e : Cell × Bytes} (he : e ∈ l) :
    written s l e.1 = some e.2 := by
  induction l generalizing s with
  | nil => exact absurd he List.not_mem_nil
  | cons d l ih =>
      obtain ⟨hd, hrest⟩ := List.nodup_cons.mp hl
      rcases List.mem_cons.mp he with rfl | he
      · show written (Function.update s e.1 (some e.2)) l e.1 = some e.2
        have hne : ∀ e' ∈ l, e.1 ≠ e'.1 := by
          intro e' he' heq
          rw [heq] at hd
          exact hd (List.mem_map_of_mem he')
        rw [written_of_ne hne, Function.update_self]
      · exact ih hrest he

theorem written_of_cells {r : Send} {e : Cell × Bytes} (h : e ∈ r.cells canon) :
    written s (r.cells canon) e.1 = some e.2 := by
  have hne : ∀ {col col' : String}, ascii col ≠ ascii col' →
      messageCell canon r.id col ≠ messageCell canon r.id col' := fun h => other_ne h
  refine written_of_mem ?_ h
  simp only [Send.cells, List.map_cons, List.map_nil, List.nodup_cons, List.mem_cons, List.not_mem_nil, or_false,
    not_or, not_false_eq_true, List.nodup_nil, and_true]
  exact ⟨⟨hne (by decide +kernel), hne (by decide +kernel), hne (by decide +kernel)⟩,
    ⟨hne (by decide +kernel), hne (by decide +kernel)⟩, hne (by decide +kernel)⟩

theorem col_of_mem_cells {r : Send} {e : Cell × Bytes} (h : e ∈ r.cells canon) :
    ∃ col, ascii "ids" ≠ ascii col ∧ e.1 = messageCell canon r.id col := by
  simp only [Send.cells, List.mem_cons, List.not_mem_nil, or_false] at h
  rcases h with rfl | rfl | rfl | rfl
  · exact ⟨"from", by decide +kernel, rfl⟩
  · exact ⟨"to", by decide +kernel, rfl⟩
  · exact ⟨"text", by decide +kernel, rfl⟩
  · exact ⟨"time", by decide +kernel, rfl⟩

/-- The message is written, and then its id. -/
theorem ends_appendDmMessageId (r : Send) (s : Store Cell Bytes) :
    Ends (appendDmMessageId (dmCanonPeer r.user r.peer) r.id) (fun _ => Sent r s)
      (written s (r.cells (dmCanonPeer r.user r.peer))) := by
  have hclean : CleanItem r.id := clean_driveNewUid r.ns r.seq
  have hpushed : Ends (appendDmMessageId (dmCanonPeer r.user r.peer) r.id)
      (Pushed (threadCell (dmCanonPeer r.user r.peer)) r.id false 200 (written s (r.cells (dmCanonPeer r.user r.peer))))
      (written s (r.cells (dmCanonPeer r.user r.peer))) :=
    pushed_appendCsvItemCas hclean (by decide)
  refine (hpushed.and (ends_append_frame (threadCell (dmCanonPeer r.user r.peer)) r.id false 200 _)).mono ?_
  rintro ok s' ⟨hpush, hframe⟩
  have hcol : ∀ {col : String}, ascii col ≠ ascii "ids" →
      s' (messageCell (dmCanonPeer r.user r.peer) r.id col) =
        written s (r.cells (dmCanonPeer r.user r.peer)) (messageCell (dmCanonPeer r.user r.peer) r.id col) :=
    fun hne => hframe _ (other_ne hne)
  have hids : written s (r.cells (dmCanonPeer r.user r.peer)) (threadCell (dmCanonPeer r.user r.peer)) =
      s (threadCell (dmCanonPeer r.user r.peer)) := written_of_ne fun e he => by
    obtain ⟨col, hcol, heq⟩ := col_of_mem_cells he
    rw [heq]
    exact other_ne hcol
  refine ⟨?_, ?_, ?_, ?_, fun k hk => ?_⟩
  · rw [hcol (by decide +kernel)]
    exact written_of_cells List.mem_cons_self
  · rw [hcol (by decide +kernel)]
    exact written_of_cells (List.mem_cons_of_mem _ List.mem_cons_self)
  · rw [hcol (by decide +kernel)]
    exact written_of_cells (List.mem_cons_of_mem _ (List.mem_cons_of_mem _ List.mem_cons_self))
  · rw [← hids]
    exact hpush.list
  · rw [hframe k fun heq => hk (.inr (.inl heq))]
    exact written_of_ne fun e he heq => hk (.inl ⟨e, he, heq⟩)

theorem ends_handleChatDmSend {r : Send} (h : r.Accepted) (s : Store Cell Bytes) :
    Ends (handleChatDmSend r) (fun _ => Sent r s) s := by
  have hlong : ¬ r.text.length > 2000 := Nat.not_lt.mpr h.short
  rw [handleChatDmSend, if_neg h.peer_ne_nil, if_neg h.peer_ne_user, if_neg h.text_ne_nil, if_neg hlong]
  refine Ends.bind ?_
  rw [Ends, run_putAll]
  show Ends (if !true then _ else _) _ _
  rw [if_neg (by decide)]
  refine Ends.bind ((ends_appendDmMessageId r s).mono fun ok s₁ h₁ => ?_)
  split
  · exact h₁
  · refine Ends.bind ((h₁.appendDmPeer r.user r.peer).mono fun ok s₂ h₂ => ?_)
    split
    · exact h₂
    · refine Ends.bind ((h₂.appendDmPeer r.peer r.user).mono fun ok s₃ h₃ => ?_)
      split
      · exact h₃
      · exact h₃

/-- A request that is turned away changes nothing. -/
theorem run_handleChatDmSend_of_not {r : Send} (h : ¬ r.Accepted) (s : Store Cell Bytes) :
    (run (handleChatDmSend r) s).2 = s := by
  rw [handleChatDmSend]
  split
  · rfl
  · split
    · rfl
    · split
      · rfl
      · split
        · rfl
        · rename_i h₁ h₂ h₃ h₄
          exact absurd ⟨h₁, h₂, h₃, Nat.not_lt.mp h₄⟩ h

/-! ## What is stored -/

/-- What is stored for an id of a thread: nothing, or a message between two users whose thread it is. -/
def Row (P : Bytes → Bytes → Prop) (s : Store Cell Bytes) (canon id : Bytes) : Prop :=
  s (messageCell canon id "from") = none ∧ s (messageCell canon id "to") = none ∧
      s (messageCell canon id "text") = none ∨
    ∃ sender recipient, s (messageCell canon id "from") = some sender ∧
      s (messageCell canon id "to") = some recipient ∧ P sender recipient ∧ dmCanonPeer sender recipient = canon

/-- All messages are between users that have sent one. -/
structure Stored (P : Bytes → Bytes → Prop) (s : Store Cell Bytes) : Prop where
  ids : ∀ canon, ∀ id ∈ items (s (threadCell canon)), colon ∉ id
  rows : ∀ canon id, colon ∉ id → Row P s canon id

variable {P : Bytes → Bytes → Prop}

theorem Sent.stored {r : Send} {s' : Store Cell Bytes} (hsent : Sent r s s') (h : Stored P s) (hP : P r.user r.peer) :
    Stored P s' := by
  have hid : colon ∉ r.id := colon_notMem_driveNewUid r.ns r.seq
  constructor
  · intro canon id hmem
    by_cases hcanon : canon = dmCanonPeer r.user r.peer
    · rw [hcanon, hsent.ids] at hmem
      rcases mem_of_mem_push hmem with rfl | hmem
      · exact hid
      · exact h.ids _ id hmem
    · rw [hsent.others] at hmem
      · exact h.ids _ id hmem
      · rintro (⟨e, he, hcell⟩ | hthread | ⟨user, huser⟩)
        · obtain ⟨col, hids, hcol⟩ := col_of_mem_cells he
          exact other_ne hids (hcell.trans hcol)
        · exact hcanon (threadCell_inj hthread)
        · exact absurd huser (other_ne (by decide +kernel))
  · intro canon id hcolon
    by_cases hrow : canon = dmCanonPeer r.user r.peer ∧ id = r.id
    · obtain ⟨rfl, rfl⟩ := hrow
      exact .inr ⟨_, _, hsent.sender, hsent.recipient, hP, rfl⟩
    · have hsame : ∀ col, ascii col ≠ ascii "ids" → ascii col ≠ ascii "peers" →
          s' (messageCell canon id col) = s (messageCell canon id col) := by
        intro col hids hpeers
        refine hsent.others _ ?_
        rintro (⟨e, he, hcell⟩ | hthread | ⟨user, huser⟩)
        · obtain ⟨col', -, hcol⟩ := col_of_mem_cells he
          exact hrow (messageCell_inj hcolon hid (hcell.trans hcol))
        · exact other_ne hids hthread
        · exact other_ne hpeers huser
      rw [Row, hsame _ (by decide +kernel) (by decide +kernel), hsame _ (by decide +kernel) (by decide +kernel),
        hsame _ (by decide +kernel) (by decide +kernel)]
      exact h.rows canon id hcolon

theorem Stored.mono {P' : Bytes → Bytes → Prop} (h : Stored P s) (hP : ∀ a b, P a b → P' a b) : Stored P' s where
  ids := h.ids
  rows canon id hid := (h.rows canon id hid).imp_right fun ⟨a, b, ha, hb, hab, hcanon⟩ =>
    ⟨a, b, ha, hb, hP a b hab, hcanon⟩

/-- Somebody has sent a message to somebody. -/
def SentBy (rs : List Send) (a b : Bytes) : Prop := ∃ r ∈ rs, r.Accepted ∧ r.user = a ∧ r.peer = b

theorem sendAll_concat (rs : List Send) (r : Send) (s : Store Cell Bytes) :
    sendAll (rs ++ [r]) s = (run (handleChatDmSend r) (sendAll rs s)).2 := by
  rw [sendAll, List.foldl_append]
  rfl

/-- **Whatever is sent**, beginning with an empty store. -/
theorem stored_sendAll (rs : List Send) : Stored (SentBy rs) (sendAll rs fun _ => none) := by
  induction rs using List.reverseRecOn with
  | nil => exact ⟨fun _ _ hmem => absurd hmem List.not_mem_nil, fun _ _ _ => .inl ⟨rfl, rfl, rfl⟩⟩
  | append_singleton rs r ih =>
      have hmono : Stored (SentBy (rs ++ [r])) (sendAll rs fun _ => none) :=
        ih.mono fun a b ⟨r', hr', h⟩ => ⟨r', List.mem_append_left _ hr', h⟩
      rw [sendAll_concat]
      by_cases hacc : r.Accepted
      · have hsent : Sent r (sendAll rs fun _ => none) (run (handleChatDmSend r) (sendAll rs fun _ => none)).2 :=
          ends_handleChatDmSend hacc _
        exact hsent.stored hmono ⟨r, List.mem_append_right _ (List.mem_singleton_self r), hacc, rfl, rfl⟩
      · rw [run_handleChatDmSend_of_not hacc]
        exact hmono

/-- What is shown was sent between two users whose thread it is. -/
theorem Stored.of_shown (h : Stored P s) {m : Message}
    (hm : m ∈ (items (s (threadCell canon))).filterMap (messageIn s canon)) :
    P m.sender m.recipient ∧ dmCanonPeer m.sender m.recipient = canon := by
  obtain ⟨id, hid, hshown⟩ := List.mem_filterMap.mp hm
  rw [messageIn] at hshown
  rcases h.rows canon id (h.ids canon id hid) with ⟨hfrom, -, htext⟩ | ⟨a, b, hfrom, hto, hab, hcanon⟩
  · rw [hfrom, htext, if_pos ⟨rfl, rfl⟩] at hshown
    exact absurd hshown nofun
  · split at hshown
    · exact absurd hshown nofun
    · rw [← Option.some.inj hshown, hfrom, hto]
      exact ⟨hab, hcanon⟩

/-- A message that was sent last is shown in its thread. -/
theorem Sent.shown {r : Send} {s' : Store Cell Bytes} (h : Sent r s s') (hacc : r.Accepted) :
    ∃ m ∈ (items (s' (threadCell (dmCanonPeer r.user r.peer)))).filterMap (messageIn s' (dmCanonPeer r.user r.peer)),
      m.sender = r.user ∧ m.recipient = r.peer := by
  refine ⟨⟨r.id, r.user, r.peer, r.text, (s' (messageCell (dmCanonPeer r.user r.peer) r.id "time")).getD []⟩, ?_, rfl, rfl⟩
  refine List.mem_filterMap.mpr ⟨r.id, ?_, ?_⟩
  · rw [h.ids]
    exact mem_push (by decide) _
  · rw [messageIn, h.sender, h.recipient, h.text, if_neg fun hempty => hacc.text_ne_nil hempty.2]
    rfl

/-! ## Who sees what -/

/-- **Whose messages a user sees.** -/
def OnlyBetween (user peer : Bytes) (s : Store Cell Bytes) : Prop :=
  ∀ msgs, (run (handleChatDmMessages user peer) s).1 = .ok msgs → ∀ m ∈ msgs, SamePair m.sender m.recipient user peer

theorem onlyBetween_sendAll {user peer : Bytes} (hne : peer ≠ []) (huser : peer ≠ user) {rs : List Send}
    (h : ∀ r ∈ rs, r.Accepted → ¬ Overlap r.user r.peer user peer) :
    OnlyBetween user peer (sendAll rs fun _ => none) := by
  intro msgs hmsgs m hm
  rw [run_handleChatDmMessages hne huser] at hmsgs
  rw [← Except.ok.inj hmsgs] at hm
  obtain ⟨⟨r, hr, hacc, hsender, hrecipient⟩, hcanon⟩ := (stored_sendAll rs).of_shown hm
  rw [← hsender, ← hrecipient] at hcanon ⊢
  exact ((dmCanonPeer_eq_iff hacc.peer_ne_user.symm huser.symm).mp hcanon).resolve_right (h r hr hacc)

/--
**When threads are private.**

Two pairs have different threads if and only if no bar in a name can be taken for the one
between the names. A user sees, after every message that is sent, only messages between the
user and the peer, if and only if no pair of users that has sent one overlaps with theirs.
-/
theorem thread_private {user peer : Bytes} (hne : peer ≠ []) (huser : peer ≠ user) (rs : List Send) :
    (∀ c d, c ≠ d → ((chatDmThreadRow (dmCanonPeer user peer) = chatDmThreadRow (dmCanonPeer c d) ↔
        SamePair user peer c d) ↔ ¬ Overlap user peer c d)) ∧
      ((∀ done, done <+: rs → OnlyBetween user peer (sendAll done fun _ => none)) ↔
        ∀ r ∈ rs, r.Accepted → ¬ Overlap r.user r.peer user peer) := by
  refine ⟨fun c d hcd => threadRow_iff huser.symm hcd, ?_, ?_⟩
  · intro h r hr hacc hover
    obtain ⟨before, after, rfl⟩ := List.append_of_mem hr
    have hpair := hacc.peer_ne_user.symm
    have hcanon := (dmCanonPeer_eq_iff hpair huser.symm).mpr (.inr hover)
    have hsent : Sent r (sendAll before fun _ => none) (sendAll (before ++ [r]) fun _ => none) := by
      rw [sendAll_concat]
      exact ends_handleChatDmSend hacc _
    obtain ⟨m, hm, hsender, hrecipient⟩ := hsent.shown hacc
    rw [hcanon] at hm
    have hbetween := h (before ++ [r]) ⟨after, by simp⟩ _ (run_handleChatDmMessages hne huser _) m hm
    rw [hsender, hrecipient] at hbetween
    exact not_samePair_of_overlap hpair huser.symm hover hbetween
  · intro h done hdone
    exact onlyBetween_sendAll hne huser fun r hr => h r (hdone.subset hr)

/-- A message between two users without a bar in their names. -/
theorem thread_private_plain : OnlyBetween (ascii "a") (ascii "b")
    (sendAll [⟨ascii "a", ascii "peer=b&text=t", 1, 0, ascii "now"⟩] fun _ => none) := by
  have hab : ascii "a" ≠ ascii "b" := by decide +kernel
  refine (thread_private (by decide +kernel) hab.symm [⟨ascii "a", ascii "peer=b&text=t", 1, 0, ascii "now"⟩]).2.mpr ?_ _
    (List.prefix_refl _)
  intro r hr _ hover
  obtain rfl := List.mem_singleton.mp hr
  have hpeer : field (ascii "peer=b&text=t") "peer" = ascii "b" := by decide +kernel
  have hover : Overlap (ascii "a") (ascii "b") (ascii "a") (ascii "b") := hpeer ▸ hover
  exact not_samePair_of_overlap hab hab hover (.inl ⟨rfl, rfl⟩)

/-- A message from `a|b` to `c` is one between `a` and `b|c`. -/
theorem not_thread_private_bars :
    (¬ ∀ a b c d : Bytes, a ≠ [] → b ≠ [] → c ≠ [] → d ≠ [] → a ≠ b → c ≠ d →
      (chatDmThreadRow (dmCanonPeer a b) = chatDmThreadRow (dmCanonPeer c d) ↔ SamePair a b c d)) ∧
    ¬ ∀ (user peer : Bytes) (rs : List Send), peer ≠ [] → peer ≠ user →
      OnlyBetween user peer (sendAll rs fun _ => none) := by
  have hpair : ¬ SamePair (ascii "a|b") (ascii "c") (ascii "a") (ascii "b|c") := by
    rw [SamePair]
    decide +kernel
  constructor
  · intro h
    refine hpair ((h (ascii "a|b") (ascii "c") (ascii "a") (ascii "b|c") ?_ ?_ ?_ ?_ ?_ ?_).mp ?_)
    all_goals decide +kernel
  · intro h
    have hne : ascii "b|c" ≠ [] := by decide +kernel
    have huser : ascii "b|c" ≠ ascii "a" := by decide +kernel
    refine hpair (h _ _ [⟨ascii "a|b", ascii "peer=c&text=t", 1, 0, ascii "now"⟩] hne huser _
      (run_handleChatDmMessages hne huser _) ⟨ascii "1_0", ascii "a|b", ascii "c", ascii "t", ascii "now"⟩ ?_)
    decide +kernel

end NCloud.Frontend.DirectMessages
