import NCloud.Lib.Recent
import NCloud.Frontend.Cells

/-!
# Lists that forget

What `append_csv_item_cas` makes of a list when the calls come one after another: the ids of
the last messages of a room or a thread, and the peers of a user with the last one in
front. A comma in an item comes back as two items.
-/

namespace NCloud.Frontend.Histories

open Process Wire KeyValue Recent

/-- `chat_room_row`. -/
def chatRoomRow (room : Bytes) : Bytes := ascii "chat:room:" ++ room

/-- `chat_dm_row`. -/
def chatDmRow (user : Bytes) : Bytes := ascii "chat:dm:user:" ++ user

/-- `chat_dm_thread_row`. -/
def chatDmThreadRow (canon : Bytes) : Bytes := ascii "chat:dm:thread:" ++ canon

/-- `append_chat_message_id`. -/
def appendChatMessageId (room id : Bytes) : FeProg Bool :=
  appendCsvItemCas (.other (chatRoomRow room) (ascii "ids")) id false 200

/-- `append_dm_peer`. -/
def appendDmPeer (user peer : Bytes) : FeProg Bool :=
  appendCsvItemCas (.other (chatDmRow user) (ascii "peers")) peer true 100

/-- `append_dm_message_id`. -/
def appendDmMessageId (canon id : Bytes) : FeProg Bool :=
  appendCsvItemCas (.other (chatDmThreadRow canon) (ascii "ids")) id false 200

/-! ## One call -/

variable {k k' : Cell} {item : Bytes} {prepend : Bool} {maxItems : Nat} {s : Store Cell Bytes}

/-- What one more item makes of a list. -/
def push (prepend : Bool) (maxItems : Nat) (l : List Bytes) (item : Bytes) : List Bytes :=
  if prepend then (item :: l.erase item).take maxItems else keep maxItems l item

theorem cutItems_true (hmax : 0 < maxItems) (l : List Bytes) : cutItems true maxItems l = l.take maxItems := by
  rw [cutItems]
  split
  · rfl
  · exact (List.take_of_length_le (by omega)).symm

theorem cutItems_false (hmax : 0 < maxItems) (l : List Bytes) : cutItems false maxItems l = l.rtake maxItems := by
  rw [cutItems, List.rtake]
  split
  · rfl
  · have hzero : l.length - maxItems = 0 := by omega
    rw [hzero, List.drop_zero]

/-- The list that is written. -/
theorem cutItems_placeItem (hmax : 0 < maxItems) {l : List Bytes} (h : item ∈ l → prepend = true) :
    cutItems prepend maxItems (placeItem item prepend l) = push prepend maxItems l item := by
  rw [push]
  cases prepend with
  | true =>
      have hplace : placeItem item true l = item :: l.erase item := by
        rw [placeItem]
        split
        · rfl
        · rename_i hmem
          rw [if_pos rfl, List.erase_of_not_mem hmem]
      rw [hplace, cutItems_true hmax, if_pos rfl]
  | false =>
      have hmem : item ∉ l := fun hmem => absurd (h hmem) (by decide)
      rw [placeItem, if_neg hmem, if_neg (by decide), cutItems_false hmax, if_neg (by decide), keep, if_neg hmem]

theorem mem_of_mem_push {l : List Bytes} {x : Bytes} (h : x ∈ push prepend maxItems l item) : x = item ∨ x ∈ l := by
  rw [push] at h
  split at h
  · exact (List.mem_cons.mp (List.mem_of_mem_take h)).imp_right List.mem_of_mem_erase
  · rw [keep] at h
    split at h
    · exact .inr h
    · exact (List.mem_append.mp (List.mem_of_mem_drop h)).symm.imp_left List.mem_singleton.mp

theorem mem_push (hmax : 0 < maxItems) (l : List Bytes) : item ∈ push prepend maxItems l item := by
  rw [push]
  split
  · obtain ⟨m, rfl⟩ : ∃ m, maxItems = m + 1 := ⟨maxItems - 1, by omega⟩
    rw [List.take_succ_cons]
    exact List.mem_cons_self
  · exact mem_keep hmax l item

theorem splitCsv_push {l : List Bytes} (hitem : CleanItem item) (hl : ∀ x ∈ l, CleanItem x) :
    splitCsv (joinCsv (push prepend maxItems l item)) = push prepend maxItems l item := by
  refine splitCsv_joinCsv fun x hx => ?_
  rcases mem_of_mem_push hx with rfl | hx
  · exact hitem
  · exact hl x hx

/-- How a call on a list ends. -/
structure Pushed (k : Cell) (item : Bytes) (prepend : Bool) (maxItems : Nat) (s : Store Cell Bytes) (ok : Bool)
    (s' : Store Cell Bytes) : Prop where
  ok : ok = true
  list : items (s' k) = push prepend maxItems (items (s k)) item

theorem pushed_loop_found {old : Bytes} (hitem : CleanItem item) (hmax : 0 < maxItems) (hold : s k = some old)
    (attempts : Nat) :
    Ends (appendCsvLoop k item prepend maxItems (attempts + 1)) (Pushed k item prepend maxItems s) s := by
  have hold' : items (s k) = splitCsv old := by rw [hold]; rfl
  rw [appendCsvLoop]
  refine Ends.bind ?_
  rw [Ends, run_getStatus, hold]
  show Ends (if item ∈ splitCsv old ∧ prepend = false then return true else _) _ s
  split
  · rename_i hthere
    refine ⟨rfl, ?_⟩
    show items (s k) = _
    rw [hold', push, hthere.2, if_neg (by decide), keep, if_pos hthere.1]
  · rename_i hnew
    have hcut : cutItems prepend maxItems (placeItem item prepend (splitCsv old)) =
        push prepend maxItems (splitCsv old) item := by
      refine cutItems_placeItem hmax fun hmem => ?_
      by_contra hp
      exact hnew ⟨hmem, Bool.eq_false_of_not_eq_true hp⟩
    have hsplit : splitCsv (joinCsv (push prepend maxItems (splitCsv old) item)) =
        push prepend maxItems (splitCsv old) item :=
      splitCsv_push hitem fun x hx => clean_of_mem_splitCsv hx
    dsimp only
    rw [hcut]
    split
    · rename_i hsame
      refine ⟨rfl, ?_⟩
      show items (s k) = _
      rw [hold', ← hsplit, hsame]
    · have hcput : run (cput k old (joinCsv (push prepend maxItems (splitCsv old) item)) : FeProg Bool) s =
          (true, Function.update s k (some (joinCsv (push prepend maxItems (splitCsv old) item)))) := by
        rw [run_cput, hold, if_pos rfl, decide_eq_true rfl]
      refine Ends.bind ?_
      rw [Ends, hcput]
      refine ⟨rfl, ?_⟩
      show items (Function.update s k _ k) = _
      rw [Function.update_self, items_some, hsplit, hold']

theorem push_nil (hmax : 0 < maxItems) : push prepend maxItems [] item = [item] := by
  obtain ⟨m, rfl⟩ : ∃ m, maxItems = m + 1 := ⟨maxItems - 1, by omega⟩
  cases prepend with
  | true => rw [push, if_pos rfl, List.erase_nil, List.take_succ_cons, List.take_nil]
  | false =>
      rw [push, if_neg (by decide), keep, if_neg List.not_mem_nil, List.rtake_concat_succ, List.rtake_nil]
      rfl

theorem push_singleton (hmax : 0 < maxItems) : push prepend maxItems [item] item = [item] := by
  obtain ⟨m, rfl⟩ : ∃ m, maxItems = m + 1 := ⟨maxItems - 1, by omega⟩
  cases prepend with
  | true =>
      rw [push, if_pos rfl, List.erase_cons_head, List.take_succ_cons, List.take_nil]
  | false => rw [push, if_neg (by decide), keep, if_pos (List.mem_singleton_self item)]

/-- **One call**, on a cell that may be missing. -/
theorem pushed_appendCsvItemCas (hitem : CleanItem item) (hmax : 0 < maxItems) :
    Ends (appendCsvItemCas k item prepend maxItems) (Pushed k item prepend maxItems s) s := by
  rw [appendCsvItemCas, if_neg hitem.ne_nil]
  cases hk : s k with
  | some old => exact pushed_loop_found hitem hmax hk 15
  | none =>
      -- the first turn creates the cell, the second finds the item there
      have hcut : cutItems prepend maxItems (placeItem item prepend []) = [item] :=
        (cutItems_placeItem hmax fun hmem => absurd hmem List.not_mem_nil).trans (push_nil hmax)
      have hsplit : splitCsv (joinCsv [item]) = [item] :=
        splitCsv_joinCsv fun x hx => List.mem_singleton.mp hx ▸ hitem
      rw [appendCsvLoop]
      refine Ends.bind ?_
      rw [Ends, run_getStatus, hk]
      show Ends (put k (joinCsv (cutItems prepend maxItems (placeItem item prepend []))) >>= fun _ => _) _ s
      refine Ends.bind ?_
      rw [Ends, run_put, hcut]
      refine (pushed_loop_found hitem hmax (Function.update_self ..) 14).mono fun ok s' h => ⟨h.ok, ?_⟩
      rw [h.list, Function.update_self, hk, items_some, items_none, hsplit, push_singleton hmax, push_nil hmax]

/-! ## A sequence of calls -/

/-- The calls for some items, and whether all of them returned true. -/
def appendAll (k : Cell) (prepend : Bool) (maxItems : Nat) : List Bytes → FeProg Bool
  | [] => return true
  | item :: rest => do
      let ok ← appendCsvItemCas k item prepend maxItems
      let oks ← appendAll k prepend maxItems rest
      return ok && oks

/-- The list that is meant. -/
def history (prepend : Bool) (maxItems : Nat) (xs : List Bytes) : List Bytes :=
  if prepend then recent maxItems xs else retained maxItems xs

theorem history_concat (prepend : Bool) (maxItems : Nat) (xs : List Bytes) (x : Bytes) :
    history prepend maxItems (xs ++ [x]) = push prepend maxItems (history prepend maxItems xs) x := by
  cases prepend with
  | true => exact recent_concat maxItems xs x
  | false => exact retained_concat maxItems xs x

theorem mem_history_concat (prepend : Bool) (hmax : 0 < maxItems) (xs : List Bytes) (x : Bytes) :
    x ∈ history prepend maxItems (xs ++ [x]) := by
  rw [history_concat]
  exact mem_push hmax _

theorem foldl_push_eq (prepend : Bool) (maxItems : Nat) (xs : List Bytes) :
    xs.foldl (push prepend maxItems) [] = history prepend maxItems xs := by
  induction xs using List.reverseRecOn with
  | nil =>
      cases prepend with
      | true => exact List.take_nil.symm
      | false => rfl
  | append_singleton xs x ih =>
      rw [List.foldl_append, ih, history_concat]
      rfl

theorem nodup_history (prepend : Bool) (maxItems : Nat) (xs : List Bytes) : (history prepend maxItems xs).Nodup := by
  cases prepend with
  | true => exact nodup_recent maxItems xs
  | false => exact nodup_retained maxItems xs

theorem ends_appendAll (hmax : 0 < maxItems) {xs : List Bytes} (hxs : ∀ x ∈ xs, CleanItem x) (s : Store Cell Bytes) :
    Ends (appendAll k prepend maxItems xs)
      (fun ok s' => ok = true ∧ items (s' k) = xs.foldl (push prepend maxItems) (items (s k))) s := by
  induction xs generalizing s with
  | nil => exact ⟨rfl, rfl⟩
  | cons x xs ih =>
      rw [List.forall_mem_cons] at hxs
      rw [appendAll]
      refine Ends.bind ((pushed_appendCsvItemCas hxs.1 hmax).mono fun ok s₁ h₁ => ?_)
      refine Ends.bind ((ih hxs.2 s₁).mono fun oks s₂ h₂ => ?_)
      refine ⟨?_, ?_⟩
      · show (ok && oks) = true
        rw [h₁.ok, h₂.1]
        rfl
      · show items (s₂ k) = _
        rw [h₂.2, h₁.list, List.foldl_cons]

/--
**When the list is the history.**

Beginning with a missing cell, after every call all of them have returned true and the list
is the one that is meant, if and only if no item has a comma in it.
-/
theorem appendAll_iff (k : Cell) (prepend : Bool) {maxItems : Nat} {s : Store Cell Bytes} {xs : List Bytes}
    (hmax : 0 < maxItems) (hs : s k = none) (hne : ∀ x ∈ xs, x ≠ []) :
    (∀ done, done <+: xs → (run (appendAll k prepend maxItems done) s).1 = true ∧
        items ((run (appendAll k prepend maxItems done) s).2 k) = history prepend maxItems done ∧
        (items ((run (appendAll k prepend maxItems done) s).2 k)).Nodup) ↔
      ∀ x ∈ xs, comma ∉ x := by
  constructor
  · intro h x hx
    obtain ⟨before, after, rfl⟩ := List.append_of_mem hx
    have hlist := (h (before ++ [x]) ⟨after, by simp⟩).2.1
    have hmem := mem_history_concat prepend hmax before x
    rw [← hlist] at hmem
    exact (clean_of_mem_splitCsv hmem).notMem
  · intro h done hdone
    have hclean : ∀ x ∈ done, CleanItem x := fun x hx => ⟨hne x (hdone.subset hx), h x (hdone.subset hx)⟩
    have hends : Ends (appendAll k prepend maxItems done) _ s := ends_appendAll hmax hclean s
    obtain ⟨hok, hlist⟩ := hends
    rw [hs, items_none, foldl_push_eq] at hlist
    exact ⟨hok, hlist, hlist ▸ nodup_history prepend maxItems done⟩

/-- The peers of somebody. -/
def peers : Cell := .other (chatDmRow (ascii "u")) (ascii "peers")

/-- Two peers, and the first once more. -/
theorem appendAll_iff_peers :
    (run (appendAll peers true 100 [ascii "a", ascii "b", ascii "a"]) fun _ => none).1 = true ∧
      items ((run (appendAll peers true 100 [ascii "a", ascii "b", ascii "a"]) fun _ => none).2 peers) =
        [ascii "a", ascii "b"] := by
  have h := (@appendAll_iff peers true 100 (fun _ => none) [ascii "a", ascii "b", ascii "a"]
    (by decide) rfl (by decide +kernel)).mpr (by decide +kernel) _ (List.prefix_refl _)
  exact ⟨h.1, h.2.1.trans (by decide +kernel)⟩

/-- One with a comma in the name. -/
theorem not_appendAll_comma : ¬ ∀ xs : List Bytes, (∀ x ∈ xs, x ≠ []) →
    items ((run (appendAll peers true 100 xs) fun _ => none).2 peers) = history true 100 xs := by
  intro h
  exact absurd (h [ascii "a,b"] (by decide +kernel)) (by decide +kernel)

end NCloud.Frontend.Histories
