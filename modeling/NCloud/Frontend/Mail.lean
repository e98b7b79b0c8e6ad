import NCloud.Frontend.Cells

/-!
# Mail

The parts of `handlers_mail.cc` and of the SMTP server that update the lists of
messages: a folder is a list of uids, and the inbox has older copies of its list in two
further columns. What a message says is of no interest here.
-/

namespace NCloud.Frontend

open Process Wire KeyValue

namespace Mail

/-- `folder_index`. -/
def folderIndex (user : Bytes) (f : Folder) : FeProg Bytes := do
  let val ← getStr (.folder user f)
  if val = [] ∧ f = .inbox then getStr (.index user)
  else return val

/-- `uid_in_folder`. -/
def uidInFolder (user : Bytes) (f : Folder) (uid : Bytes) : FeProg Bool := do
  return decide (uid ∈ splitCsv (← folderIndex user f))

/-- The list before the update: a missing inbox falls back on the older column. -/
def oldIndex (user : Bytes) (f : Folder) : FeProg Bytes :=
  if f = .inbox then getStr (.index user) else return []

/-- The write that follows a successful update of the inbox. -/
def copyIndex (user : Bytes) (f : Folder) (next : Bytes) : FeProg Unit := do
  if f = .inbox then
    let _ ← put (.index user) next

/-- The loop of `remove_uid_from_folder`. -/
def removeLoop (user : Bytes) (f : Folder) (uid : Bytes) : Nat → FeProg Bool
  | 0 => return false
  | attempts + 1 => do
      match ← getStatus (.folder user f) with
      | .unavailable => removeLoop user f uid attempts
      | .found old =>
          let ids := splitCsv old
          if uid ∉ ids then return true
          else
            let next := joinCsv (ids.filter (· ≠ uid))
            if ← cput (.folder user f) old next then
              copyIndex user f next
              return true
            else removeLoop user f uid attempts
      | .notFound =>
          let old ← oldIndex user f
          let ids := splitCsv old
          if uid ∉ ids then return true
          else
            let _ ← put (.folder user f) (joinCsv (ids.filter (· ≠ uid)))
            removeLoop user f uid attempts

/-- `remove_uid_from_folder`. -/
def removeUidFromFolder (user : Bytes) (f : Folder) (uid : Bytes) : FeProg Bool :=
  removeLoop user f uid 12

/-- The list with the uid in front. -/
def inFront (uid : Bytes) (ids : List Bytes) : List Bytes := uid :: ids.filter (· ≠ uid)

theorem mem_inFront {uid x : Bytes} {ids : List Bytes} : x ∈ inFront uid ids ↔ x = uid ∨ x ∈ ids := by
  by_cases hx : x = uid
  · simp [inFront, hx]
  · simp [inFront, hx]

theorem splitCsv_inFront {uid : Bytes} (h : CleanItem uid) (old : Bytes) :
    splitCsv (joinCsv (inFront uid (splitCsv old))) = inFront uid (splitCsv old) := by
  refine splitCsv_joinCsv (fun x hx => ?_)
  rcases mem_inFront.mp hx with rfl | hx
  · exact h
  · exact clean_of_mem_splitCsv hx

/-- The loop of `prepend_uid_to_folder`. -/
def prependLoop (user : Bytes) (f : Folder) (uid : Bytes) : Nat → FeProg Bool
  | 0 => return false
  | attempts + 1 => do
      match ← getStatus (.folder user f) with
      | .unavailable => prependLoop user f uid attempts
      | .found old =>
          let next := joinCsv (inFront uid (splitCsv old))
          if next = old then
            copyIndex user f next
            return true
          else if ← cput (.folder user f) old next then
            copyIndex user f next
            return true
          else prependLoop user f uid attempts
      | .notFound =>
          let old ← oldIndex user f
          let _ ← put (.folder user f) (joinCsv (inFront uid (splitCsv old)))
          prependLoop user f uid attempts

/-- `prepend_uid_to_folder`. -/
def prependUidToFolder (user : Bytes) (f : Folder) (uid : Bytes) : FeProg Bool :=
  prependLoop user f uid 16

/-- `store_message`. -/
def storeMessage (owner folder uid metaJson body : Bytes) : FeProg Bool := do
  if !(← put (.msg owner uid) metaJson) then return false
  if !(← put (.body owner uid) body) then return false
  if !(← prependUidToFolder owner (normalizeFolder folder) uid) then
    let _ ← del (.msg owner uid)
    let _ ← del (.body owner uid)
    return false
  return true

/-! ## `deliver_local` -/

/-- The loop: the index it has written, if it got that far. -/
def deliverLoop (user uid : Bytes) : Nat → FeProg (Option Bytes)
  | 0 => return none
  | attempts + 1 => do
      match ← getStatus (.folder user .inbox) with
      | .unavailable => deliverLoop user uid attempts
      | .found old =>
          let next := joinCsv (inFront uid (splitCsv old))
          if next = old then return some next
          else if ← cput (.folder user .inbox) old next then return some next
          else deliverLoop user uid attempts
      | .notFound =>
          let old ← getStr (.index user)
          let old ← if old = [] then getStr (.inbox user) else pure old
          let _ ← put (.folder user .inbox) (joinCsv (inFront uid (splitCsv old)))
          deliverLoop user uid attempts

/-- `deliver_local` for a recipient, with the new uid and the two texts it stores. -/
def deliverLocal (recipient uid metaJson body : Bytes) : FeProg Bool := do
  if recipient = [] then return false
  match ← getStatus (.pwd recipient) with
  | .found _ =>
      if !(← put (.msg recipient uid) metaJson) then return false
      if !(← put (.body recipient uid) body) then return false
      match ← deliverLoop recipient uid 5 with
      | none =>
          let _ ← del (.msg recipient uid)
          let _ ← del (.body recipient uid)
          return false
      | some final =>
          if final ≠ [] then
            let _ ← put (.inbox recipient) final
            let _ ← put (.index recipient) final
          let _ ← put (.latest recipient) (ascii "uid:" ++ uid)
          return true
  | _ => return false

/-! ## Moving a message -/

/-- `handle_delete_email` and `handle_restore_email` after their checks: into one
folder, out of the other, and back out of the first if that fails. -/
def moveUid (user uid : Bytes) (source target : Folder) (failed : String) (answer : Answer) :
    FeProg Answer := do
  if !(← prependUidToFolder user target uid) then return .error failed
  if !(← removeUidFromFolder user source uid) then
    let _ ← removeUidFromFolder user target uid
    return .error failed
  return answer

/-- `handle_delete_email`. -/
def handleDeleteEmail (user uid folderParam : Bytes) : FeProg Answer := do
  let folder := normalizeFolder folderParam
  if uid = [] then return .error "Missing uid"
  if !(← uidInFolder user folder uid) then return .error "message not found in folder"
  if folder = .trash then
    if !(← removeUidFromFolder user .trash uid) then return .error "delete failed"
    if !(← del (.msg user uid)) then return .error "delete failed"
    if !(← del (.body user uid)) then return .error "delete failed"
    return .ok [] []
  else moveUid user uid folder .trash "move to trash failed" (.ok [] [])

/-- `handle_restore_email`. -/
def handleRestoreEmail (user uid : Bytes) : FeProg Answer := do
  if uid = [] then return .error "Missing uid"
  if !(← uidInFolder user .trash uid) then return .error "message not in trash"
  moveUid user uid .trash .inbox "restore failed" (.ok [] [])

end Mail

end NCloud.Frontend
