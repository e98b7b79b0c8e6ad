import NCloud.Lib.Csv
import NCloud.Lib.KeyValue
import NCloud.Lib.Reader

/-!
# Cells of the front end

Where `fe_server.cc`, `handlers_mail.cc`, `session.h` and `smtp_server.cc` keep things.
A cell is a row and a column; no two of the columns used have the same name in rows
that could coincide, so a cell is named here by its column and by what its row is made
from.

Lists of ids are kept in one cell, separated by commas. The store has no way to create
a cell only if it is absent, which is why the loops that update such a list write the
first value blindly.
-/

namespace NCloud.Frontend

open Process Wire KeyValue

/-- Mail folders. -/
inductive Folder where
  | inbox
  | sent
  | trash
  deriving DecidableEq

/-- `normalize_folder`. -/
def normalizeFolder (folder : Bytes) : Folder :=
  if folder = ascii "sent" then .sent
  else if folder = ascii "trash" then .trash
  else .inbox

/-- Rows and columns. -/
inductive Cell where
  /-- A list of the chat, or any other cell. -/
  | other (row col : Bytes)
  /-- `user`, `pwd`. -/
  | pwd (user : Bytes)
  /-- The session rows of a sid in the order of `session_rows`, `user`. -/
  | sessionUser (sid : Bytes) (copy : Nat)
  /-- The same, `expiry`. -/
  | sessionExpiry (sid : Bytes) (copy : Nat)
  /-- `user:mail`, `folder:f`. -/
  | folder (user : Bytes) (f : Folder)
  /-- `user:mail`, `index`. -/
  | index (user : Bytes)
  /-- `user:mail`, `inbox`. -/
  | inbox (user : Bytes)
  /-- `user:mail`, `msg:uid`. -/
  | msg (user uid : Bytes)
  /-- `user:mail`, `body:uid`. -/
  | body (user uid : Bytes)
  /-- `notify:user`, `latest`. -/
  | latest (user : Bytes)
  /-- `user:drive`, `root`. -/
  | root (user : Bytes)
  /-- `user:drive`, `used_bytes`. -/
  | usedBytes (user : Bytes)
  /-- `user:drive`, `quota_bytes`. -/
  | quotaBytes (user : Bytes)
  /-- `drive:obj:uid`, `type`. -/
  | type (uid : Bytes)
  | name (uid : Bytes)
  | parent (uid : Bytes)
  | owner (uid : Bytes)
  | size (uid : Bytes)
  /-- `drive:dir:uid`, `children`. -/
  | children (uid : Bytes)
  /-- `drive:file:uid`, `chunks`. -/
  | chunks (uid : Bytes)
  | chunk (uid : Bytes) (idx : Nat)
  | bytes (uid : Bytes)
  deriving DecidableEq

/-- Answers to requests, and what they say of themselves before. -/
inductive Answer where
  /-- A message is to be moved from one folder to another. -/
  | asks (uid : Bytes) (source target : Folder)
  /-- An object is to be moved from one folder to another. -/
  | moves (uid source target : Bytes)
  /-- A new uid. -/
  | mints (uid : Bytes)
  /-- The result of a call that stands on its own. -/
  | done (item : Bytes) (ok : Bool)
  /-- `"ok":true`, with the uid and path it names, if any. -/
  | ok (uid path : Bytes)
  /-- `"ok":false` with an error text. -/
  | error (text : String)
  deriving DecidableEq

/-- Programs of the front end. -/
abbrev FeProg := Prog (sig Cell Bytes Answer)

/-! ## Lists in a cell -/

/-- A comma. -/
def comma : UInt8 := 44

/-- `split_csv`, `chat_split_csv` and `split_csv_mail`. -/
def splitCsv (s : Bytes) : List Bytes := Csv.fields comma s

/-- `join_csv`, `chat_join_csv` and `join_csv_mail`. -/
def joinCsv (items : List Bytes) : Bytes := Csv.join comma items

/-- The list a cell holds. -/
def items (v : Option Bytes) : List Bytes := splitCsv (v.getD [])

/-- What `append_csv_item_cas` makes of a list before it cuts it. -/
def placeItem (item : Bytes) (prepend : Bool) (items : List Bytes) : List Bytes :=
  if item ∈ items then item :: items.erase item
  else if prepend then item :: items
  else items ++ [item]

/-- At most `maxItems` items, unless that is 0. -/
def cutItems (prepend : Bool) (maxItems : Nat) (items : List Bytes) : List Bytes :=
  if maxItems > 0 ∧ items.length > maxItems then
    if prepend then items.take maxItems
    else items.drop (items.length - maxItems)
  else items

/-- The loop of `append_csv_item_cas`. -/
def appendCsvLoop (k : Cell) (item : Bytes) (prepend : Bool) (maxItems : Nat) : Nat → FeProg Bool
  | 0 => return false
  | attempts + 1 => do
      match ← getStatus k with
      | .unavailable => appendCsvLoop k item prepend maxItems attempts
      | .found old =>
          if item ∈ splitCsv old ∧ prepend = false then return true
          else
            let next := joinCsv (cutItems prepend maxItems (placeItem item prepend (splitCsv old)))
            if next = old then return true
            else if ← cput k old next then return true
            else appendCsvLoop k item prepend maxItems attempts
      | .notFound =>
          -- put once, then loop back and merge
          let _ ← put k (joinCsv (cutItems prepend maxItems (placeItem item prepend [])))
          appendCsvLoop k item prepend maxItems attempts

/-- `append_csv_item_cas`. -/
def appendCsvItemCas (k : Cell) (item : Bytes) (prepend : Bool) (maxItems : Nat) : FeProg Bool :=
  if item = [] then return false else appendCsvLoop k item prepend maxItems 16

/-! ## Reading back -/

/-- Items that can be kept in a list. -/
abbrev CleanItem (item : Bytes) : Prop := Csv.Clean comma item

theorem splitCsv_joinCsv {l : List Bytes} (h : ∀ x ∈ l, CleanItem x) : splitCsv (joinCsv l) = l :=
  Csv.fields_join h

theorem clean_of_mem_splitCsv {s x : Bytes} (h : x ∈ splitCsv s) : CleanItem x :=
  Csv.clean_of_mem_fields h

@[simp] theorem items_none : items none = [] := rfl

@[simp] theorem items_some (v : Bytes) : items (some v) = splitCsv v := rfl

@[simp] theorem splitCsv_nil : splitCsv [] = [] := rfl

theorem mem_placeItem {item x : Bytes} {prepend : Bool} {l : List Bytes} :
    x ∈ placeItem item prepend l ↔ x = item ∨ x ∈ l := by
  unfold placeItem
  split
  · rename_i hmem
    by_cases hx : x = item
    · subst hx
      simp
    · rw [List.mem_cons, List.mem_erase_of_ne hx]
  · split
    · exact List.mem_cons
    · rw [List.mem_append, List.mem_singleton]
      exact Or.comm

theorem length_placeItem_le (item : Bytes) (prepend : Bool) (l : List Bytes) :
    (placeItem item prepend l).length ≤ l.length + 1 := by
  unfold placeItem
  split
  · rename_i hmem
    have := List.length_erase_of_mem hmem
    have := List.length_pos_of_mem hmem
    simp only [List.length_cons]
    omega
  · split <;> simp

/-- A list below the limit is not cut. -/
theorem cutItems_of_le {prepend : Bool} {maxItems : Nat} {l : List Bytes}
    (h : maxItems = 0 ∨ l.length ≤ maxItems) : cutItems prepend maxItems l = l :=
  if_neg (by omega)

theorem only_gets_getStr {P : Cell → Prop} {k : Cell} (hk : P k) :
    (getStr k : FeProg Bytes).Only (Gets P) (fun _ => True) := by
  refine ⟨hk, fun r => ?_⟩
  cases r <;> trivial

/-- The operations of `append_csv_item_cas`. -/
theorem only_appendCsvLoop_of {P : Act Cell Bytes Answer → Prop} {k : Cell} {item : Bytes} {prepend : Bool}
    {maxItems : Nat} (hget : P (.get k)) (hput : ∀ v, P (.put k v))
    (hcput : ∀ old, P (.cput k old (joinCsv (cutItems prepend maxItems (placeItem item prepend (splitCsv old))))))
    (attempts : Nat) : (appendCsvLoop k item prepend maxItems attempts).Only P (fun _ => True) := by
  induction attempts with
  | zero => trivial
  | succ attempts ih =>
      refine ⟨hget, fun r => ?_⟩
      cases r with
      | unavailable => exact ih
      | notFound => exact ⟨hput _, fun _ => ih⟩
      | found old =>
          show Prog.Only _ _ (if item ∈ splitCsv old ∧ prepend = false then _ else _)
          split
          · trivial
          · show Prog.Only _ _ (if _ then _ else _)
            split
            · trivial
            · refine ⟨hcput old, fun ok => ?_⟩
              cases ok with
              | true => trivial
              | false => exact ih

end NCloud.Frontend
