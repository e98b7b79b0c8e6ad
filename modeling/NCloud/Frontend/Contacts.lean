import NCloud.Lib.Stream
import NCloud.Frontend.Cells
import NCloud.Protocol.Forms
import NCloud.Protocol.JsonStrings

/-!
# The list of contacts

`handlers_mail.cc` keeps the contacts of a user in one cell, a line each, with a tab between
the name and the address. Nothing is escaped. Every request reads the lines, changes the
list and writes all of it back, so a tab or a line feed that somebody has typed takes
effect when the list is read the next time.
-/

namespace NCloud.Frontend.Contacts

open Process Wire KeyValue JsonText Protocol Protocol.Forms

/-- A name and an address. -/
abbrev Contact := Bytes × Bytes

def tab : UInt8 := 9

/-- `contacts_row`, `contacts_col`. -/
def contactsCell (user : Bytes) : Cell := .other (user ++ ascii ":contacts") (ascii "list")

/-- `contacts_blob_get`. -/
def contactsBlobGet (user : Bytes) : FeProg Bytes := getStr (contactsCell user)

/-- What one line says. A line without a tab is skipped. -/
def parseLine (line : Bytes) : Option Contact := if line = [] then none else cut [tab] line

/-- `parse_contacts_blob`. -/
def parseContactsBlob (blob : Bytes) : List Contact := (tokens lf blob).filterMap parseLine

/-- One turn of `contacts_blob_serialize`. -/
def appendContact (out : Bytes) (c : Contact) : Bytes :=
  (if out = [] then out else out ++ [lf]) ++ (c.1 ++ [tab] ++ c.2)

/-- `contacts_blob_serialize`. -/
def contactsBlobSerialize (contacts : List Contact) : Bytes := contacts.foldl appendContact []

/-- What `json_contacts` writes for one of them. -/
def contactJson (c : Contact) : Bytes :=
  ascii "\x7b" ++ (ascii "\"name\":\"" ++ escJsonMail c.1 ++ ascii "\",") ++
    (ascii "\"email\":\"" ++ escJsonMail c.2 ++ ascii "\"\x7d")

/-- `json_contacts`. -/
def jsonContacts (contacts : List Contact) : Bytes :=
  ascii "[" ++ (ascii ",").intercalate (contacts.map contactJson) ++ ascii "]"

/-- The answer of `handle_contacts_list`. -/
def contactsAnswer (contacts : List Contact) : Bytes :=
  ascii "\x7b\"ok\":true,\"contacts\":" ++ jsonContacts contacts ++ ascii "\x7d"

/-- `handle_contacts_list`. -/
def handleContactsList (user : Bytes) : FeProg Bytes := do
  let contacts := parseContactsBlob (← contactsBlobGet user)
  return contactsAnswer contacts

/-- The first contact with an address gets another name; otherwise it is a new one. -/
def setContact (name email : Bytes) : List Contact → List Contact
  | [] => [(name, email)]
  | c :: contacts => if c.2 = email then (name, c.2) :: contacts else c :: setContact name email contacts

/-- All contacts but those with an address. -/
def dropContacts (email : Bytes) (contacts : List Contact) : List Contact :=
  contacts.filter (fun c => c.2 ≠ email)

/-- `handle_contacts_add`. -/
def handleContactsAdd (user body : Bytes) : FeProg Bytes := do
  let email := field body "email"
  let name := field body "name"
  if email = [] ∨ name = [] then return ascii "\x7b\"ok\":false,\"error\":\"name and email required\"\x7d"
  else
    let contacts := parseContactsBlob (← contactsBlobGet user)
    if ¬ (← put (contactsCell user) (contactsBlobSerialize (setContact name email contacts))) then
      return ascii "\x7b\"ok\":false,\"error\":\"failed to save contact\"\x7d"
    else return ascii "\x7b\"ok\":true\x7d"

/-- `handle_contacts_delete`. -/
def handleContactsDelete (user body : Bytes) : FeProg Bytes := do
  let email := field body "email"
  if email = [] then return ascii "\x7b\"ok\":false,\"error\":\"email required\"\x7d"
  else
    let contacts := parseContactsBlob (← contactsBlobGet user)
    if ¬ (← put (contactsCell user) (contactsBlobSerialize (dropContacts email contacts))) then
      return ascii "\x7b\"ok\":false,\"error\":\"failed to delete contact\"\x7d"
    else return ascii "\x7b\"ok\":true\x7d"

/-! ## Requests on an abstract list -/

/-- A request that changes the list of a user, with its body. -/
inductive Request where
  | add (user body : Bytes)
  | delete (user body : Bytes)

namespace Request

/-- Whose list it is about. -/
def user : Request → Bytes
  | add user _ => user
  | delete user _ => user

/-- The handler. -/
def handle : Request → FeProg Bytes
  | add user body => handleContactsAdd user body
  | delete user body => handleContactsDelete user body

/-- The contact that a request adds, if it is not turned away. -/
def added : Request → Option Contact
  | add _ body =>
      if field body "email" = [] ∨ field body "name" = [] then none else some (field body "name", field body "email")
  | delete _ _ => none

/-- What it does to a list. -/
def onList (contacts : List Contact) : Request → List Contact
  | add _ body =>
      if field body "email" = [] ∨ field body "name" = [] then contacts
      else setContact (field body "name") (field body "email") contacts
  | delete _ body => if field body "email" = [] then contacts else dropContacts (field body "email") contacts

end Request

/-- The requests of one user, on a list. -/
def replay (user : Bytes) (contacts : List Contact) (rs : List Request) : List Contact :=
  (rs.filter (fun r => r.user = user)).foldl Request.onList contacts

/-- All of them, one after another, on a store whose operations succeed. -/
def runAll (rs : List Request) (s : Store Cell Bytes) : Store Cell Bytes :=
  rs.foldl (fun s r => (run r.handle s).2) s

/-- The list a user has. -/
def stored (user : Bytes) (s : Store Cell Bytes) : List Contact :=
  parseContactsBlob ((s (contactsCell user)).getD [])

/-- A contact that can be written down. -/
structure Clean (c : Contact) : Prop where
  tab_name : tab ∉ c.1
  lf_name : lf ∉ c.1
  lf_email : lf ∉ c.2

/-! ## Reading back what was written -/

/-- What is read is clean. -/
theorem clean_of_mem_parse {blob : Bytes} {c : Contact} (h : c ∈ parseContactsBlob blob) : Clean c := by
  obtain ⟨line, hline, hparse⟩ := List.mem_filterMap.mp h
  have hlf : lf ∉ line := notMem_of_mem_tokens hline
  rw [parseLine] at hparse
  split at hparse
  · exact absurd hparse nofun
  · obtain ⟨name, email⟩ := c
    have heq := eq_of_cut hparse
    rw [heq, List.mem_append, List.mem_append, not_or, not_or] at hlf
    exact ⟨notMem_of_cut_char hparse, hlf.1, hlf.2.2⟩

/-- One line. -/
def line (c : Contact) : Bytes := c.1 ++ [tab] ++ c.2

theorem line_ne_nil (c : Contact) : line c ≠ [] := by simp [line]

theorem serialize_eq (contacts : List Contact) :
    contactsBlobSerialize contacts = [lf].intercalate (contacts.map line) :=
  Csv.foldl_separated line_ne_nil contacts

theorem parseLine_line {c : Contact} (h : Clean c) : parseLine (line c) = some c := by
  rw [parseLine, if_neg (line_ne_nil c), line, List.append_assoc]
  exact cut_char c.2 h.tab_name

/-- **Clean lists are read back, and no others.** -/
theorem parse_serialize_iff {contacts : List Contact} :
    parseContactsBlob (contactsBlobSerialize contacts) = contacts ↔ ∀ c ∈ contacts, Clean c := by
  constructor
  · intro h c hc
    rw [← h] at hc
    exact clean_of_mem_parse hc
  · intro h
    have hlines : ∀ l ∈ contacts.map line, l ≠ [] ∧ lf ∉ l := by
      intro l hmem
      obtain ⟨c, hc, rfl⟩ := List.mem_map.mp hmem
      obtain ⟨-, hname, hemail⟩ := h c hc
      refine ⟨line_ne_nil c, ?_⟩
      simp only [line, List.mem_append, List.mem_singleton, not_or]
      exact ⟨⟨hname, by decide⟩, hemail⟩
    have hall : ∀ l : List Contact, (∀ c ∈ l, Clean c) → (l.map line).filterMap parseLine = l := by
      intro l hl
      induction l with
      | nil => rfl
      | cons c l ih =>
          rw [List.forall_mem_cons] at hl
          rw [List.map_cons, List.filterMap_cons_some (parseLine_line hl.1), ih hl.2]
    rw [parseContactsBlob, serialize_eq, tokens_intercalate hlines, hall _ h]

/-! ## What is shown -/

theorem contactJson_inj {c c' : Contact} {rest rest' : Bytes}
    (h : contactJson c ++ rest = contactJson c' ++ rest') : c = c' ∧ rest = rest' := by
  have hform : ∀ (c : Contact) (rest : Bytes), contactJson c ++ rest =
      ascii "\x7b\"name\":\"" ++ (escJsonMail c.1 ++ quote ::
        (ascii ",\"email\":\"" ++ (escJsonMail c.2 ++ quote :: (ascii "\x7d" ++ rest)))) := by
    intro c rest
    simp [contactJson, ascii, quote]
  rw [hform, hform] at h
  obtain ⟨hname, h⟩ := (piece_escJsonMail c.1).inj (piece_escJsonMail c'.1) (List.append_cancel_left h)
  obtain ⟨hemail, h⟩ := (piece_escJsonMail c.2).inj (piece_escJsonMail c'.2) (List.append_cancel_left h)
  exact ⟨Prod.ext hname hemail, List.append_cancel_left h⟩

/-- After the first of them, a list is what stands behind commas. -/
theorem eq_of_flatMap_contactJson {l l' : List Contact}
    (h : (l.map contactJson).flatMap (ascii "," ++ ·) ++ ascii "]\x7d" =
      (l'.map contactJson).flatMap (ascii "," ++ ·) ++ ascii "]\x7d") : l = l' := by
  induction l generalizing l' with
  | nil =>
      cases l' with
      | nil => rfl
      | cons c' l' => exact absurd (List.cons.inj h).1 (by decide)
  | cons c l ih =>
      cases l' with
      | nil => exact absurd (List.cons.inj h).1 (by decide)
      | cons c' l' =>
          simp only [List.map_cons, List.flatMap_cons, List.append_assoc] at h
          obtain ⟨hc, hrest⟩ := contactJson_inj (List.append_cancel_left h)
          rw [hc, ih hrest]

/-- Different lists are shown as different texts. -/
theorem contactsAnswer_inj {l l' : List Contact} (h : contactsAnswer l = contactsAnswer l') : l = l' := by
  simp only [contactsAnswer, jsonContacts, List.append_assoc] at h
  have hjoin := List.append_cancel_left (List.append_cancel_left h)
  cases l with
  | nil =>
      cases l' with
      | nil => rfl
      | cons c' l' =>
          rw [List.map_cons, Csv.intercalate_cons] at hjoin
          exact absurd (List.cons.inj hjoin).1 (by decide)
  | cons c l =>
      cases l' with
      | nil =>
          rw [List.map_cons, Csv.intercalate_cons] at hjoin
          exact absurd (List.cons.inj hjoin).1 (by decide)
      | cons c' l' =>
          rw [List.map_cons, List.map_cons, Csv.intercalate_cons, Csv.intercalate_cons, List.append_assoc,
            List.append_assoc] at hjoin
          obtain ⟨rfl, hrest⟩ := contactJson_inj hjoin
          rw [eq_of_flatMap_contactJson hrest]

theorem run_handleContactsList (user : Bytes) (s : Store Cell Bytes) :
    (run (handleContactsList user) s).1 = contactsAnswer (stored user s) := by
  rw [handleContactsList, run_bind, contactsBlobGet, run_getStr]
  rfl

/-! ## One request -/

theorem mem_setContact {name email : Bytes} {contacts : List Contact} {c : Contact}
    (h : c ∈ setContact name email contacts) : c = (name, email) ∨ c ∈ contacts := by
  induction contacts with
  | nil => exact .inl (List.mem_singleton.mp h)
  | cons d contacts ih =>
      rw [setContact] at h
      split at h
      · rename_i hd
        rcases List.mem_cons.mp h with rfl | h
        · exact .inl (Prod.ext rfl hd)
        · exact .inr (List.mem_cons_of_mem _ h)
      · rcases List.mem_cons.mp h with rfl | h
        · exact .inr List.mem_cons_self
        · exact (ih h).imp_right (List.mem_cons_of_mem _)

theorem mem_setContact_self (name email : Bytes) (contacts : List Contact) :
    (name, email) ∈ setContact name email contacts := by
  induction contacts with
  | nil => exact List.mem_singleton_self _
  | cons d contacts ih =>
      rw [setContact]
      split
      · rename_i hd
        rw [hd]
        exact List.mem_cons_self
      · exact List.mem_cons_of_mem _ ih

namespace Request

variable {r : Request} {contacts : List Contact} {c : Contact}

theorem mem_onList (h : c ∈ onList contacts r) : r.added = some c ∨ c ∈ contacts := by
  cases r with
  | add user body =>
      rw [onList] at h
      rw [added]
      split at h
      · exact .inr h
      · rename_i hno
        rw [if_neg hno]
        exact (mem_setContact h).imp_left fun heq => congrArg some heq.symm
  | delete user body =>
      rw [onList] at h
      split at h
      · exact .inr h
      · exact .inr (List.mem_of_mem_filter h)

theorem added_mem_onList (h : r.added = some c) : c ∈ onList contacts r := by
  cases r with
  | add user body =>
      rw [added] at h
      rw [onList]
      split at h
      · exact absurd h nofun
      · rename_i hno
        rw [if_neg hno, ← Option.some.inj h]
        exact mem_setContact_self _ _ _
  | delete user body => exact absurd h nofun

end Request

theorem contactsCell_inj {user user' : Bytes} (h : contactsCell user = contactsCell user') : user = user' :=
  List.append_cancel_right (Cell.other.inj h).1

theorem stored_update (user user' blob : Bytes) (s : Store Cell Bytes) :
    stored user (Function.update s (contactsCell user') (some blob)) =
      if user' = user then parseContactsBlob blob else stored user s := by
  rw [stored]
  split
  · rename_i h
    rw [h, Function.update_self, Option.getD_some]
  · rename_i h
    rw [Function.update_of_ne fun heq => h (contactsCell_inj heq).symm]
    rfl

/-- What is stored is what writing it and reading it back would give. -/
theorem parse_serialize_stored (user : Bytes) (s : Store Cell Bytes) :
    parseContactsBlob (contactsBlobSerialize (stored user s)) = stored user s :=
  parse_serialize_iff.mpr fun _ => clean_of_mem_parse

theorem run_handleContactsAdd (user body : Bytes) (s : Store Cell Bytes) :
    (run (handleContactsAdd user body) s).2 =
      if field body "email" = [] ∨ field body "name" = [] then s
      else Function.update s (contactsCell user) (some (contactsBlobSerialize
        (setContact (field body "name") (field body "email") (stored user s)))) := by
  rw [handleContactsAdd]
  split
  · rfl
  · rw [run_bind, contactsBlobGet, run_getStr, run_bind, run_put]
    rfl

theorem run_handleContactsDelete (user body : Bytes) (s : Store Cell Bytes) :
    (run (handleContactsDelete user body) s).2 =
      if field body "email" = [] then s
      else Function.update s (contactsCell user) (some (contactsBlobSerialize
        (dropContacts (field body "email") (stored user s)))) := by
  rw [handleContactsDelete]
  split
  · rfl
  · rw [run_bind, contactsBlobGet, run_getStr, run_bind, run_put]
    rfl

/-- **What a request does to a list**, as it is read back. -/
theorem stored_run_handle (r : Request) (user : Bytes) (s : Store Cell Bytes) :
    stored user (run r.handle s).2 =
      if r.user = user then parseContactsBlob (contactsBlobSerialize (r.onList (stored user s)))
      else stored user s := by
  have hsame : ∀ user', (if user' = user then stored user s else stored user s) = stored user s :=
    fun _ => ite_self _
  cases r with
  | add user' body =>
      rw [Request.handle, run_handleContactsAdd, Request.onList]
      split
      · rw [parse_serialize_stored]
        exact (hsame user').symm
      · rw [stored_update]
        refine ite_congr rfl (fun h => ?_) fun _ => rfl
        obtain rfl : user' = user := h
        rfl
  | delete user' body =>
      rw [Request.handle, run_handleContactsDelete, Request.onList]
      split
      · rw [parse_serialize_stored]
        exact (hsame user').symm
      · rw [stored_update]
        refine ite_congr rfl (fun h => ?_) fun _ => rfl
        obtain rfl : user' = user := h
        rfl

/-! ## All of them -/

variable {user : Bytes} {s : Store Cell Bytes} {rs : List Request}

theorem replay_concat (contacts : List Contact) (r : Request) :
    replay user contacts (rs ++ [r]) =
      if r.user = user then r.onList (replay user contacts rs) else replay user contacts rs := by
  rw [replay, List.filter_append, List.foldl_append]
  split
  · rename_i h
    rw [List.filter_cons_of_pos (by simpa using h)]
    rfl
  · rename_i h
    rw [List.filter_cons_of_neg (by simpa using h)]
    rfl

/-- The requests of a user that add something add what can be written down. -/
def AddClean (user : Bytes) (rs : List Request) : Prop :=
  ∀ r ∈ rs, r.user = user → ∀ c, r.added = some c → Clean c

theorem clean_of_mem_replay (h : AddClean user rs) {c : Contact} (hc : c ∈ replay user (stored user s) rs) :
    Clean c := by
  induction rs using List.reverseRecOn generalizing c with
  | nil => exact clean_of_mem_parse hc
  | append_singleton rs r ih =>
      have hinit : AddClean user rs := fun r hr => h r (List.mem_append_left _ hr)
      rw [replay_concat] at hc
      split at hc
      · rename_i hu
        rcases Request.mem_onList hc with hadd | hc
        · exact h r (List.mem_append_right _ (List.mem_singleton_self r)) hu c hadd
        · exact ih hinit hc
      · exact ih hinit hc

/-- **The lists agree** as long as nothing is added that cannot be written down. -/
theorem stored_runAll (h : AddClean user rs) : stored user (runAll rs s) = replay user (stored user s) rs := by
  induction rs using List.reverseRecOn with
  | nil => rfl
  | append_singleton rs r ih =>
      have hinit : AddClean user rs := fun r hr => h r (List.mem_append_left _ hr)
      have hlast : stored user (runAll (rs ++ [r]) s) = stored user (run r.handle (runAll rs s)).2 := by
        rw [runAll, List.foldl_append]
        rfl
      have hreplay : replay user (stored user s) (rs ++ [r]) = _ := replay_concat (stored user s) r
      rw [hlast, stored_run_handle, ih hinit]
      split
      · rename_i hu
        rw [if_pos hu] at hreplay
        rw [← hreplay]
        exact parse_serialize_iff.mpr fun c hc => clean_of_mem_replay h hc
      · rename_i hu
        rw [hreplay, if_neg hu]

/-- The abstract list has what cannot be written down as soon as it is added. -/
theorem addClean_of_replay
    (h : ∀ done, done <+: rs → ∀ c ∈ replay user (stored user s) done, Clean c) : AddClean user rs := by
  intro r hr hu c hadd
  obtain ⟨before, after, rfl⟩ := List.append_of_mem hr
  refine h (before ++ [r]) ⟨after, by simp⟩ c ?_
  rw [replay_concat, if_pos hu]
  exact Request.added_mem_onList hadd

/--
**When the contacts are a list.**

After every request, the answer of the handler is that of the abstract list if and only if
no name that is added has a tab or a line feed and no address a line feed. Exactly then the
lists these requests build are read back from what is written for them.
-/
theorem shows_replay_iff (user : Bytes) (s : Store Cell Bytes) (rs : List Request) :
    ((∀ done, done <+: rs → (run (handleContactsList user) (runAll done s)).1 =
        contactsAnswer (replay user (stored user s) done)) ↔ AddClean user rs) ∧
      ((∀ done, done <+: rs → parseContactsBlob (contactsBlobSerialize (replay user (stored user s) done)) =
        replay user (stored user s) done) ↔ AddClean user rs) := by
  have hclean : AddClean user rs → ∀ done, done <+: rs → AddClean user done :=
    fun h done hdone r hr => h r (hdone.subset hr)
  refine ⟨⟨fun h => ?_, fun h done hdone => ?_⟩, ⟨fun h => ?_, fun h done hdone => ?_⟩⟩
  · refine addClean_of_replay (s := s) fun done hdone c hc => ?_
    have hshown := h done hdone
    rw [run_handleContactsList] at hshown
    rw [← contactsAnswer_inj hshown] at hc
    exact clean_of_mem_parse hc
  · rw [run_handleContactsList, stored_runAll (hclean h done hdone)]
  · exact addClean_of_replay (s := s) fun done hdone => parse_serialize_iff.mp (h done hdone)
  · exact parse_serialize_iff.mpr fun c hc => clean_of_mem_replay (hclean h done hdone) hc

/-- A name with a tab in it. -/
def tabbed : Request := .add (ascii "u") (ascii "name=a%09b&email=e")

theorem not_shows_replay_tabbed : ¬ ∀ (user : Bytes) (rs : List Request),
    (run (handleContactsList user) (runAll rs fun _ => none)).1 = contactsAnswer (replay user [] rs) := by
  intro h
  have hshown := h (ascii "u") [tabbed]
  rw [run_handleContactsList] at hshown
  exact absurd (contactsAnswer_inj hshown) (by decide +kernel)

end NCloud.Frontend.Contacts
