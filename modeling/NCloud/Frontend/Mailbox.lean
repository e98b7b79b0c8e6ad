import NCloud.Frontend.Mail

/-!
# Moving messages

`handle_delete_email` and `handle_restore_email` side by side on one mailbox. A request
puts the message into its target list and then takes it out of its source list. In
between it counts on the first list. A request that moves the same message the other
way takes it out of just that list, and then both have taken it out.

As long as no message is taken out of a list that a request in the opposite direction
counts on (`Meets`), every message stays in some list. Requests that give up and take
the message back are fine while it is still where it came from and nobody else counts
on it.
-/

namespace NCloud.Frontend.Mailbox

open Process Wire KeyValue Mail

/-- The requests of the mailbox. -/
inductive Request where
  /-- `handle_delete_email` for a folder other than trash. -/
  | delete (uid folderParam : Bytes) (notTrash : normalizeFolder folderParam ≠ .trash)
  | restore (uid : Bytes)

variable (user : Bytes)

/-- What they run. -/
def Request.main : Request → FeProg Unit
  | .delete uid folderParam _ => do
      answer (.asks uid (normalizeFolder folderParam) .trash)
      answer (← handleDeleteEmail user uid folderParam)
  | .restore uid => do
      answer (.asks uid .trash .inbox)
      answer (← handleRestoreEmail user uid)

/-- A running request, and whether it has put the message into its target and not yet
taken it out of its source. -/
structure Slot where
  uid : Bytes
  source : Folder
  target : Folder
  counting : Bool

/-- It reads a list. -/
def Slot.saw (t : Slot) (f : Folder) (old : Bytes) : Slot :=
  if f = t.target ∧ joinCsv (inFront t.uid (splitCsv old)) = old ∧ t.uid ∈ splitCsv old then
    -- the message is in front already, and there is nothing to write
    { t with counting := true }
  else if f = t.source ∧ t.uid ∉ splitCsv old then { t with counting := false }
  else t

/-- It has swapped a list. -/
def Slot.swapped (t : Slot) (f : Folder) : Slot :=
  if f = t.target then { t with counting := !t.counting }
  else if f = t.source then { t with counting := false }
  else t

/-- A running request after an operation. -/
def slotAfter (t : Option Slot) : (a : Act Cell Bytes Answer) → a.Res → Option Slot
  | .answer (.asks uid source target), _ => some ⟨uid, source, target, false⟩
  | .answer _, _ => none
  | .get (.folder u f), .found old => if u = user then t.map (·.saw f old) else t
  | .cput (.folder u f) _ _, true => if u = user then t.map (·.swapped f) else t
  | _, _ => t

/-- What requests were last seen doing. -/
abbrev Past := List (Nat × Option Slot)

/-- A request, if it is running. -/
def slot (p : Past) (i : Nat) : Option Slot := (p.lookup i).getD none

/-- The running requests. -/
abbrev watch : Watch Cell Bytes Answer where
  Past := Past
  note := fun i a r _ p => (i, slotAfter user (slot p i) a r) :: p

/-- States. -/
abbrev St := Store Cell Bytes × Past

/-- The messages of a folder. -/
def uids (f : Folder) (s : Store Cell Bytes) : List Bytes := items (s (.folder user f))

/-- Operations succeed. -/
def Succeeds (_ io : Nat) (_ : Act Cell Bytes Answer) (_ : St) : Prop := 2 ≤ io

/-- Request `i`, which has put the message into its target, takes it out of its source.
No request in the opposite direction counts on it there. -/
def OutOfSource (i : Nat) (t : Slot) (σ : St) : Prop :=
  ∀ j t', j ≠ i → slot σ.2 j = some t' → t'.uid = t.uid → t'.source = t.target → t'.target = t.source →
    t'.counting = false

/-- Or it takes the message back out of its target. It is still in its source, and nobody
else counts on it. -/
def OutOfTarget (i : Nat) (t : Slot) (σ : St) : Prop :=
  t.uid ∈ uids user t.source σ.1 ∧
    ∀ j t', j ≠ i → slot σ.2 j = some t' → t'.uid = t.uid → t'.counting = false

/-- The conditions. -/
def Meets (i io : Nat) (a : Act Cell Bytes Answer) (σ : St) : Prop :=
  Succeeds i io a σ ∧ ∀ f old new t, a = .cput (.folder user f) old new →
    σ.1 (.folder user f) = some old → slot σ.2 i = some t → t.counting = true →
      (f = t.source → OutOfSource i t σ) ∧ (f = t.target → OutOfTarget user i t σ)

/-- A message is in some folder. -/
def Present (uid : Bytes) (s : Store Cell Bytes) : Prop := ∃ f, uid ∈ uids user f s

/-- The folder columns exist. -/
def Columns (s : Store Cell Bytes) : Prop := ∀ f, ∃ v, s (.folder user f) = some v

/-- The directions in which messages are moved. -/
structure Slot.Valid (t : Slot) : Prop where
  ne : t.source ≠ t.target
  notSent : t.target ≠ .sent

/-- What a request that counts on its target knows. What comes from the sent folder may
have been moved on by others. -/
structure Slot.Counts (t : Slot) (s : Store Cell Bytes) : Prop where
  moved : t.uid ∈ uids user .inbox s ∨ t.uid ∈ uids user .trash s
  there : t.source ≠ .sent → t.uid ∈ uids user t.target s

/-- The invariant. -/
structure Inv (s₀ : Store Cell Bytes) (σ : St) : Prop where
  columns : Columns user σ.1
  valid : ∀ j t, slot σ.2 j = some t → t.Valid
  counts : ∀ j t, slot σ.2 j = some t → t.counting = true → t.Counts user σ.1
  kept : ∀ uid, Present user uid s₀ → Present user uid σ.1

/-- The rules: a request is changed by itself alone. -/
def rules (s₀ : Store Cell Bytes) : Rules (watch user) where
  Inv := Inv user s₀
  Rely := fun i σ σ' => slot σ'.2 i = slot σ.2 i
  Ok := Meets user
  rely_refl := fun _ _ => rfl
  rely_trans := fun h₁ h₂ => h₂.trans h₁

variable {user} {s₀ : Store Cell Bytes} {i : Nat} {σ : St} {t : Slot} {α : Type}

/-! ## Single operations -/

theorem slot_self (i : Nat) (o : Option Slot) (p : Past) : slot ((i, o) :: p) i = o := by
  rw [slot, List.lookup_cons_self]
  rfl

theorem slot_of_ne {j : Nat} (h : j ≠ i) (o : Option Slot) (p : Past) : slot ((i, o) :: p) j = slot p j := by
  have hne : (j == i) = false := beq_false_of_ne h
  rw [slot, List.lookup_cons, hne]
  rfl

/-- Other requests are not touched. -/
theorem rely_after {io : Nat} {a : Act Cell Bytes Answer} {j : Nat} (hne : j ≠ i) :
    slot (after (watch user) i io a σ).2 j = slot σ.2 j :=
  slot_of_ne hne ..

theorem slot_after (i io : Nat) (a : Act Cell Bytes Answer) (σ : St) :
    slot (after (watch user) i io a σ).2 i = slotAfter user (slot σ.2 i) a (exec io σ.1 a).1 :=
  slot_self ..

/-- A change of request `i` alone. -/
theorem keeps_slot (h : Inv user s₀ σ) {σ' : St} (hs : σ'.1 = σ.1) (hp : ∀ j, j ≠ i → slot σ'.2 j = slot σ.2 j)
    (hvalid : ∀ t, slot σ'.2 i = some t → t.Valid)
    (hcounts : ∀ t, slot σ'.2 i = some t → t.counting = true → t.Counts user σ.1) :
    (rules user s₀).Keeps i σ σ' := by
  refine ⟨⟨by rw [hs]; exact h.columns, ?_, ?_, by rw [hs]; exact h.kept⟩, fun j hj => hp j hj⟩
  · intro j t ht
    by_cases hj : j = i
    · subst hj
      exact hvalid t ht
    · rw [hp j hj] at ht
      exact h.valid j t ht
  · intro j t ht hc
    rw [hs]
    by_cases hj : j = i
    · subst hj
      exact hcounts t ht hc
    · rw [hp j hj] at ht
      exact h.counts j t ht hc

theorem Slot.Valid.saw (h : t.Valid) (f : Folder) (old : Bytes) : (t.saw f old).Valid := by
  unfold Slot.saw
  split
  · exact ⟨h.ne, h.notSent⟩
  · split
    · exact ⟨h.ne, h.notSent⟩
    · exact h

theorem Slot.Valid.swapped (h : t.Valid) (f : Folder) : (t.swapped f).Valid := by
  unfold Slot.swapped
  split
  · exact ⟨h.ne, h.notSent⟩
  · split
    · exact ⟨h.ne, h.notSent⟩
    · exact h

/-- A message in the target of a request has been moved. -/
theorem counts_of_mem {s : Store Cell Bytes} (h : t.Valid) (hmem : t.uid ∈ uids user t.target s) :
    t.Counts user s := by
  refine ⟨?_, fun _ => hmem⟩
  cases htarget : t.target with
  | inbox => exact .inl (htarget ▸ hmem)
  | trash => exact .inr (htarget ▸ hmem)
  | sent => exact absurd htarget h.notSent

theorem counts_saw {s : Store Cell Bytes} {f : Folder} {old : Bytes} (hvalid : t.Valid)
    (hold : s (.folder user f) = some old) (h : t.counting = true → t.Counts user s)
    (hc : (t.saw f old).counting = true) : (t.saw f old).Counts user s := by
  unfold Slot.saw at hc ⊢
  split
  · rename_i hsaw
    obtain ⟨rfl, -, hmem⟩ := hsaw
    have hmem : t.uid ∈ uids user t.target s := by
      rw [uids, hold]
      exact hmem
    exact counts_of_mem ⟨hvalid.ne, hvalid.notSent⟩ hmem
  · rename_i hsaw
    rw [if_neg hsaw] at hc
    split at hc
    · exact absurd hc (by simp)
    · rename_i hgone
      rw [if_neg hgone]
      exact h hc

/-- What a read does to a request. -/
theorem slotAfter_get {o : Option Slot} {k : Cell} {r : Read Bytes} {t' : Slot}
    (h : slotAfter user o (.get k) r = some t') :
    o = some t' ∨ ∃ f old t, k = .folder user f ∧ r = .found old ∧ o = some t ∧ t' = t.saw f old := by
  cases k with
  | folder u f =>
      cases r with
      | found old =>
          have h : (if u = user then o.map (·.saw f old) else o) = some t' := h
          split at h
          · rename_i hu
            obtain ⟨t, ht, rfl⟩ := Option.map_eq_some_iff.mp h
            exact .inr ⟨f, old, t, by rw [hu], rfl, ht, rfl⟩
          · exact .inl h
      | notFound => exact .inl h
      | unavailable => exact .inl h
  | _ => exact .inl h

/-- Reads. -/
theorem keeps_get (k : Cell) (io : Nat) (h : Inv user s₀ σ) :
    (rules user s₀).Keeps i σ (after (watch user) i io (.get k) σ) := by
  refine keeps_slot h rfl (fun j hj => rely_after hj) ?_ ?_
  · intro t' ht'
    rw [slot_after] at ht'
    rcases slotAfter_get ht' with ht | ⟨f, old, t, -, -, ht, rfl⟩
    · exact h.valid i t' ht
    · exact (h.valid i t ht).saw f old
  · intro t' ht' hc
    rw [slot_after] at ht'
    rcases slotAfter_get ht' with ht | ⟨f, old, t, rfl, hr, ht, rfl⟩
    · exact h.counts i t' ht hc
    · exact counts_saw (h.valid i t ht) (cell_of_found hr) (h.counts i t ht) hc

/-- Cells that are no list. -/
def NoFolder (k : Cell) : Prop := ∀ u f, k ≠ .folder u f

theorem keeps_put {k : Cell} (hk : NoFolder k) (v : Bytes) (io : Nat) (h : Inv user s₀ σ) :
    (rules user s₀).Keeps i σ (after (watch user) i io (.put k v) σ) := by
  have hcell : ∀ f, (after (watch user) i io (.put k v) σ).1 (.folder user f) = σ.1 (.folder user f) :=
    fun f => put_of_ne (A := Answer) (fun heq => hk user f heq.symm)
  have hslot : ∀ j, slot (after (watch user) i io (.put k v) σ).2 j = slot σ.2 j := by
    intro j
    by_cases hj : j = i
    · subst hj
      rw [slot_after]
      rfl
    · exact rely_after hj
  have huids : ∀ f, uids user f (after (watch user) i io (.put k v) σ).1 = uids user f σ.1 := by
    intro f
    rw [uids, hcell f]
    rfl
  refine ⟨⟨?_, ?_, ?_, ?_⟩, fun j _ => hslot j⟩
  · intro f
    rw [hcell f]
    exact h.columns f
  · intro j t ht
    rw [hslot j] at ht
    exact h.valid j t ht
  · intro j t ht hc
    rw [hslot j] at ht
    obtain ⟨hm, hth⟩ := h.counts j t ht hc
    exact ⟨by rw [huids, huids]; exact hm, by rw [huids]; exact hth⟩
  · intro uid hp
    obtain ⟨f, hf⟩ := h.kept uid hp
    exact ⟨f, by rw [huids]; exact hf⟩

/-! ## Swaps -/

section Swap

variable {f : Folder} {old new : Bytes} {io : Nat}

/-- A swap that comes too late does nothing. -/
theorem after_cput_fail (hne : σ.1 (.folder user f) ≠ some old) :
    after (watch user) i io (.cput (.folder user f) old new) σ = (σ.1, (i, slot σ.2 i) :: σ.2) := by
  have hres : exec io σ.1 (.cput (.folder user f) old new : Act Cell Bytes Answer) = (false, σ.1) := by
    show ((decide (2 ≤ io ∧ σ.1 (.folder user f) = some old) : Bool),
      if io ≠ 0 ∧ σ.1 (.folder user f) = some old then _ else σ.1) = (false, σ.1)
    rw [if_neg (fun hc => hne hc.2), decide_eq_false (fun hc => hne hc.2)]
  simp only [after, hres]
  rfl

/-- One in time swaps the list. -/
theorem after_cput (hio : 2 ≤ io) (hold : σ.1 (.folder user f) = some old) (ht : slot σ.2 i = some t) :
    after (watch user) i io (.cput (.folder user f) old new) σ =
      (Function.update σ.1 (.folder user f) (some new), (i, some (t.swapped f)) :: σ.2) := by
  have hres : exec io σ.1 (.cput (.folder user f) old new : Act Cell Bytes Answer)
      = (true, Function.update σ.1 (.folder user f) (some new)) := by
    show ((decide (2 ≤ io ∧ σ.1 (.folder user f) = some old) : Bool),
      if io ≠ 0 ∧ σ.1 (.folder user f) = some old then _ else σ.1) = _
    rw [if_pos ⟨by omega, hold⟩, decide_eq_true ⟨hio, hold⟩]
  simp only [after, hres]
  refine Prod.ext rfl ?_
  show (i, if user = user then (slot σ.2 i).map (·.swapped f) else slot σ.2 i) :: σ.2 = _
  rw [if_pos rfl, ht]
  rfl

theorem uids_update_self (s : Store Cell Bytes) :
    uids user f (Function.update s (.folder user f) (some new)) = splitCsv new := by
  rw [uids, Function.update_self]
  rfl

theorem uids_update_of_ne {f' : Folder} (h : f' ≠ f) (s : Store Cell Bytes) :
    uids user f' (Function.update s (.folder user f) (some new)) = uids user f' s := by
  rw [uids, Function.update_of_ne (by simpa using h)]
  rfl

/-- After a swap the columns are there as before. -/
theorem columns_update (h : Columns user σ.1) :
    Columns user (Function.update σ.1 (.folder user f) (some new)) := by
  intro f'
  by_cases hf : f' = f
  · subst hf
    exact ⟨new, Function.update_self ..⟩
  · rw [Function.update_of_ne (by simpa using hf)]
    exact h f'

/-- What has to be shown of a swap. -/
theorem keeps_swap (h : Inv user s₀ σ) (ht : slot σ.2 i = some t)
    (hself : (t.swapped f).counting = true →
      (t.swapped f).Counts user (Function.update σ.1 (.folder user f) (some new)))
    (hothers : ∀ j t', j ≠ i → slot σ.2 j = some t' → t'.counting = true → t'.Counts user σ.1 →
      t'.Counts user (Function.update σ.1 (.folder user f) (some new)))
    (hkept : ∀ uid, Present user uid σ.1 →
      Present user uid (Function.update σ.1 (.folder user f) (some new))) :
    (rules user s₀).Keeps i σ
      (Function.update σ.1 (.folder user f) (some new), (i, some (t.swapped f)) :: σ.2) := by
  have hslot : ∀ j t', slot ((i, some (t.swapped f)) :: σ.2) j = some t' →
      (j = i ∧ t' = t.swapped f) ∨ (j ≠ i ∧ slot σ.2 j = some t') := by
    intro j t' hj
    by_cases hji : j = i
    · subst hji
      rw [slot_self] at hj
      exact .inl ⟨rfl, (Option.some.inj hj).symm⟩
    · rw [slot_of_ne hji] at hj
      exact .inr ⟨hji, hj⟩
  refine ⟨⟨columns_update h.columns, ?_, ?_, fun uid hp => hkept uid (h.kept uid hp)⟩,
    fun j hj => slot_of_ne hj ..⟩
  · intro j t' hj
    rcases hslot j t' hj with ⟨-, rfl⟩ | ⟨-, hj⟩
    · exact (h.valid i t ht).swapped f
    · exact h.valid j t' hj
  · intro j t' hj hc
    rcases hslot j t' hj with ⟨-, rfl⟩ | ⟨hji, hj⟩
    · exact hself hc
    · exact hothers j t' hji hj hc (h.counts j t' hj hc)

/-- What a request knows as long as the lists that hold its message go on holding it. -/
theorem counts_of_within {s s' : Store Cell Bytes}
    (hw : ∀ f', t.uid ∈ uids user f' s → t.uid ∈ uids user f' s') (h : t.Counts user s) :
    t.Counts user s' :=
  ⟨h.moved.imp (hw .inbox) (hw .trash), fun hs => hw t.target (h.there hs)⟩

/-- The message goes into the target. -/
theorem keeps_insert (h : Inv user s₀ σ) (ht : slot σ.2 i = some t) (hold : σ.1 (.folder user t.target) = some old)
    (hnew : splitCsv new = inFront t.uid (splitCsv old)) :
    (rules user s₀).Keeps i σ (Function.update σ.1 (.folder user t.target) (some new),
      (i, some (t.swapped t.target)) :: σ.2) := by
  have hgrow : ∀ f' x, x ∈ uids user f' σ.1 →
      x ∈ uids user f' (Function.update σ.1 (.folder user t.target) (some new)) := by
    intro f' x hx
    by_cases hf : f' = t.target
    · subst hf
      rw [uids_update_self, hnew]
      rw [uids, hold] at hx
      exact mem_inFront.mpr (.inr hx)
    · rw [uids_update_of_ne hf]
      exact hx
  refine keeps_swap h ht ?_ ?_ ?_
  · intro _
    refine counts_of_mem ((h.valid i t ht).swapped t.target) ?_
    rw [Slot.swapped, if_pos rfl, uids_update_self, hnew]
    exact mem_inFront.mpr (.inl rfl)
  · exact fun j t' _ _ _ hc => counts_of_within (fun f' => hgrow f' t'.uid) hc
  · rintro uid ⟨f', hf'⟩
    exact ⟨f', hgrow f' uid hf'⟩

/-- Taking a message out of a list. -/
theorem mem_uids_remove (hold : σ.1 (.folder user f) = some old)
    (hnew : splitCsv new = (splitCsv old).filter (· ≠ t.uid)) {f' : Folder} {x : Bytes}
    (hx : x ∈ uids user f' σ.1) (hne : x ≠ t.uid ∨ f' ≠ f) :
    x ∈ uids user f' (Function.update σ.1 (.folder user f) (some new)) := by
  by_cases hf : f' = f
  · subst hf
    rw [uids_update_self, hnew, List.mem_filter]
    rw [uids, hold] at hx
    refine ⟨hx, decide_eq_true ?_⟩
    rcases hne with hne | hne
    · exact hne
    · exact absurd rfl hne
  · rw [uids_update_of_ne hf]
    exact hx

/-- Between inbox and trash there are only two directions. -/
theorem source_of_target {t' : Slot} (h : t.Valid) (h' : t'.Valid) (hsent : t'.source ≠ .sent)
    (heq : t'.target = t.source) : t'.source = t.target := by
  have hne := h.ne
  have hns := h.notSent
  have hne' := h'.ne
  have hns' := h'.notSent
  rw [heq] at hne' hns'
  cases hs : t.source <;> cases ht : t.target <;> cases hs' : t'.source <;> simp_all

/-- The message leaves the source. -/
theorem keeps_outOfSource (h : Inv user s₀ σ) (ht : slot σ.2 i = some t) (hc : t.counting = true)
    (hold : σ.1 (.folder user t.source) = some old)
    (hnew : splitCsv new = (splitCsv old).filter (· ≠ t.uid)) (hok : OutOfSource i t σ) :
    (rules user s₀).Keeps i σ (Function.update σ.1 (.folder user t.source) (some new),
      (i, some (t.swapped t.source)) :: σ.2) := by
  have hvalid := h.valid i t ht
  have hcounts := h.counts i t ht hc
  -- where the message is now, and where it will be afterwards
  obtain ⟨g, hg, hgs, hgone⟩ : ∃ g, t.uid ∈ uids user g σ.1 ∧ g ≠ t.source ∧ (g = .inbox ∨ g = .trash) := by
    by_cases hsent : t.source = .sent
    · rcases hcounts.moved with hm | hm
      · exact ⟨.inbox, hm, by simp [hsent], .inl rfl⟩
      · exact ⟨.trash, hm, by simp [hsent], .inr rfl⟩
    · refine ⟨t.target, hcounts.there hsent, Ne.symm hvalid.ne, ?_⟩
      cases htarget : t.target with
      | inbox => exact .inl rfl
      | trash => exact .inr rfl
      | sent => exact absurd htarget hvalid.notSent
  refine keeps_swap h ht ?_ ?_ ?_
  · intro hcount
    rw [Slot.swapped, if_neg hvalid.ne, if_pos rfl] at hcount
    exact absurd hcount (by simp)
  · intro j t' hj ht' hc' hcounts'
    by_cases huid : t'.uid = t.uid
    · refine ⟨?_, ?_⟩
      · have hg' := mem_uids_remove hold hnew hg (.inr hgs)
        rw [huid]
        rcases hgone with rfl | rfl
        · exact .inl hg'
        · exact .inr hg'
      · intro hsent
        refine mem_uids_remove hold hnew (hcounts'.there hsent) (.inr ?_)
        intro heq
        -- a request in the opposite direction would be counting on this list
        have hopp := source_of_target hvalid (h.valid j t' ht') hsent heq
        rw [hok j t' hj ht' huid hopp heq] at hc'
        exact absurd hc' (by simp)
    · exact counts_of_within (fun f' hf' => mem_uids_remove hold hnew hf' (.inl huid)) hcounts'
  · rintro uid ⟨f', hf'⟩
    by_cases huid : uid = t.uid
    · subst huid
      exact ⟨g, mem_uids_remove hold hnew hg (.inr hgs)⟩
    · exact ⟨f', mem_uids_remove hold hnew hf' (.inl huid)⟩

/-- Or it leaves the target again. -/
theorem keeps_outOfTarget (h : Inv user s₀ σ) (ht : slot σ.2 i = some t) (hc : t.counting = true)
    (hold : σ.1 (.folder user t.target) = some old)
    (hnew : splitCsv new = (splitCsv old).filter (· ≠ t.uid)) (hok : OutOfTarget user i t σ) :
    (rules user s₀).Keeps i σ (Function.update σ.1 (.folder user t.target) (some new),
      (i, some (t.swapped t.target)) :: σ.2) := by
  obtain ⟨hthere, hnobody⟩ := hok
  refine keeps_swap h ht ?_ ?_ ?_
  · intro hcount
    rw [Slot.swapped, if_pos rfl] at hcount
    exact absurd hcount (by simp [hc])
  · intro j t' hj ht' hc' hcounts'
    have huid : t'.uid ≠ t.uid := by
      intro huid
      rw [hnobody j t' hj ht' huid] at hc'
      exact absurd hc' (by simp)
    exact counts_of_within (fun f' hf' => mem_uids_remove hold hnew hf' (.inl huid)) hcounts'
  · rintro uid ⟨f', hf'⟩
    by_cases huid : uid = t.uid
    · subst huid
      exact ⟨t.source, mem_uids_remove hold hnew hthere (.inr (h.valid i t ht).ne)⟩
    · exact ⟨f', mem_uids_remove hold hnew hf' (.inl huid)⟩

end Swap

/-! ## Programs -/

theorem safe_get (k : Cell) {f : Read Bytes → FeProg α} {Q : α → St → Prop}
    (hf : ∀ (σ₁ : St) r, Inv user s₀ σ₁ → slot σ₁.2 i = slotAfter user (slot σ.2 i) (.get k) r →
      (∀ v, r = .found v → σ₁.1 k = some v) → (r = .notFound → σ₁.1 k = none) →
      (rules user s₀).Safe (Request.main user) i (f r) Q σ₁) :
    (rules user s₀).Safe (Request.main user) i (getStatus k >>= f) Q σ := by
  refine Rules.safe_act ?_
  intro σ₁ io hr hi _
  have hkeep := keeps_get (i := i) k io hi
  refine ⟨hkeep, hf _ _ hkeep.inv ?_ (fun v hv => cell_of_found hv) (fun hv => cell_of_notFound hv)⟩
  rw [slot_after, show slot σ₁.2 i = slot σ.2 i from hr]

theorem safe_put {k : Cell} (hk : NoFolder k) (v : Bytes) {f : Bool → FeProg α} {Q : α → St → Prop}
    (hf : ∀ (σ₁ : St) ok, Inv user s₀ σ₁ → slot σ₁.2 i = slot σ.2 i →
      (rules user s₀).Safe (Request.main user) i (f ok) Q σ₁) :
    (rules user s₀).Safe (Request.main user) i (put k v >>= f) Q σ := by
  refine Rules.safe_act ?_
  intro σ₁ io hr hi _
  have hkeep := keeps_put (i := i) hk v io hi
  refine ⟨hkeep, hf _ _ hkeep.inv ?_⟩
  rw [slot_after, show slot σ₁.2 i = slot σ.2 i from hr]
  rfl

theorem safe_copyIndex {f : Folder} {next : Bytes} {g : Unit → FeProg α} {Q : α → St → Prop}
    (hi : Inv user s₀ σ) (hg : ∀ σ₁ : St, Inv user s₀ σ₁ → slot σ₁.2 i = slot σ.2 i →
      (rules user s₀).Safe (Request.main user) i (g ()) Q σ₁) :
    (rules user s₀).Safe (Request.main user) i (copyIndex user f next >>= g) Q σ := by
  unfold copyIndex
  split
  · exact safe_put (k := .index user) (fun _ _ => nofun) _ (fun σ₁ _ => hg σ₁)
  · exact hg σ hi rfl

/-- A swap by a request whose slot is `t`, under what has to be shown if it is in time. -/
theorem safe_cput {f : Folder} {old new : Bytes} {g : Bool → FeProg α} {Q : α → St → Prop}
    (ht : slot σ.2 i = some t)
    (hin : ∀ σ₁ : St, Inv user s₀ σ₁ → slot σ₁.2 i = some t → σ₁.1 (.folder user f) = some old →
      Meets user i 2 (.cput (.folder user f) old new) σ₁ →
      (rules user s₀).Keeps i σ₁ (Function.update σ₁.1 (.folder user f) (some new),
        (i, some (t.swapped f)) :: σ₁.2))
    (hok : ∀ σ₁ : St, Inv user s₀ σ₁ → slot σ₁.2 i = some (t.swapped f) →
      (rules user s₀).Safe (Request.main user) i (g true) Q σ₁)
    (hfail : ∀ σ₁ : St, Inv user s₀ σ₁ → slot σ₁.2 i = some t →
      (rules user s₀).Safe (Request.main user) i (g false) Q σ₁) :
    (rules user s₀).Safe (Request.main user) i (cput (.folder user f) old new >>= g) Q σ := by
  refine Rules.safe_act ?_
  intro σ₁ io hr hi hmeets
  have ht₁ : slot σ₁.2 i = some t := (show slot σ₁.2 i = slot σ.2 i from hr).trans ht
  have hio : 2 ≤ io := hmeets.1
  by_cases hold : σ₁.1 (.folder user f) = some old
  · have hkeep := hin σ₁ hi ht₁ hold ⟨Nat.le_refl 2, hmeets.2⟩
    have hres : (exec io σ₁.1 (.cput (.folder user f) old new : Act Cell Bytes Answer)).1 = true :=
      decide_eq_true ⟨hio, hold⟩
    rw [after_cput hio hold ht₁, hres]
    exact ⟨hkeep, hok _ hkeep.inv (slot_self ..)⟩
  · have hres : (exec io σ₁.1 (.cput (.folder user f) old new : Act Cell Bytes Answer)).1 = false :=
      decide_eq_false (fun h => hold h.2)
    have hkeep : (rules user s₀).Keeps i σ₁ (σ₁.1, (i, slot σ₁.2 i) :: σ₁.2) := by
      refine keeps_slot hi rfl (fun j hj => slot_of_ne hj ..) ?_ ?_
      · intro t' ht'
        rw [slot_self] at ht'
        exact hi.valid i t' ht'
      · intro t' ht'
        rw [slot_self] at ht'
        exact hi.counts i t' ht'
    rw [after_cput_fail hold, hres]
    exact ⟨hkeep, hfail _ hkeep.inv ((slot_self ..).trans ht₁)⟩

/-- A list is never missing. -/
theorem found_of_columns {f : Folder} {r : Read Bytes} (hi : Inv user s₀ σ)
    (hmiss : r = .notFound → σ.1 (.folder user f) = none) : r ≠ .notFound := by
  intro hr
  obtain ⟨v, hv⟩ := hi.columns f
  rw [hmiss hr] at hv
  exact absurd hv (by simp)

theorem slotAfter_found {f : Folder} {old : Bytes} :
    slotAfter user (some t) (.get (.folder user f)) (.found old) = some (t.saw f old) := if_pos rfl

/-- **`prepend_uid_to_folder`: once it has succeeded the request counts on its target.** -/
theorem safe_prependLoop (hvalid : t.Valid) (hclean : CleanItem t.uid) (hc : t.counting = false)
    (attempts : Nat) (ht : slot σ.2 i = some t) :
    (rules user s₀).Safe (Request.main user) i (prependLoop user t.target t.uid attempts)
      (fun ok σ => slot σ.2 i = some { t with counting := ok }) σ := by
  have hoff : t = { t with counting := false } := by rw [← hc]
  induction attempts generalizing σ with
  | zero =>
      intro σ₁ hr _
      rw [← hoff]
      exact (show slot σ₁.2 i = slot σ.2 i from hr).trans ht
  | succ attempts ih =>
      refine safe_get _ ?_
      intro σ₁ r hi₁ hslot hfound hmiss
      rw [ht] at hslot
      cases r with
      | notFound => exact absurd rfl (found_of_columns hi₁ hmiss)
      | unavailable => exact ih hslot
      | found old =>
          have hnext := splitCsv_inFront hclean old
          rw [slotAfter_found] at hslot
          show (rules user s₀).Safe (Request.main user) i (if _ then _ else _) _ σ₁
          split
          · rename_i heq
            have hmem : t.uid ∈ splitCsv old := by
              rw [← heq, hnext]
              exact mem_inFront.mpr (.inl rfl)
            refine safe_copyIndex hi₁ (fun σ₂ _ hs₂ σ₃ hr₃ _ => ?_)
            rw [show slot σ₃.2 i = slot σ₂.2 i from hr₃, hs₂, hslot, Slot.saw, if_pos ⟨rfl, heq, hmem⟩]
          · rename_i hne
            have hsame : t.saw t.target old = t := by
              rw [Slot.saw, if_neg (fun h => hne h.2.1), if_neg (fun h => hvalid.ne h.1.symm)]
            rw [hsame] at hslot
            refine safe_cput hslot ?_ ?_ (fun σ₂ _ ht₂ => ih ht₂)
            · intro σ₂ hi₂ ht₂ hold _
              exact keeps_insert hi₂ ht₂ hold hnext
            · intro σ₂ hi₂ ht₂
              refine safe_copyIndex hi₂ (fun σ₃ _ hs₃ σ₄ hr₄ _ => ?_)
              rw [show slot σ₄.2 i = slot σ₃.2 i from hr₄, hs₃, ht₂, Slot.swapped, if_pos rfl, hc]
              rfl

theorem splitCsv_remove (uid old : Bytes) :
    splitCsv (joinCsv ((splitCsv old).filter (· ≠ uid))) = (splitCsv old).filter (· ≠ uid) :=
  splitCsv_joinCsv (fun _ hx => clean_of_mem_splitCsv (List.mem_filter.mp hx).1)

/-- **`remove_uid_from_folder` on the source: the request no longer counts on its target.** -/
theorem safe_removeSource (hvalid : t.Valid) (hc : t.counting = true) (attempts : Nat)
    (ht : slot σ.2 i = some t) :
    (rules user s₀).Safe (Request.main user) i (removeLoop user t.source t.uid attempts)
      (fun ok σ => ok = false → slot σ.2 i = some t) σ := by
  induction attempts generalizing σ with
  | zero => exact fun σ₁ hr _ _ => (show slot σ₁.2 i = slot σ.2 i from hr).trans ht
  | succ attempts ih =>
      refine safe_get _ ?_
      intro σ₁ r hi₁ hslot hfound hmiss
      rw [ht] at hslot
      cases r with
      | notFound => exact absurd rfl (found_of_columns hi₁ hmiss)
      | unavailable => exact ih hslot
      | found old =>
          rw [slotAfter_found] at hslot
          show (rules user s₀).Safe (Request.main user) i (if _ then _ else _) _ σ₁
          split
          · exact fun _ _ _ h => absurd h (by simp)
          · rename_i hmem
            have hsame : t.saw t.source old = t := by
              rw [Slot.saw, if_neg (fun h => hvalid.ne h.1), if_neg (fun h => hmem h.2)]
            rw [hsame] at hslot
            refine safe_cput hslot ?_ ?_ (fun σ₂ _ ht₂ => ih ht₂)
            · intro σ₂ hi₂ ht₂ hold hmeets
              exact keeps_outOfSource hi₂ ht₂ hc hold (splitCsv_remove t.uid old)
                ((hmeets.2 _ _ _ t rfl hold ht₂ hc).1 rfl)
            · exact fun σ₂ hi₂ _ => safe_copyIndex hi₂ (fun _ _ _ _ _ _ h => absurd h (by simp))

/-- **On the target, when the request gives up.** -/
theorem safe_removeTarget (hvalid : t.Valid) (hc : t.counting = true) (attempts : Nat)
    (ht : slot σ.2 i = some t) :
    (rules user s₀).Safe (Request.main user) i (removeLoop user t.target t.uid attempts)
      (fun _ _ => True) σ := by
  induction attempts generalizing σ with
  | zero => exact fun _ _ _ => trivial
  | succ attempts ih =>
      refine safe_get _ ?_
      intro σ₁ r hi₁ hslot hfound hmiss
      rw [ht] at hslot
      cases r with
      | notFound => exact absurd rfl (found_of_columns hi₁ hmiss)
      | unavailable => exact ih hslot
      | found old =>
          rw [slotAfter_found] at hslot
          have hsame : t.saw t.target old = t := by
            rw [Slot.saw]
            split
            · rw [← hc]
            · rw [if_neg (fun h => hvalid.ne h.1.symm)]
          rw [hsame] at hslot
          show (rules user s₀).Safe (Request.main user) i (if _ then _ else _) _ σ₁
          split
          · exact fun _ _ _ => trivial
          · refine safe_cput hslot ?_ ?_ (fun σ₂ _ ht₂ => ih ht₂)
            · intro σ₂ hi₂ ht₂ hold hmeets
              exact keeps_outOfTarget hi₂ ht₂ hc hold (splitCsv_remove t.uid old)
                ((hmeets.2 _ _ _ t rfl hold ht₂ hc).2 rfl)
            · exact fun σ₂ hi₂ _ => safe_copyIndex hi₂ (fun _ _ _ _ _ _ => trivial)

/-- Answers that end a request. -/
def IsLast : Answer → Prop
  | .asks _ _ _ => False
  | _ => True

/-- **A move is safe.** -/
theorem safe_moveUid (hvalid : t.Valid) (hclean : CleanItem t.uid) (hc : t.counting = false)
    (hi : Inv user s₀ σ) (ht : slot σ.2 i = some t) (failed : String) {ans : Answer} (hans : IsLast ans) :
    (rules user s₀).Safe (Request.main user) i (moveUid user t.uid t.source t.target failed ans)
      (fun ans _ => IsLast ans) σ := by
  have hvalid' : Slot.Valid { t with counting := true } := ⟨hvalid.ne, hvalid.notSent⟩
  refine Logic.Safe.bind ((safe_prependLoop hvalid hclean hc 16 ht).weaken ?_) hi
  intro ok σ₁ _ hok hi₁
  cases ok with
  | false => exact fun _ _ _ => trivial
  | true =>
      refine Logic.Safe.bind ((safe_removeSource hvalid' rfl 12 hok).weaken ?_) hi₁
      intro ok σ₂ _ hok₂ hi₂
      cases ok with
      | true => exact fun _ _ _ => hans
      | false =>
          exact Logic.Safe.bind ((safe_removeTarget hvalid' rfl 12 (hok₂ rfl)).weaken
            (fun _ _ _ _ _ _ _ _ => trivial)) hi₂

/-- Reading a cell that tells the request nothing new. -/
theorem safe_getStr {k : Cell} (hk : ∀ r, slotAfter user (some t) (.get k) r = some t)
    (ht : slot σ.2 i = some t) {g : Bytes → FeProg α} {Q : α → St → Prop}
    (hg : ∀ (σ₁ : St) v, Inv user s₀ σ₁ → slot σ₁.2 i = some t →
      (rules user s₀).Safe (Request.main user) i (g v) Q σ₁) :
    (rules user s₀).Safe (Request.main user) i (getStr k >>= g) Q σ := by
  refine safe_get k ?_
  intro σ₁ r hi₁ hslot _ _
  rw [ht, hk r] at hslot
  cases r with
  | found v => exact hg σ₁ v hi₁ hslot
  | notFound => exact hg σ₁ _ hi₁ hslot
  | unavailable => exact hg σ₁ _ hi₁ hslot

/-- So it is with its source before it has put the message anywhere. -/
theorem slotAfter_source (hvalid : t.Valid) (hc : t.counting = false) (r : Read Bytes) :
    slotAfter user (some t) (.get (.folder user t.source)) r = some t := by
  cases r with
  | found old =>
      rw [slotAfter_found, Slot.saw, if_neg (fun h => hvalid.ne h.1)]
      split
      · rw [← hc]
      · rfl
  | notFound => rfl
  | unavailable => rfl

/-- `uid_in_folder` on the source: what it finds can be kept in a list. -/
theorem safe_uidInFolder (hvalid : t.Valid) (hc : t.counting = false) (ht : slot σ.2 i = some t)
    {g : Bool → FeProg α} {Q : α → St → Prop}
    (hg : ∀ (σ₁ : St) found, Inv user s₀ σ₁ → slot σ₁.2 i = some t → (found = true → CleanItem t.uid) →
      (rules user s₀).Safe (Request.main user) i (g found) Q σ₁) :
    (rules user s₀).Safe (Request.main user) i (uidInFolder user t.source t.uid >>= g) Q σ := by
  have hread : ∀ (σ₁ : St) val, Inv user s₀ σ₁ → slot σ₁.2 i = some t →
      (rules user s₀).Safe (Request.main user) i (g (decide (t.uid ∈ splitCsv val))) Q σ₁ :=
    fun σ₁ val hi₁ ht₁ =>
      hg σ₁ _ hi₁ ht₁ (fun hfound => clean_of_mem_splitCsv (of_decide_eq_true hfound))
  rw [uidInFolder, folderIndex, Prog.bind_assoc, Prog.bind_assoc]
  refine safe_getStr (slotAfter_source hvalid hc) ht ?_
  intro σ₁ val hi₁ ht₁
  split
  · exact safe_getStr (fun _ => rfl) ht₁ (fun σ₂ val₂ hi₂ ht₂ => hread σ₂ val₂ hi₂ ht₂)
  · exact hread σ₁ val hi₁ ht₁

/-- **`handle_delete_email` is safe.** -/
theorem safe_handleDeleteEmail {uid folderParam : Bytes} (hnot : normalizeFolder folderParam ≠ .trash)
    (ht : slot σ.2 i = some ⟨uid, normalizeFolder folderParam, .trash, false⟩) :
    (rules user s₀).Safe (Request.main user) i (handleDeleteEmail user uid folderParam)
      (fun ans _ => IsLast ans) σ := by
  have hvalid : Slot.Valid ⟨uid, normalizeFolder folderParam, .trash, false⟩ := ⟨hnot, by simp⟩
  unfold handleDeleteEmail
  split
  · exact fun _ _ _ => trivial
  · refine safe_uidInFolder hvalid rfl ht ?_
    intro σ₁ found hi₁ ht₁ hclean
    cases found with
    | false => exact fun _ _ _ => trivial
    | true =>
        show (rules user s₀).Safe (Request.main user) i (if _ then _ else _) _ σ₁
        rw [if_neg hnot]
        exact safe_moveUid hvalid (hclean rfl) rfl hi₁ ht₁ _ trivial

/-- **`handle_restore_email` is safe.** -/
theorem safe_handleRestoreEmail {uid : Bytes} (ht : slot σ.2 i = some ⟨uid, .trash, .inbox, false⟩) :
    (rules user s₀).Safe (Request.main user) i (handleRestoreEmail user uid) (fun ans _ => IsLast ans) σ := by
  have hvalid : Slot.Valid ⟨uid, .trash, .inbox, false⟩ := ⟨by simp, by simp⟩
  unfold handleRestoreEmail
  split
  · exact fun _ _ _ => trivial
  · refine safe_uidInFolder hvalid rfl ht ?_
    intro σ₁ found hi₁ ht₁ hclean
    cases found with
    | false => exact fun _ _ _ => trivial
    | true => exact safe_moveUid hvalid (hclean rfl) rfl hi₁ ht₁ _ trivial

/-- A request comes in. -/
theorem safe_asks {uid : Bytes} {source target : Folder} (hvalid : Slot.Valid ⟨uid, source, target, false⟩)
    {p : FeProg Unit} {Q : Unit → St → Prop}
    (hp : ∀ σ₁ : St, Inv user s₀ σ₁ → slot σ₁.2 i = some ⟨uid, source, target, false⟩ →
      (rules user s₀).Safe (Request.main user) i p Q σ₁) :
    (rules user s₀).Safe (Request.main user) i (answer (.asks uid source target) >>= fun _ => p) Q σ := by
  refine Rules.safe_act ?_
  intro σ₁ io _ hi _
  have hkeep : (rules user s₀).Keeps i σ₁
      (after (watch user) i io (.answer (.asks uid source target)) σ₁) := by
    refine keeps_slot hi rfl (fun j hj => rely_after hj) ?_ ?_
    · intro t ht
      rw [slot_after] at ht
      obtain rfl := Option.some.inj ht
      exact hvalid
    · intro t ht hc
      rw [slot_after] at ht
      obtain rfl := Option.some.inj ht
      exact absurd hc (by simp)
  exact ⟨hkeep, hp _ hkeep.inv (slot_after ..)⟩

/-- It is answered. -/
theorem safe_answer {ans : Answer} (hans : IsLast ans) :
    (rules user s₀).Safe (Request.main user) i (answer ans) (fun _ _ => True) σ := by
  refine Rules.safe_act (f := fun _ => pure ()) ?_
  intro σ₁ io _ hi _
  have hslot : slot (after (watch user) i io (.answer ans) σ₁).2 i = none := by
    rw [slot_after]
    cases ans with
    | asks uid source target => exact hans.elim
    | _ => rfl
  refine ⟨keeps_slot hi rfl (fun j hj => rely_after hj) ?_ ?_, fun _ _ _ => trivial⟩
  · intro t ht
    rw [hslot] at ht
    exact absurd ht (by simp)
  · intro t ht
    rw [hslot] at ht
    exact absurd ht (by simp)

/-- **Every request is safe.** -/
theorem safe_request (q : Request) (i : Nat) :
    (rules user s₀).Safe (Request.main user) i (q.main user) (fun _ _ => True) σ := by
  cases q with
  | delete uid folderParam hnot =>
      refine safe_asks ⟨hnot, by simp⟩ (fun σ₁ hi₁ ht₁ => ?_)
      exact Logic.Safe.bind ((safe_handleDeleteEmail hnot ht₁).weaken
        (fun _ _ _ hans _ => safe_answer hans)) hi₁
  | restore uid =>
      refine safe_asks ⟨by simp, by simp⟩ (fun σ₁ hi₁ ht₁ => ?_)
      exact Logic.Safe.bind ((safe_handleRestoreEmail ht₁).weaken
        (fun _ _ _ hans _ => safe_answer hans)) hi₁

/--
**No message is dropped by moving it.**

On a mailbox whose folders exist, in every run in which operations succeed and messages
are only taken out of lists that no request in the opposite direction counts on, every
message that was in some folder still is.
-/
theorem present_of_reach {user : Bytes} {s₀ : Store Cell Bytes} (hcols : Columns user s₀)
    {c : Config (watched (watch user) (Request.main user))}
    (h : Reach (s₀, []) (When (fun i _ io a σ => Meets user i io a σ)) c) (uid : Bytes)
    (hp : Present user uid s₀) : Present user uid c.st.1 := by
  have hstart : Inv user s₀ (s₀, []) :=
    ⟨hcols, nofun, nofun, fun _ hp => hp⟩
  exact (Rules.inv_of_reach (R := rules user s₀) hstart (fun q i _ _ => safe_request q i) h).kept uid hp

/-! ## There and back -/

section BothWays

/-- A mailbox with one message. -/
def bob : Bytes := ascii "bob"

def box : Store Cell Bytes
  | .folder _ .inbox => some [117]
  | .folder _ _ => some []
  | _ => none

theorem columns_box : Columns bob box := by
  intro f
  cases f <;> exact ⟨_, rfl⟩

/-- Whether the message is anywhere. -/
def isPresent (s : Store Cell Bytes) : Bool :=
  [Folder.inbox, .sent, .trash].any (fun f => decide ([117] ∈ uids bob f s))

theorem isPresent_of_present {s : Store Cell Bytes} (h : Present bob [117] s) : isPresent s = true := by
  obtain ⟨f, hf⟩ := h
  refine List.any_eq_true.mpr ⟨f, ?_, decide_eq_true hf⟩
  cases f <;> simp

/-- The conditions, tested. -/
def nobodyTest (p : Past) (i : Nat) (bad : Slot → Bool) : Bool :=
  p.all (fun e => e.1 == i || match slot p e.1 with
    | some t => !(bad t && t.counting)
    | none => true)

theorem of_nobodyTest {p : Past} {i : Nat} {bad : Slot → Bool} (h : nobodyTest p i bad = true) {j : Nat}
    {t : Slot} (hne : j ≠ i) (hj : slot p j = some t) (hbad : bad t = true) : t.counting = false := by
  have hsome : (p.lookup j).isSome = true := by
    cases hl : p.lookup j with
    | none =>
        rw [slot, hl] at hj
        exact absurd hj (by simp)
    | some o => rfl
  obtain ⟨⟨j', o⟩, ho, hj'⟩ := List.lookup_isSome_iff.mp hsome
  obtain rfl : j = j' := eq_of_beq hj'
  have htest := List.all_eq_true.mp h (j, o) ho
  simp only [hj, hbad, Bool.true_and, Bool.or_eq_true, beq_iff_eq, Bool.not_eq_true'] at htest
  rcases htest with h | h
  · exact absurd h hne
  · exact h

def succeedsTest (_ : Nat) (_ : Unit) (io : Nat) (_ : Act Cell Bytes Answer) (_ : St) : Bool :=
  decide (2 ≤ io)

theorem succeeds_of_test (i : Nat) (l : Unit) (io : Nat) (a : Act Cell Bytes Answer) (σ : St)
    (h : succeedsTest i l io a σ = true) : Succeeds i io a σ := by
  show 2 ≤ io
  exact of_decide_eq_true h

def swapTest (i : Nat) (f : Folder) (σ : St) (t : Slot) : Bool :=
  (decide (f ≠ t.source) || nobodyTest σ.2 i
    (fun t' => decide (t'.uid = t.uid ∧ t'.source = t.target ∧ t'.target = t.source))) &&
  (decide (f ≠ t.target) || (decide (t.uid ∈ uids bob t.source σ.1) &&
    nobodyTest σ.2 i (fun t' => decide (t'.uid = t.uid))))

def meetsTest (i : Nat) (l : Unit) (io : Nat) (a : Act Cell Bytes Answer) (σ : St) : Bool :=
  succeedsTest i l io a σ &&
    match a with
    | .cput (.folder _ f) _ _ => ((slot σ.2 i).all (swapTest i f σ))
    | _ => true

theorem meets_of_test (i : Nat) (l : Unit) (io : Nat) (a : Act Cell Bytes Answer) (σ : St)
    (h : meetsTest i l io a σ = true) : Meets bob i io a σ := by
  obtain ⟨h₁, h₂⟩ := (Bool.and_eq_true _ _).mp h
  refine ⟨succeeds_of_test i l io a σ h₁, ?_⟩
  rintro f old new t rfl _ ht _
  have h₂ : (slot σ.2 i).all (swapTest i f σ) = true := h₂
  rw [ht] at h₂
  obtain ⟨hsource, htarget⟩ := (Bool.and_eq_true _ _).mp h₂
  refine ⟨?_, ?_⟩
  · rintro rfl j t' hj ht' huid hs hta
    rw [decide_eq_false (not_not_intro rfl), Bool.false_or] at hsource
    exact of_nobodyTest hsource hj ht' (decide_eq_true ⟨huid, hs, hta⟩)
  · rintro rfl
    rw [decide_eq_false (not_not_intro rfl), Bool.false_or] at htarget
    obtain ⟨hmem, hnobody⟩ := (Bool.and_eq_true _ _).mp htarget
    exact ⟨of_decide_eq_true hmem, fun j t' hj ht' huid =>
      of_nobodyTest hnobody hj ht' (decide_eq_true huid)⟩

/-- Nothing is ever sent. -/
def answers : Empty → Bool := fun c => c.elim

/-- Where the message is. -/
def whereabouts (σ : St) : List Bool :=
  [Folder.inbox, .sent, .trash].map (fun f => decide ([117] ∈ uids bob f σ.1))

/-- The message goes to the trash, and back. -/
def thereAndBack : List (Line (watched (watch bob) (Request.main bob))) :=
  [.move (.start (.delete [117] (ascii "inbox") (by decide))), .drive answers 40 0,
   .move (.start (.restore [117])), .drive answers 40 1]

theorem present_of_reach_thereAndBack : ∃ c : Config (watched (watch bob) (Request.main bob)),
    whereabouts c.st = [true, false, false] ∧ Present bob [117] c.st.1 := by
  obtain ⟨c, hr, hc⟩ := reach_of_play (when_of_test meets_of_test) (box, []) thereAndBack
    (fun σ => decide (whereabouts σ = [true, false, false])) (by decide +kernel)
  exact ⟨c, of_decide_eq_true hc, present_of_reach columns_box hr [117] ⟨.inbox, by decide⟩⟩

/-- The message is in the trash and not yet out of the inbox when it is restored. -/
def bothWays : List (Line (watched (watch bob) (Request.main bob))) :=
  [.move (.start (.delete [117] (ascii "inbox") (by decide))), .move (.act 0 2), .move (.act 0 2),
   .move (.act 0 2), .move (.act 0 2), .move (.start (.restore [117])), .drive answers 40 1,
   .drive answers 40 0]

/-- **The message is gone.** -/
theorem not_present_bothWays : ¬ ∀ c : Config (watched (watch bob) (Request.main bob)),
    Reach (box, []) (When (fun i _ io a σ => Succeeds i io a σ)) c → c.Quiet →
      ∀ uid, Present bob uid box → Present bob uid c.st.1 := by
  intro h
  obtain ⟨c, hr, hquiet, hc⟩ := quiet_of_play (when_of_test succeeds_of_test) (box, []) bothWays
    (fun σ => !isPresent σ.1) (by decide +kernel)
  have hp := isPresent_of_present (h c hr hquiet [117] ⟨.inbox, by decide⟩)
  rw [hp] at hc
  exact absurd hc (by decide)

end BothWays

end NCloud.Frontend.Mailbox
