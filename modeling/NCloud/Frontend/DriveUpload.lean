import NCloud.Frontend.Download
import NCloud.Frontend.DriveFirstUse
import NCloud.Frontend.DriveMove

/-!
# Uploads that fail

`handle_upload` writes the cells of a new file, its chunks and the list of its folder, and
if one of these fails it deletes what it knows to have written. A write that takes effect
and is reported as failed is not among this; nor is the list, which an attempt that is not
confirmed may have changed. Before all this the quota check may write the counter.
-/

namespace NCloud.Frontend.Drive

open Process Wire KeyValue

variable {user uid : Bytes} {s s' : Store Cell Bytes} {α : Type}

/-! ## What can happen -/

/-- Reads are answered and deletes succeed. -/
def OnlyWritesFail (e : Event Cell Bytes Answer) : Prop :=
  match e.act with
  | .get _ => e.io ≠ 0
  | .del _ => 2 ≤ e.io
  | _ => True

/-- A cell of an object is written, and this is reported as failed. -/
def CellUnseen (uid : Bytes) (e : Event Cell Bytes Answer) : Prop :=
  e.io = 1 ∧ ∃ k v, ObjCell uid k ∧ e.act = .put k v

/-- An object is put into a list. -/
def Lists (uid : Bytes) (e : Event Cell Bytes Answer) : Prop :=
  e.io ≠ 0 ∧ ((∃ d v, e.act = .put (.children d) v ∧ uid ∈ splitCsv v) ∨
    ∃ d old v, e.act = .cput (.children d) old v ∧ e.store (.children d) = some old ∧ uid ∈ splitCsv v)

/-- It is found in a list, or it is put there and this is reported as done. -/
def Sees (uid : Bytes) (e : Event Cell Bytes Answer) : Prop :=
  (∃ d, e.act = .get (.children d) ∧ uid ∈ kids e.store d) ∨
    2 ≤ e.io ∧ ∃ d old v, e.act = .cput (.children d) old v ∧ e.store (.children d) = some old ∧ uid ∈ splitCsv v

/-- The counter of a user is written. -/
def Recounts (user : Bytes) (e : Event Cell Bytes Answer) : Prop :=
  e.io ≠ 0 ∧ ∃ v, e.act = .put (.usedBytes user) v

/-- What stays behind when an upload fails. -/
def LeavesBehind (user uid : Bytes) (e : Event Cell Bytes Answer) : Prop :=
  CellUnseen uid e ∨ Lists uid e ∨ Recounts user e

/-- Nothing is known of a uid. -/
structure Unused (user uid : Bytes) (s : Store Cell Bytes) : Prop where
  cells : ∀ k, ObjCell uid k → s k = none
  unlisted : ∀ d, uid ∉ kids s d
  root : s (.root user) ≠ some uid

/-- What has nothing to do with a uid, nor with the counter. -/
def Unrelated (user uid : Bytes) : Act Cell Bytes Answer → Prop
  | .get _ => True
  | .put k v => ¬ ObjCell uid k ∧ (∀ d, k = .children d → uid ∉ splitCsv v) ∧ (k = .root user → v ≠ uid) ∧
      k ≠ .usedBytes user
  | _ => False

/-- A part of a run that has nothing to do with it. -/
structure Quiet (user uid : Bytes) (s s' : Store Cell Bytes) (evs : List (Event Cell Bytes Answer)) : Prop where
  unused : Unused user uid s'
  counter : s' (.usedBytes user) = s (.usedBytes user)
  unseen : ∀ e ∈ evs, ¬ Sees uid e
  nothing : ∀ e ∈ evs, ¬ LeavesBehind user uid e

theorem Quiet.refl (h : Unused user uid s) : Quiet user uid s s [] :=
  ⟨h, rfl, fun _ he => absurd he List.not_mem_nil, fun _ he => absurd he List.not_mem_nil⟩

theorem Quiet.trans {s₁ s₂ : Store Cell Bytes} {evs evs' : List (Event Cell Bytes Answer)}
    (h : Quiet user uid s s₁ evs) (h' : Quiet user uid s₁ s₂ evs') : Quiet user uid s s₂ (evs ++ evs') where
  unused := h'.unused
  counter := h'.counter.trans h.counter
  unseen := List.forall_mem_append.mpr ⟨h.unseen, h'.unseen⟩
  nothing := List.forall_mem_append.mpr ⟨h.nothing, h'.nothing⟩

/-- One operation. -/
theorem quiet_exec {a : Act Cell Bytes Answer} (ha : Unrelated user uid a) (io : Nat) (h : Unused user uid s) :
    Quiet user uid s (exec io s a).2 [⟨a, io, s⟩] := by
  cases a with
  | get k =>
      refine ⟨h, rfl, ?_, ?_⟩
      · intro e he
        obtain rfl := List.mem_singleton.mp he
        rintro (⟨d, -, hmem⟩ | ⟨-, d, old, v, hact, -⟩)
        · exact h.unlisted d hmem
        · exact absurd hact (by simp)
      · intro e he
        obtain rfl := List.mem_singleton.mp he
        rintro (⟨-, k', v, -, hact⟩ | ⟨-, ⟨d, v, hact, -⟩ | ⟨d, old, v, hact, -⟩⟩ | ⟨-, v, hact⟩) <;>
          exact absurd hact (by simp)
  | put k v =>
      obtain ⟨hcell, hlist, hroot, hcounter⟩ := ha
      refine ⟨⟨?_, ?_, ?_⟩, put_of_ne (Ne.symm hcounter), ?_, ?_⟩
      · intro k' hk'
        rw [put_of_ne (fun heq : k' = k => hcell (heq ▸ hk'))]
        exact h.cells k' hk'
      · intro d
        by_cases hk : Cell.children d = k
        · by_cases hio : io = 0
          · subst hio
            exact h.unlisted d
          · rw [kids, ← hk, put_self hio]
            exact hlist d hk.symm
        · rw [kids, put_of_ne hk]
          exact h.unlisted d
      · by_cases hk : Cell.root user = k
        · by_cases hio : io = 0
          · subst hio
            exact h.root
          · rw [← hk, put_self hio]
            exact fun heq => hroot hk.symm (Option.some.inj heq)
        · rw [put_of_ne hk]
          exact h.root
      · intro e he
        obtain rfl := List.mem_singleton.mp he
        rintro (⟨d, hact, -⟩ | ⟨-, d, old, v', hact, -⟩) <;> exact absurd hact (by simp)
      · intro e he
        obtain rfl := List.mem_singleton.mp he
        rintro (⟨-, k', v', hk', hact⟩ | ⟨-, ⟨d, v', hact, hmem⟩ | ⟨d, old, v', hact, -⟩⟩ | ⟨-, v', hact⟩)
        · obtain ⟨rfl, -⟩ := Act.put.inj hact
          exact hcell hk'
        · obtain ⟨rfl, rfl⟩ := Act.put.inj hact
          exact hlist d rfl hmem
        · exact absurd hact (by simp)
        · obtain ⟨rfl, -⟩ := Act.put.inj hact
          exact hcounter rfl
  | cput k old v => exact ha.elim
  | del k => exact ha.elim
  | answer ans => exact ha.elim

theorem quiet_get (k : Cell) (io : Nat) (h : Unused user uid s) : Quiet user uid s s [⟨.get k, io, s⟩] :=
  quiet_exec (a := .get k) trivial io h

/-- **Programs that have nothing to do with it.** -/
theorem leads_quiet {p : FeProg α} (hp : p.Only (Unrelated user uid) (fun _ => True)) (h : Unused user uid s) :
    Leads Alone p (fun _ s' evs => Quiet user uid s s' evs) s := by
  induction p generalizing s with
  | ret a => exact .refl h
  | act a k ih =>
      rintro io _ rfl
      have hstep := quiet_exec hp.1 io h
      exact (ih _ (hp.2 _) hstep.unused).mono (fun b s₂ evs hrest => hstep.trans hrest)
  | call c k => exact c.elim

theorem leads_quiet_of_gets {p : FeProg α} (hp : p.Only IsGet (fun _ => True))
    (h : Unused user uid s) : Leads Alone p (fun _ s' evs => Quiet user uid s s' evs) s := by
  refine leads_quiet (hp.mono ?_ (fun _ h => h)) h
  intro a ha
  cases a with
  | get k => trivial
  | _ => exact ha.elim

/-! ## Before the first write -/

theorem only_putAll_unrelated {l : List (Cell × Bytes)} (h : ∀ e ∈ l, Unrelated user uid (.put e.1 e.2)) :
    (putAll l).Only (Unrelated user uid) (fun _ => True) := by
  induction l with
  | nil => trivial
  | cons e l ih =>
      obtain ⟨k, v⟩ := e
      refine ⟨h _ List.mem_cons_self, fun ok => ?_⟩
      cases ok with
      | false => trivial
      | true => exact ih (fun e he => h e (List.mem_cons_of_mem _ he))

theorem unrelated_rootCells {root : Bytes} (hne : root ≠ uid) :
    ∀ e ∈ rootCells user root, Unrelated user uid (.put e.1 e.2) := by
  intro e he
  simp only [rootCells, List.mem_cons, List.not_mem_nil, or_false] at he
  rcases he with rfl | rfl | rfl | rfl <;>
    exact ⟨hne, fun d hd => absurd hd (by simp), fun hr => absurd hr (by simp), by simp⟩

theorem unrelated_rootChildren {root : Bytes} (hne : root ≠ uid) : Unrelated user uid (.put (.children root) []) :=
  ⟨hne, fun _ _ => List.not_mem_nil, fun hr => absurd hr (by simp), by simp⟩

/-- Writes in a row that have all succeeded. -/
theorem leads_putAll {l : List (Cell × Bytes)} (hl : (l.map Prod.fst).Nodup) (s : Store Cell Bytes) :
    Leads Alone (putAll l) (fun ok s' _ => (ok = true → ∀ e ∈ l, s' e.1 = some e.2) ∧
      ∀ k, k ∉ l.map Prod.fst → s' k = s k) s := by
  induction l generalizing s with
  | nil => exact ⟨fun _ e he => absurd he List.not_mem_nil, fun _ _ => rfl⟩
  | cons e l ih =>
      obtain ⟨k, v⟩ := e
      obtain ⟨hk, hl⟩ := List.nodup_cons.mp hl
      refine leads_act ?_
      rintro io _ rfl
      have hother : ∀ k', k' ∉ ((k, v) :: l).map Prod.fst → (exec (A := Answer) io s (.put k v)).2 k' = s k' :=
        fun k' hk' => put_of_ne (fun heq => hk' (heq ▸ List.mem_cons_self))
      show Leads Alone (if (!decide (2 ≤ io)) = true then _ else _) _ _
      by_cases hio : 2 ≤ io
      · rw [decide_eq_true hio, if_neg (by simp)]
        refine (ih hl _).mono ?_
        rintro ok s₁ evs ⟨hput, hframe⟩
        refine ⟨fun hok e he => ?_, fun k' hk' => ?_⟩
        · rcases List.mem_cons.mp he with rfl | he
          · rw [hframe k hk]
            exact put_self (by omega)
          · exact hput hok e he
        · rw [hframe k' (fun hmem => hk' (List.mem_cons_of_mem _ hmem))]
          exact hother k' hk'
      · rw [decide_eq_false hio, if_pos (by simp)]
        exact ⟨fun hok => absurd hok Bool.false_ne_true, hother⟩

/-- What `ensure_drive_root` leaves: a root that is not the uid, and a folder. -/
def RootedAside (user uid : Bytes) (s : Store Cell Bytes) (o : Option Bytes) (s' : Store Cell Bytes)
    (evs : List (Event Cell Bytes Answer)) : Prop :=
  Quiet user uid s s' evs ∧ ∀ x, o = some x → x ≠ uid ∧ s' (.type x) = some folder

theorem RootedAside.after {s₁ s₂ : Store Cell Bytes} {o : Option Bytes} {evs evs' : List (Event Cell Bytes Answer)}
    (h : RootedAside user uid s₁ o s₂ evs') (hq : Quiet user uid s s₁ evs) :
    RootedAside user uid s o s₂ (evs ++ evs') :=
  ⟨hq.trans h.1, h.2⟩

theorem rootedAside_none (h : Unused user uid s) : RootedAside user uid s none s [] :=
  ⟨.refl h, nofun⟩

section Root

variable {root : Bytes}

theorem rootedAside_some (h : Unused user uid s) (hne : root ≠ uid) (htype : s (.type root) = some folder) :
    RootedAside user uid s (some root) s [] := by
  refine ⟨.refl h, ?_⟩
  rintro _ ⟨⟩
  exact ⟨hne, htype⟩

/-- The list of the root is made if there is none. -/
theorem leads_rootChildren (h : Unused user uid s) (hne : root ≠ uid) (htype : s (.type root) = some folder)
    {f : Read Bytes → FeProg (Option Bytes)} (hfound : ∀ v, f (.found v) = pure (some root))
    (hun : f .unavailable = pure none)
    (hmiss : f .notFound = put (.children root) [] >>= fun ok => if !ok then pure none else pure (some root)) :
    Leads Alone (getStatus (.children root) >>= f) (RootedAside user uid s) s := by
  refine leads_act ?_
  rintro io _ rfl
  have hstep := quiet_get (.children root) io h
  cases hread : (exec io s (.get (.children root) : Act Cell Bytes Answer)).1 with
  | found v =>
      rw [hfound]
      exact (rootedAside_some h hne htype).after hstep
  | unavailable =>
      rw [hun]
      exact (rootedAside_none h).after hstep
  | notFound =>
      rw [hmiss]
      refine leads_act ?_
      rintro io' _ rfl
      have hput := hstep.trans (quiet_exec (unrelated_rootChildren hne) io' h)
      show Leads Alone (if (!decide (2 ≤ io')) = true then _ else _) _ _
      split
      · exact (rootedAside_none hput.unused).after hput
      · refine (rootedAside_some hput.unused hne ?_).after hput
        rw [put_of_ne (by simp)]
        exact htype

/-- The cells of the root are made if it is not a folder. -/
theorem leads_rootType (h : Unused user uid s) (hne : root ≠ uid) {f : Read Bytes → FeProg (Option Bytes)}
    (rest : Bool → FeProg (Option Bytes)) (hfalse : rest false = pure none)
    (htrue : ∀ s', Unused user uid s' → s' (.type root) = some folder →
      Leads Alone (rest true) (RootedAside user uid s') s')
    (hun : f .unavailable = pure none) (hmiss : f .notFound = putAll (rootCells user root) >>= rest)
    (hfound : ∀ t, f (.found t) = if t ≠ folder then putAll (rootCells user root) >>= rest else rest true) :
    Leads Alone (getStatus (.type root) >>= f) (RootedAside user uid s) s := by
  refine leads_act ?_
  rintro io _ rfl
  have hstep := quiet_get (.type root) io h
  have hmake : Leads Alone (putAll (rootCells user root) >>= rest)
      (fun o s' evs => RootedAside user uid s o s' (⟨.get (.type root), io, s⟩ :: evs)) s := by
    have hcells : (putAll (rootCells user root)).Only (Unrelated user uid) (fun _ => True) :=
      only_putAll_unrelated (unrelated_rootCells hne)
    refine Leads.bind (((leads_quiet hcells h).and (leads_putAll (by simp [rootCells]) s)).mono ?_)
    rintro ok s₁ evs ⟨hquiet, hput, -⟩
    have hboth := hstep.trans hquiet
    cases ok with
    | false =>
        rw [hfalse]
        exact (rootedAside_none hquiet.unused).after hboth
    | true =>
        have htype : s₁ (.type root) = some folder := hput rfl (.type root, folder) List.mem_cons_self
        exact (htrue s₁ hquiet.unused htype).mono (fun o s₂ evs₂ hrest => hrest.after hboth)
  cases hread : (exec io s (.get (.type root) : Act Cell Bytes Answer)).1 with
  | unavailable =>
      rw [hun]
      exact (rootedAside_none h).after hstep
  | notFound =>
      rw [hmiss]
      exact hmake
  | found t =>
      rw [hfound]
      split
      · exact hmake
      · rename_i ht
        have htype : s (.type root) = some folder := not_not.mp ht ▸ cell_of_found hread
        exact (htrue s h htype).mono (fun o s₂ evs₂ hrest => hrest.after hstep)

end Root

/-- **`ensure_drive_root`** does not return the uid, nor put it anywhere. -/
theorem leads_ensureDriveRoot (hnew : newRoot user ≠ uid) (h : Unused user uid s) :
    Leads Alone (ensureDriveRoot user) (RootedAside user uid s) s := by
  rw [ensureDriveRoot]
  refine leads_act ?_
  rintro io _ rfl
  have hstep := quiet_get (.root user) io h
  cases hread : (exec io s (.get (.root user) : Act Cell Bytes Answer)).1 with
  | unavailable => exact (rootedAside_none h).after hstep
  | notFound =>
      have hcells : ∀ e ∈ (Cell.root user, newRoot user) :: rootCells user (newRoot user) ++
          [(Cell.children (newRoot user), [])], Unrelated user uid (.put e.1 e.2) := by
        intro e he
        rcases List.mem_append.mp he with he | he
        · rcases List.mem_cons.mp he with rfl | he
          · exact ⟨id, fun d hd => absurd hd (by simp), fun _ => hnew, by simp⟩
          · exact unrelated_rootCells hnew e he
        · obtain rfl := List.mem_singleton.mp he
          exact unrelated_rootChildren hnew
      refine Leads.bind (((leads_quiet (only_putAll_unrelated hcells) h).and
        (leads_putAll (by simp [rootCells]) s)).mono ?_)
      rintro ok s₁ evs ⟨hquiet, hput, -⟩
      have hboth := hstep.trans hquiet
      cases ok with
      | false => exact (rootedAside_none hquiet.unused).after hboth
      | true =>
          refine (rootedAside_some hquiet.unused hnew ?_).after hboth
          exact hput rfl (.type (newRoot user), folder) (by simp [rootCells])
  | found root =>
      have hne : root ≠ uid := fun heq => h.root (heq ▸ cell_of_found hread)
      show Leads Alone (if root = [] then _ else _) _ s
      split
      · exact (rootedAside_none h).after hstep
      · refine (leads_rootType h hne (FirstUse.openRoot root) rfl ?_ rfl rfl (fun t => rfl)).mono
          (fun o s₂ evs₂ hrest => hrest.after hstep)
        exact fun s' h' htype => leads_rootChildren h' hne htype (fun _ => rfl) rfl rfl

/-- **`resolve_path`** does not lead to the uid. -/
theorem leads_resolvePath (hnew : newRoot user ≠ uid) (h : Unused user uid s) (path : Bytes) :
    Leads Alone (resolvePath user path) (fun o s' evs => Quiet user uid s s' evs ∧ ∀ q, o = some q → q.1 ≠ uid) s := by
  refine Leads.bind ((leads_ensureDriveRoot hnew h).mono ?_)
  rintro root s₁ evs ⟨hquiet, hroot⟩
  cases root with
  | none => exact ⟨by simpa using hquiet, nofun⟩
  | some root =>
      have hne := (hroot root rfl).1
      show Leads Alone (if path = [] ∨ path = [slash] then _ else _) _ s₁
      split
      · refine ⟨by simpa using hquiet, ?_⟩
        rintro _ ⟨⟩
        exact hne
      · refine Leads.bind (((looks_walk .self (pathParts path)).and
          (leads_quiet_of_gets (FirstUse.only_walk root (pathParts path)) hquiet.unused)).mono ?_)
        rintro cur s₂ evs₂ ⟨⟨rfl, -, hcur⟩, hwalk⟩
        have hboth := hquiet.trans hwalk
        cases cur with
        | none => exact ⟨by simpa using hboth, nofun⟩
        | some cur =>
            have hcur' : cur ≠ uid := by
              cases hcur cur rfl with
              | self => exact hne
              | child _ hmem => exact fun heq => hwalk.unused.unlisted _ (heq ▸ hmem)
            refine Leads.bind ((leads_quiet_of_gets (only_getStr (.type cur)) hwalk.unused).mono ?_)
            rintro type s₃ evs₃ htype
            refine ⟨?_, ?_⟩
            · have hall := hboth.trans htype
              rw [List.append_assoc] at hall
              simpa using hall
            · rintro _ ⟨⟩
              exact hcur'

/-! ## The quota check -/

/-- A part of a run that may write the counter: whether it has changed shows in the
operations. -/
structure Checked (user uid : Bytes) (s s' : Store Cell Bytes) (evs : List (Event Cell Bytes Answer)) : Prop where
  unused : Unused user uid s'
  unseen : ∀ e ∈ evs, ¬ Sees uid e
  cells : ∀ e ∈ evs, ¬ CellUnseen uid e
  lists : ∀ e ∈ evs, ¬ Lists uid e
  counter : s' (.usedBytes user) = s (.usedBytes user) ∧ (∀ e ∈ evs, ¬ Recounts user e) ∨
    s' (.usedBytes user) ≠ s (.usedBytes user) ∧ (∃ n, n < 2 ^ 64 ∧ s' (.usedBytes user) = some (Decimal.text n)) ∧
      ∃ e ∈ evs, Recounts user e

theorem Quiet.checked {evs : List (Event Cell Bytes Answer)} (h : Quiet user uid s s' evs) :
    Checked user uid s s' evs where
  unused := h.unused
  unseen := h.unseen
  cells := fun e he hcell => h.nothing e he (.inl hcell)
  lists := fun e he hlist => h.nothing e he (.inr (.inl hlist))
  counter := .inl ⟨h.counter, fun e he hcount => h.nothing e he (.inr (.inr hcount))⟩

/-- A counter that has been written once can be read from then on. -/
theorem Checked.trans {s₁ s₂ : Store Cell Bytes} {evs evs' : List (Event Cell Bytes Answer)}
    (h : Checked user uid s s₁ evs) (h' : Checked user uid s₁ s₂ evs')
    (hread : s₁ (.usedBytes user) ≠ s (.usedBytes user) →
      Decimal.stoul ((s (.usedBytes user)).getD []) = none) :
    Checked user uid s s₂ (evs ++ evs') where
  unused := h'.unused
  unseen := List.forall_mem_append.mpr ⟨h.unseen, h'.unseen⟩
  cells := List.forall_mem_append.mpr ⟨h.cells, h'.cells⟩
  lists := List.forall_mem_append.mpr ⟨h.lists, h'.lists⟩
  counter := by
    rcases h.counter with ⟨hsame, hnone⟩ | ⟨hdiff, ⟨n, hn, htext⟩, e, he, hcount⟩
    · rcases h'.counter with ⟨hsame', hnone'⟩ | ⟨hdiff', htext', e, he, hcount⟩
      · exact .inl ⟨hsame'.trans hsame, List.forall_mem_append.mpr ⟨hnone, hnone'⟩⟩
      · rw [hsame] at hdiff'
        exact .inr ⟨hdiff', htext', e, List.mem_append_right _ he, hcount⟩
    · refine .inr ?_
      have hafter : ∀ m, m < 2 ^ 64 → s₂ (.usedBytes user) = some (Decimal.text m) →
          s₂ (.usedBytes user) ≠ s (.usedBytes user) := by
        intro m hm heq hsame
        have hparse := hread hdiff
        rw [← hsame, heq, Option.getD_some, Decimal.stoul_text hm] at hparse
        exact absurd hparse (by simp)
      rcases h'.counter with ⟨hsame', -⟩ | ⟨-, ⟨m, hm, htext'⟩, -⟩
      · rw [← hsame'] at htext
        exact ⟨hafter n hn htext, ⟨n, hn, htext⟩, e, List.mem_append_left _ he, hcount⟩
      · exact ⟨hafter m hm htext', ⟨m, hm, htext'⟩, e, List.mem_append_left _ he, hcount⟩

theorem Checked.quiet {s₁ s₂ : Store Cell Bytes} {evs evs' : List (Event Cell Bytes Answer)}
    (h : Checked user uid s s₁ evs) (h' : Quiet user uid s₁ s₂ evs') : Checked user uid s s₂ (evs ++ evs') where
  unused := h'.unused
  unseen := List.forall_mem_append.mpr ⟨h.unseen, h'.unseen⟩
  cells := List.forall_mem_append.mpr ⟨h.cells, h'.checked.cells⟩
  lists := List.forall_mem_append.mpr ⟨h.lists, h'.checked.lists⟩
  counter := by
    rw [h'.counter]
    rcases h.counter with ⟨hsame, hnone⟩ | ⟨hdiff, htext, e, he, hcount⟩
    · exact .inl ⟨hsame, List.forall_mem_append.mpr ⟨hnone, fun e he hcount => h'.nothing e he (.inr (.inr hcount))⟩⟩
    · exact .inr ⟨hdiff, htext, e, List.mem_append_left _ he, hcount⟩

/-- Sums of sizes do not exceed a `size_t`. -/
theorem returns_foldlM {β : Type} {f : Nat × List Bytes → β → FeProg (Nat × List Bytes)}
    (hf : ∀ q c, Returns (fun q => q.1 < 2 ^ 64) (f q c)) (l : List β) {q : Nat × List Bytes} (hq : q.1 < 2 ^ 64) :
    Returns (fun q => q.1 < 2 ^ 64) (l.foldlM f q) := by
  induction l generalizing q with
  | nil => exact hq
  | cons c l ih =>
      rw [List.foldlM_cons]
      exact (hf q c).bind (fun q hq => ih hq)

theorem leadsIf_subtreeBytesInner {root : Bytes} (htype : s (.type root) = some folder) (left : Nat) (seen : List Bytes) :
    LeadsIf OnlyWritesFail Alone (subtreeBytesInner left root seen) (fun q _ _ => q.1 < 2 ^ 64) s := by
  have hzero : (0 : Nat) < 2 ^ 64 := Nat.two_pow_pos 64
  cases left with
  | zero => exact leadsIf_pure hzero
  | succ left =>
      rw [subtreeBytesInner]
      split
      · exact leadsIf_pure hzero
      · refine leadsIf_getStr ?_
        rintro io _ rfl hio
        rw [if_neg hio, htype, Option.getD_some]
        show LeadsIf OnlyWritesFail Alone (if folder = file then _ else _) _ s
        rw [if_neg (by decide)]
        refine Leads.when (leads_returns ((returns_any _).bind (fun children _ => returns_foldlM ?_ _ hzero)))
        intro q c
        exact (returns_any _).bind (fun _ _ => Nat.mod_lt _ (Nat.two_pow_pos 64))

/-- **`user_drive_used_bytes`.** -/
theorem leadsIf_userDriveUsedBytes (hnew : newRoot user ≠ uid) (h : Unused user uid s) :
    LeadsIf OnlyWritesFail Alone (userDriveUsedBytes user)
      (fun n s' evs => Quiet user uid s s' evs ∧ n < 2 ^ 64) s := by
  refine LeadsIf.bind (Leads.when ((leads_ensureDriveRoot hnew h).mono ?_))
  rintro o s₁ evs ⟨hquiet, hroot⟩
  cases o with
  | none => exact leadsIf_pure ⟨by simpa using hquiet, Nat.two_pow_pos 64⟩
  | some root =>
      refine LeadsIf.bind (((leadsIf_subtreeBytesInner (hroot root rfl).2 4097 []).and (Leads.when
        (leads_quiet_of_gets (only_isGet (only_subtreeBytesInner 4097 root [])) hquiet.unused))).mono ?_)
      rintro q s₂ evs₂ - ⟨hlt, hquiet₂⟩
      refine leadsIf_pure ⟨?_, hlt⟩
      simpa using hquiet.trans hquiet₂

/-- The counter is written, with another value. -/
theorem checked_put {n : Nat} (hn : n < 2 ^ 64) (hne : s (.usedBytes user) ≠ some (Decimal.text n)) (io : Nat)
    (h : Unused user uid s) :
    Checked user uid s (exec io s (.put (.usedBytes user) (Decimal.text n) : Act Cell Bytes Answer)).2
      [⟨.put (.usedBytes user) (Decimal.text n), io, s⟩] := by
  have hother : ∀ k, k ≠ .usedBytes user →
      (exec io s (.put (.usedBytes user) (Decimal.text n) : Act Cell Bytes Answer)).2 k = s k :=
    fun k hk => put_of_ne hk
  refine ⟨⟨?_, ?_, ?_⟩, ?_, ?_, ?_, ?_⟩
  · intro k hk
    rw [hother k (fun heq => by subst heq; exact hk)]
    exact h.cells k hk
  · intro d
    rw [kids, hother _ (by simp)]
    exact h.unlisted d
  · rw [hother _ (by simp)]
    exact h.root
  · intro e he
    obtain rfl := List.mem_singleton.mp he
    rintro (⟨d, hact, -⟩ | ⟨-, d, old, v, hact, -⟩) <;> exact absurd hact (by simp)
  · intro e he
    obtain rfl := List.mem_singleton.mp he
    rintro ⟨-, k, v, hk, hact⟩
    obtain ⟨rfl, -⟩ := Act.put.inj hact
    exact hk
  · intro e he
    obtain rfl := List.mem_singleton.mp he
    rintro ⟨-, ⟨d, v, hact, -⟩ | ⟨d, old, v, hact, -⟩⟩ <;> exact absurd hact (by simp)
  · by_cases hio : io = 0
    · subst hio
      refine .inl ⟨rfl, fun e he hcount => ?_⟩
      obtain rfl := List.mem_singleton.mp he
      exact hcount.1 rfl
    · refine .inr ⟨?_, ⟨n, hn, put_self hio⟩, _, List.mem_singleton_self _, hio, _, rfl⟩
      rw [put_self hio]
      exact hne.symm

/-- **`user_drive_used_bytes_fast`** only writes a counter that cannot be read. -/
theorem leadsIf_userDriveUsedBytesFast (hnew : newRoot user ≠ uid) (h : Unused user uid s) :
    LeadsIf OnlyWritesFail Alone (userDriveUsedBytesFast user) (fun _ s' evs => Checked user uid s s' evs ∧
      (s' (.usedBytes user) ≠ s (.usedBytes user) → Decimal.stoul ((s (.usedBytes user)).getD []) = none)) s := by
  refine leadsIf_getStr ?_
  rintro io _ rfl hio
  have hget := quiet_get (.usedBytes user) io h
  rw [if_neg hio]
  cases hparse : Decimal.stoul ((s (.usedBytes user)).getD []) with
  | some cached => exact leadsIf_pure ⟨hget.checked, fun hne => absurd rfl hne⟩
  | none =>
      refine LeadsIf.bind ((leadsIf_userDriveUsedBytes hnew h).mono ?_)
      rintro actual s₁ evs - ⟨hquiet, hlt⟩
      have hne : s₁ (.usedBytes user) ≠ some (Decimal.text actual) := by
        intro heq
        rw [hquiet.counter] at heq
        rw [heq, Option.getD_some, Decimal.stoul_text hlt] at hparse
        exact absurd hparse (by simp)
      refine leadsIf_act ?_
      rintro io' _ rfl -
      refine leadsIf_pure ⟨?_, fun _ => rfl⟩
      have hboth := hget.trans hquiet
      exact hboth.checked.trans (checked_put hlt hne io' hquiet.unused) (fun hdiff => absurd hboth.counter hdiff)

/-- **`user_drive_used_bytes_reconciled`.** -/
theorem leadsIf_userDriveUsedBytesReconciled (hnew : newRoot user ≠ uid) (h : Unused user uid s) :
    LeadsIf OnlyWritesFail Alone (userDriveUsedBytesReconciled user) (fun _ s' evs => Checked user uid s s' evs) s := by
  refine LeadsIf.bind ((leadsIf_userDriveUsedBytes hnew h).mono ?_)
  rintro actual s₁ evs - ⟨hquiet, hlt⟩
  refine leadsIf_getStr ?_
  rintro io _ rfl hio
  have hboth := hquiet.trans (quiet_get (.usedBytes user) io hquiet.unused)
  rw [if_neg hio]
  show LeadsIf OnlyWritesFail Alone (if (s₁ (.usedBytes user)).getD [] ≠ Decimal.text actual then _ else _) _ s₁
  split
  · rename_i hcached
    have hne : s₁ (.usedBytes user) ≠ some (Decimal.text actual) := by
      intro heq
      rw [heq] at hcached
      exact hcached rfl
    refine leadsIf_act ?_
    rintro io' _ rfl -
    refine leadsIf_pure ?_
    have hall := hboth.checked.trans (checked_put hlt hne io' hquiet.unused) (fun hdiff => absurd hboth.counter hdiff)
    rw [List.append_assoc] at hall
    exact hall
  · refine leadsIf_pure ?_
    exact hboth.checked

/-- **The quota check.** -/
theorem leadsIf_overQuota (hnew : newRoot user ≠ uid) (h : Unused user uid s) (size : Nat) :
    LeadsIf OnlyWritesFail Alone (overQuota user size) (fun _ s' evs => Checked user uid s s' evs) s := by
  refine LeadsIf.bind ((leadsIf_userDriveUsedBytesFast hnew h).mono ?_)
  rintro used s₁ evs₁ - ⟨hfast, hread⟩
  refine LeadsIf.bind ?_
  refine LeadsIf.bind ((Leads.when (leads_quiet_of_gets (only_getStr (.quotaBytes user)) hfast.unused)).mono ?_)
  rintro quota s₂ evs₂ - hquota
  refine leadsIf_pure ?_
  have hboth := hfast.quiet hquota
  have hend : ∀ {s₃ : Store Cell Bytes} {evs₃ : List (Event Cell Bytes Answer)} (used limit : Nat),
      Checked user uid s s₃ evs₃ → LeadsIf OnlyWritesFail Alone
        (if sizeT (used + size) > limit then pure (some (sizeT (used + size) - limit)) else pure none : FeProg (Option Nat))
        (fun _ s' evs => Checked user uid s s' (evs₃ ++ evs)) s₃ := by
    intro s₃ evs₃ used limit hall
    rw [← List.append_nil evs₃] at hall
    split <;> exact leadsIf_pure hall
  show LeadsIf OnlyWritesFail Alone (if _ then _ else _) _ s₂
  split
  · refine LeadsIf.bind ((leadsIf_userDriveUsedBytesReconciled hnew hquota.unused).mono ?_)
    rintro used' s₃ evs₃ - hrec
    have hall := hboth.trans hrec (fun hdiff => hread (by rwa [hquota.counter] at hdiff))
    refine (hend used' _ hall).mono ?_
    intro o s' evs _ hdone
    simpa only [List.append_assoc, List.nil_append] using hdone
  · refine (hend used _ hboth).mono ?_
    intro o s' evs _ hdone
    simpa only [List.append_assoc, List.nil_append] using hdone

/-! ## What is taken back -/

/-- The cells that `unstoreFile` deletes. -/
def Written.Cleans (w : Written) (uid : Bytes) : Cell → Prop
  | .type x => w.type = true ∧ x = uid
  | .name x => w.name = true ∧ x = uid
  | .parent x => w.parent = true ∧ x = uid
  | .owner x => w.owner = true ∧ x = uid
  | .size x => w.size = true ∧ x = uid
  | .bytes x => w.chunks = true ∧ x = uid
  | .chunks x => w.chunks = true ∧ x = uid
  | .chunk x _ => w.chunks = true ∧ x = uid
  | _ => False

/-- Some cells are deleted, and nothing else has changed. -/
structure Deleted (P : Cell → Prop) (s s' : Store Cell Bytes) : Prop where
  gone : ∀ k, P k → s' k = none
  frame : ∀ k, ¬ P k → s' k = s k

theorem Deleted.trans {P Q : Cell → Prop} {s₁ s₂ : Store Cell Bytes} (h : Deleted P s s₁) (h' : Deleted Q s₁ s₂) :
    Deleted (fun k => P k ∨ Q k) s s₂ where
  gone := by
    intro k hk
    by_cases hq : Q k
    · exact h'.gone k hq
    · rw [h'.frame k hq]
      exact h.gone k (hk.resolve_right hq)
  frame := by
    intro k hk
    rw [h'.frame k (fun hq => hk (.inr hq))]
    exact h.frame k (fun hp => hk (.inl hp))

theorem Deleted.congr {P Q : Cell → Prop} (h : Deleted P s s') (hpq : ∀ k, P k ↔ Q k) : Deleted Q s s' :=
  ⟨fun k hk => h.gone k ((hpq k).mpr hk), fun k hk => h.frame k (fun hp => hk ((hpq k).mp hp))⟩

theorem ends_delIf (b : Bool) (k : Cell) (s : Store Cell Bytes) :
    Ends (delIf b k) (fun _ s' => Deleted (fun k' => b = true ∧ k' = k) s s') s := by
  cases b with
  | false => exact ⟨fun k' hk' => absurd hk'.1 Bool.false_ne_true, fun _ _ => rfl⟩
  | true =>
      refine ⟨?_, fun k' hk' => ?_⟩
      · rintro _ ⟨-, rfl⟩
        exact Function.update_self ..
      · exact Function.update_of_ne (fun heq => hk' ⟨rfl, heq⟩) ..

/-- **What is taken back** is exactly this, if the chunks are as many as the count says. -/
theorem ends_unstoreFile (w : Written) (hchunked : w.chunks = true → Chunked s uid) :
    Ends (unstoreFile uid w) (fun _ s' => Deleted (w.Cleans uid) s s') s := by
  refine Ends.bind ((ends_delIf w.type (.type uid) s).mono (fun _ s₁ h₁ => ?_))
  refine Ends.bind ((ends_delIf w.name (.name uid) s₁).mono (fun _ s₂ h₂ => ?_))
  refine Ends.bind ((ends_delIf w.parent (.parent uid) s₂).mono (fun _ s₃ h₃ => ?_))
  refine Ends.bind ((ends_delIf w.owner (.owner uid) s₃).mono (fun _ s₄ h₄ => ?_))
  refine Ends.bind ((ends_delIf w.size (.size uid) s₄).mono (fun _ s₅ h₅ => ?_))
  have hmeta := (((h₁.trans h₂).trans h₃).trans h₄).trans h₅
  cases hw : w.chunks with
  | false =>
      refine hmeta.congr (fun k => ?_)
      cases k <;> simp [Written.Cleans, hw]
  | true =>
      have hcontents : ∀ k, Contents uid k → s₅ k = s k := by
        intro k hk
        refine hmeta.frame k (fun hdel => ?_)
        cases k <;> first | exact hk.elim | simp at hdel
      have hchunked₅ : Chunked s₅ uid := by
        obtain ⟨hcount, hchunk⟩ := hchunked hw
        refine ⟨?_, fun i hi => ?_⟩
        · rw [hcontents (.chunks uid) rfl]
          exact hcount
        · rw [hcontents (.chunk uid i) rfl] at hi
          rw [hcontents (.chunks uid) rfl]
          exact hchunk i hi
      refine (ends_deleteFileBytes hchunked₅).mono ?_
      rintro _ s₆ ⟨hgone, hframe⟩
      refine (hmeta.trans ⟨hgone, hframe⟩).congr (fun k => ?_)
      cases k <;> simp [Written.Cleans, Contents, hw]

/-- Reads of the file's own cells and deletes. -/
def TakesBack : Act Cell Bytes Answer → Prop
  | .get k => ∀ d, k ≠ .children d
  | .del _ => True
  | _ => False

theorem exec_takesBack (a : Act Cell Bytes Answer) (io : Nat) (s : Store Cell Bytes) (ha : TakesBack a)
    (h : OnlyWritesFail ⟨a, io, s⟩) : exec io s a = exec 2 s a := by
  cases a with
  | get k =>
      show ((if io = 0 then Read.unavailable else Read.ofCell (s k)), s) = (Read.ofCell (s k), s)
      rw [if_neg h]
  | del k =>
      have hio : 2 ≤ io := h
      show (decide (2 ≤ io), if io = 0 then s else Function.update s k none) = (true, Function.update s k none)
      rw [decide_eq_true hio, if_neg (by omega)]
  | _ => exact ha.elim

theorem not_sees_of_takesBack {e : Event Cell Bytes Answer} (h : TakesBack e.act) : ¬ Sees uid e := by
  rintro (⟨d, hact, -⟩ | ⟨-, d, old, v, hact, -⟩)
  · rw [hact] at h
    exact h d rfl
  · rw [hact] at h
    exact h

theorem not_leavesBehind_of_takesBack {e : Event Cell Bytes Answer} (h : TakesBack e.act) :
    ¬ LeavesBehind user uid e := by
  rintro (⟨-, k, v, -, hact⟩ | ⟨-, ⟨d, v, hact, -⟩ | ⟨d, old, v, hact, -⟩⟩ | ⟨-, v, hact⟩) <;>
    · rw [hact] at h
      exact h

theorem only_delAll_takesBack (l : List Cell) : (delAll l).Only TakesBack (fun _ => True) := by
  induction l with
  | nil => trivial
  | cons k l ih => exact ⟨trivial, fun _ => ih⟩

theorem only_unstoreFile (w : Written) : (unstoreFile uid w).Only TakesBack (fun _ => True) := by
  have hdel : ∀ b k, (delIf b k).Only TakesBack (fun _ => True) := by
    intro b k
    cases b with
    | false => trivial
    | true => exact ⟨trivial, fun _ => trivial⟩
  refine Prog.Only.bind (hdel ..) (fun _ => Prog.Only.bind (hdel ..) (fun _ => Prog.Only.bind (hdel ..) (fun _ =>
    Prog.Only.bind (hdel ..) (fun _ => Prog.Only.bind (hdel ..) (fun _ => ?_)))))
  show Prog.Only _ _ (if w.chunks = true then deleteFileBytes uid else pure ())
  split
  · refine only_act trivial (fun _ => ?_)
    refine Prog.Only.bind ((only_gets_getStr (P := fun k => ∀ d, k ≠ .children d) (k := .chunks uid) (by simp)).mono
      ?_ (fun _ h => h)) ?_
    · intro a ha
      cases a with
      | get k => exact ha
      | _ => exact ha.elim
    · intro chunks
      show Prog.Only _ _ (if chunks = [] then pure () else _)
      split
      · trivial
      · cases Decimal.stoul chunks with
        | none => exact ⟨trivial, fun _ => trivial⟩
        | some n => exact Prog.Only.bind (only_delAll_takesBack _) (fun _ => ⟨trivial, fun _ => trivial⟩)
  · trivial

/-! ## The chunks -/

theorem not_cellUnseen_of_takesBack {e : Event Cell Bytes Answer} (h : TakesBack e.act) : ¬ CellUnseen uid e :=
  fun hcell => absurd (.inl hcell : LeavesBehind [] uid e) (not_leavesBehind_of_takesBack h)

/-- One write of a cell of the file. -/
theorem cellUnseen_put (s : Store Cell Bytes) {k : Cell} (hk : ObjCell uid k) (v : Bytes) (io : Nat) :
    CellUnseen uid ⟨.put k v, io, s⟩ ↔ io = 1 :=
  ⟨fun h => h.1, fun hio => ⟨hio, k, v, hk, rfl⟩⟩

/-- What deletes do, and that they do nothing else. -/
theorem leadsIf_takesBack {p : FeProg α} {Q : α → Store Cell Bytes → Prop} (hp : p.Only TakesBack (fun _ => True))
    (h : Ends p Q s) :
    LeadsIf OnlyWritesFail Alone p (fun a s' evs => Q a s' ∧ ∀ e ∈ evs, TakesBack e.act) s :=
  (leadsIf_of_ends exec_takesBack hp h).and (Leads.when (leads_only hp))

/-- **The loop of `put_file_chunks`.** -/
theorem leadsIf_putChunks (l : List Bytes) (i : Nat) (hs : ∀ j, i ≤ j → s (.chunk uid j) = none) :
    LeadsIf OnlyWritesFail Alone (putChunks uid i l) (fun ok s' evs =>
      (ok = true → (∀ e ∈ evs, ¬ CellUnseen uid e) ∧ s' (.chunks uid) = s (.chunks uid) ∧
        ∀ j, i + l.length ≤ j → s' (.chunk uid j) = none) ∧
      (ok = false → ((s' (.chunks uid) = none ∧ ∀ j, s' (.chunk uid j) = none) ↔
        ∀ e ∈ evs, ¬ CellUnseen uid e))) s := by
  induction l generalizing i s with
  | nil =>
      refine leadsIf_pure ⟨fun _ => ⟨fun e he => absurd he List.not_mem_nil, rfl, hs⟩, ?_⟩
      exact fun hok => absurd hok.symm Bool.false_ne_true
  | cons chunk l ih =>
      refine leadsIf_act ?_
      rintro io _ rfl -
      have hcell := cellUnseen_put s (show ObjCell uid (.chunk uid i) from rfl) chunk io
      have hother : ∀ k, k ≠ .chunk uid i → (exec (A := Answer) io s (.put (.chunk uid i) chunk)).2 k = s k :=
        fun k hk => put_of_ne hk
      show LeadsIf OnlyWritesFail Alone (if (!decide (2 ≤ io)) = true then _ else _) _ _
      by_cases hio : 2 ≤ io
      · rw [decide_eq_true hio, if_neg (by simp)]
        have hlate : ∀ j, i + 1 ≤ j → (exec (A := Answer) io s (.put (.chunk uid i) chunk)).2 (.chunk uid j) = none := by
          intro j hj
          rw [hother _ (fun heq => by
            have := (Cell.chunk.inj heq).2
            omega)]
          exact hs j (by omega)
        refine (ih (i + 1) hlate).mono ?_
        rintro ok s' evs - ⟨htrue, hfalse⟩
        rw [List.forall_mem_cons, hcell]
        refine ⟨fun hok => ?_, fun hok => ?_⟩
        · obtain ⟨hunseen, hcount, hlast⟩ := htrue hok
          refine ⟨⟨by omega, hunseen⟩, hcount.trans (hother _ (by simp)), fun j hj => hlast j ?_⟩
          rw [List.length_cons] at hj
          omega
        · exact (hfalse hok).trans (and_iff_right (by omega)).symm
      · rw [decide_eq_false hio, if_pos (by simp)]
        refine LeadsIf.bind ((leadsIf_takesBack (only_delAll_takesBack _) (ends_delAll _ _)).mono ?_)
        rintro _ s₁ evs₁ - ⟨h₁, hevs₁⟩
        refine LeadsIf.bind ((leadsIf_takesBack (p := del (.chunks uid)) (Q := fun _ s' =>
          s' = Function.update s₁ (.chunks uid) none) ⟨trivial, fun _ => trivial⟩ rfl).mono ?_)
        rintro _ _ evs₂ - ⟨rfl, hevs₂⟩
        refine leadsIf_pure ⟨fun hok => absurd hok Bool.false_ne_true, fun _ => ?_⟩
        rw [List.forall_mem_cons, hcell]
        have hrest : ∀ e ∈ evs₁ ++ (evs₂ ++ []), ¬ CellUnseen uid e := by
          intro e he
          rw [List.append_nil] at he
          rcases List.mem_append.mp he with he | he
          · exact not_cellUnseen_of_takesBack (hevs₁ e he)
          · exact not_cellUnseen_of_takesBack (hevs₂ e he)
        have hat : Function.update s₁ (.chunks uid) none (.chunk uid i) = if io = 0 then none else some chunk := by
          rw [Function.update_of_ne (by simp), h₁, if_neg (by simp)]
          show (if io = 0 then s else Function.update s (.chunk uid i) (some chunk)) (.chunk uid i) = _
          split
          · exact hs i (Nat.le_refl i)
          · exact Function.update_self ..
        constructor
        · rintro ⟨-, hgone⟩
          refine ⟨fun hone => ?_, hrest⟩
          have hnone := hgone i
          rw [hat, if_neg (by omega)] at hnone
          exact absurd hnone (by simp)
        · rintro ⟨hone, -⟩
          refine ⟨Function.update_self .., fun j => ?_⟩
          by_cases hj : j = i
          · subst hj
            rw [hat, if_pos (by omega)]
          · rw [Function.update_of_ne (by simp), h₁]
            split
            · rfl
            · rename_i hnot
              rw [hother _ (fun heq => hj (Cell.chunk.inj heq).2)]
              refine hs j ?_
              by_contra hlt
              exact hnot (List.mem_map.mpr ⟨j, List.mem_range.mpr (by omega), rfl⟩)

/-- Writes and deletes of the contents of a file. -/
def OwnContents (uid : Bytes) : Act Cell Bytes Answer → Prop
  | .put k _ => ChunkCell uid k
  | .del k => ChunkCell uid k
  | _ => False

theorem only_delAll_own {l : List Cell} (hl : ∀ k ∈ l, ChunkCell uid k) :
    (delAll l).Only (OwnContents uid) (fun _ => True) := by
  induction l with
  | nil => trivial
  | cons k l ih => exact ⟨hl k List.mem_cons_self, fun _ => ih (fun k' hk' => hl k' (List.mem_cons_of_mem _ hk'))⟩

theorem only_putChunks_own (l : List Bytes) (i : Nat) :
    (putChunks uid i l).Only (OwnContents uid) (fun _ => True) := by
  have hchunk : ∀ j v, OwnContents uid (.put (.chunk uid j) v) := fun j v => .inr ⟨j, rfl⟩
  have hcount : OwnContents uid (.del (.chunks uid)) := .inl rfl
  induction l generalizing i with
  | nil => trivial
  | cons chunk l ih =>
      rw [putChunks]
      refine only_act (hchunk i chunk) (fun ok => ?_)
      split
      · refine Prog.Only.bind (only_delAll_own ?_) (fun _ => only_act hcount (fun _ => trivial))
        intro k hk
        obtain ⟨j, -, rfl⟩ := List.mem_map.mp hk
        exact .inr ⟨j, rfl⟩
      · exact ih (i + 1)

theorem only_putFileChunks_own (uid data : Bytes) :
    (putFileChunks uid data).Only (OwnContents uid) (fun _ => True) := by
  have hcount : ∀ v, OwnContents uid (.put (.chunks uid) v) := fun v => .inl rfl
  rw [putFileChunks]
  refine only_act (hcount _) (fun ok => ?_)
  split
  · trivial
  · exact only_putChunks_own (chunksOf data) 0

theorem not_sees_of_own {e : Event Cell Bytes Answer} (h : OwnContents uid e.act) : ¬ Sees uid e := by
  rintro (⟨d, hact, -⟩ | ⟨-, d, old, v, hact, -⟩) <;>
    · rw [hact] at h
      exact h

theorem not_lists_of_own {e : Event Cell Bytes Answer} (h : OwnContents uid e.act) : ¬ Lists uid e := by
  rintro ⟨-, ⟨d, v, hact, -⟩ | ⟨d, old, v, hact, -⟩⟩ <;>
    · rw [hact] at h
      exact absurd h (by simp [OwnContents, ChunkCell])

theorem not_recounts_of_own {e : Event Cell Bytes Answer} (h : OwnContents uid e.act) : ¬ Recounts user e := by
  rintro ⟨-, v, hact⟩
  rw [hact] at h
  exact absurd h (by simp [OwnContents, ChunkCell])

theorem onCells_of_own (a : Act Cell Bytes Answer) (h : OwnContents uid a) : OnCells (ChunkCell uid) a := by
  cases a with
  | put k v => exact h
  | del k => exact h
  | _ => exact h.elim

theorem contents_of_chunkCell {k : Cell} (h : ChunkCell uid k) : Contents uid k := by
  rcases h with rfl | ⟨i, rfl⟩ <;> rfl

/-- **`put_file_chunks`**: all chunks are there, or it is known what is left. -/
theorem leadsIf_putFileChunks {data : Bytes} (hlen : driveChunkCountForSize data.length < 2 ^ 64)
    (hs : ∀ k, Contents uid k → s k = none) :
    LeadsIf OnlyWritesFail Alone (putFileChunks uid data) (fun ok s' evs =>
      (∀ k, ¬ Contents uid k → s' k = s k) ∧ (∀ e ∈ evs, OwnContents uid e.act) ∧
      (ok = true → Chunked s' uid ∧ ∀ e ∈ evs, ¬ CellUnseen uid e) ∧
      (ok = false → ((∀ k, Contents uid k → s' k = none) ↔ ∀ e ∈ evs, ¬ CellUnseen uid e))) s := by
  have hframe := leads_onCells ((only_putFileChunks_own uid data).mono onCells_of_own (fun _ h => h)) s
  have hown : Leads Alone (putFileChunks uid data) (fun _ _ evs => ∀ e ∈ evs, OwnContents uid e.act) s :=
    leads_only (only_putFileChunks_own uid data)
  have hdone : LeadsIf OnlyWritesFail Alone (putFileChunks uid data) (fun ok s' evs =>
      (ok = true → Chunked s' uid ∧ ∀ e ∈ evs, ¬ CellUnseen uid e) ∧
      (ok = false → ((s' (.chunks uid) = none ∧ ∀ j, s' (.chunk uid j) = none) ↔
        ∀ e ∈ evs, ¬ CellUnseen uid e))) s := by
    refine leadsIf_act ?_
    rintro io _ rfl -
    have hcell := cellUnseen_put s (show ObjCell uid (.chunks uid) from rfl)
      (Decimal.text (driveChunkCountForSize data.length)) io
    have hother : ∀ j, (exec (A := Answer) io s (.put (.chunks uid)
        (Decimal.text (driveChunkCountForSize data.length)))).2 (.chunk uid j) = none := by
      intro j
      rw [put_of_ne (by simp)]
      exact hs _ rfl
    show LeadsIf OnlyWritesFail Alone (if (!decide (2 ≤ io)) = true then _ else _) _ _
    by_cases hio : 2 ≤ io
    · rw [decide_eq_true hio, if_neg (by simp)]
      refine (leadsIf_putChunks (chunksOf data) 0 (fun j _ => hother j)).mono ?_
      rintro ok s' evs - ⟨htrue, hfalse⟩
      rw [List.forall_mem_cons, hcell]
      refine ⟨fun hok => ?_, fun hok => (hfalse hok).trans (and_iff_right (by omega)).symm⟩
      obtain ⟨hunseen, hcount, hlast⟩ := htrue hok
      rw [put_self (by omega)] at hcount
      refine ⟨⟨?_, fun j hj => ⟨driveChunkCountForSize data.length, ?_, ?_⟩⟩, by omega, hunseen⟩
      · rw [hcount]
        obtain ⟨b, text, htext, -⟩ := Decimal.text_cons (driveChunkCountForSize data.length)
        exact fun heq => absurd (htext.symm.trans (Option.some.inj heq)) (List.cons_ne_nil b text)
      · rw [hcount, Option.getD_some]
        exact Decimal.stoul_text hlen
      · by_contra hge
        refine hj (hlast j ?_)
        rw [chunksOf, List.length_map, List.length_range]
        omega
    · rw [decide_eq_false hio, if_pos (by simp)]
      refine leadsIf_pure ⟨fun hok => absurd hok Bool.false_ne_true, fun _ => ?_⟩
      rw [List.forall_mem_cons, hcell]
      refine ⟨fun hgone => ⟨fun hone => ?_, fun e he => absurd he List.not_mem_nil⟩, fun hone => ⟨?_, hother⟩⟩
      · have hnone := hgone.1
        rw [put_self (by omega)] at hnone
        exact absurd hnone (by simp)
      · obtain rfl : io = 0 := by omega
        exact hs _ rfl
  · refine LeadsIf.mono (((Leads.when hframe).and (Leads.when hown)).and hdone) ?_
    rintro ok s' evs - ⟨⟨hkeep, hacts⟩, htrue, hfalse⟩
    refine ⟨fun k hk => hkeep k (fun hc => hk (contents_of_chunkCell hc)), hacts, htrue, fun hok => ?_⟩
    refine Iff.trans ⟨fun hgone => ⟨hgone _ rfl, fun j => hgone _ rfl⟩, fun hgone k hk => ?_⟩ (hfalse hok)
    refine gone_of_contents ?_ hgone.1 hgone.2 hk
    rw [hkeep _ (by simp [ChunkCell])]
    exact hs _ rfl

/-! ## The list -/

section Listing

variable {d : Bytes}

/-- What `append_csv_item_cas` comes to: it has seen the item, or it has not and it is known
whether it is there. -/
structure Tried (d uid : Bytes) (ok : Bool) (s' : Store Cell Bytes) (evs : List (Event Cell Bytes Answer)) : Prop where
  sees : ok = true → ∃ e ∈ evs, Sees uid e
  unseen : ok = false → ∀ e ∈ evs, ¬ Sees uid e
  lists : ok = false → (uid ∉ kids s' d ↔ ∀ e ∈ evs, ¬ Lists uid e)

theorem Tried.cons {ok : Bool} {e : Event Cell Bytes Answer} {evs : List (Event Cell Bytes Answer)}
    (h : Tried d uid ok s' evs) (hsees : ¬ Sees uid e) (hlists : ¬ Lists uid e) : Tried d uid ok s' (e :: evs) where
  sees := by
    intro hok
    obtain ⟨e', he', h'⟩ := h.sees hok
    exact ⟨e', List.mem_cons_of_mem _ he', h'⟩
  unseen := fun hok => List.forall_mem_cons.mpr ⟨hsees, h.unseen hok⟩
  lists := by
    intro hok
    rw [h.lists hok, List.forall_mem_cons]
    exact (and_iff_right hlists).symm

theorem not_sees_get (hs : uid ∉ kids s d) (io : Nat) : ¬ Sees uid ⟨.get (.children d), io, s⟩ := by
  rintro (⟨d', hact, hmem⟩ | ⟨-, d', old, v, hact, -⟩)
  · rw [show d' = d from (Cell.children.inj (Act.get.inj hact)).symm] at hmem
    exact hs hmem
  · exact absurd hact (by simp)

theorem not_lists_get (uid : Bytes) (s : Store Cell Bytes) (k : Cell) (io : Nat) : ¬ Lists uid ⟨.get k, io, s⟩ := by
  rintro ⟨-, ⟨d, v, hact, -⟩ | ⟨d, old, v, hact, -⟩⟩ <;> exact absurd hact (by simp)

theorem not_sees_put (uid : Bytes) (s : Store Cell Bytes) (k : Cell) (v : Bytes) (io : Nat) : ¬ Sees uid ⟨.put k v, io, s⟩ := by
  rintro (⟨d, hact, -⟩ | ⟨-, d, old, v', hact, -⟩) <;> exact absurd hact (by simp)

theorem not_lists_zero (a : Act Cell Bytes Answer) : ¬ Lists uid ⟨a, 0, s⟩ := fun h => h.1 rfl

theorem not_sees_cput (uid : Bytes) (s : Store Cell Bytes) {io : Nat} (hio : ¬ 2 ≤ io) (k : Cell) (old v : Bytes) :
    ¬ Sees uid ⟨.cput k old v, io, s⟩ := by
  rintro (⟨d, hact, -⟩ | ⟨hle, -⟩)
  · exact absurd hact (by simp)
  · exact hio hle

/-- Where the item is, the next attempt sees it. -/
theorem leadsIf_append_listed (hs : uid ∈ kids s d) (attempts : Nat) :
    LeadsIf OnlyWritesFail Alone (appendCsvLoop (.children d) uid false 0 attempts) (fun ok s' evs =>
      (ok = true → ∃ e ∈ evs, Sees uid e) ∧ (ok = false → s' = s ∧ evs = [])) s := by
  cases attempts with
  | zero => exact leadsIf_pure ⟨fun hok => absurd hok Bool.false_ne_true, fun _ => ⟨rfl, rfl⟩⟩
  | succ attempts =>
      refine leadsIf_act ?_
      rintro io _ rfl hio
      obtain ⟨old, hold⟩ : ∃ old, s (.children d) = some old := by
        cases hc : s (.children d) with
        | none =>
            rw [kids, hc] at hs
            exact absurd hs List.not_mem_nil
        | some old => exact ⟨old, rfl⟩
      have hmem : uid ∈ splitCsv old := by
        rw [kids, hold] at hs
        exact hs
      rw [exec_get hio, hold]
      show LeadsIf OnlyWritesFail Alone (if uid ∈ splitCsv old ∧ false = false then _ else _) _ s
      rw [if_pos ⟨hmem, rfl⟩]
      refine leadsIf_pure ⟨fun _ => ?_, fun hok => absurd hok (by simp)⟩
      exact ⟨_, List.mem_singleton_self _, .inl ⟨d, rfl, hs⟩⟩

/-- After a write that is not known to have been made. -/
theorem tried_of_listed {e : Event Cell Bytes Answer} (he : ¬ Sees uid e) (hlists : Lists uid e)
    (hs : uid ∈ kids s d) (attempts : Nat) :
    LeadsIf OnlyWritesFail Alone (appendCsvLoop (.children d) uid false 0 attempts)
      (fun ok s' evs => Tried d uid ok s' (e :: evs)) s := by
  refine (leadsIf_append_listed hs attempts).mono ?_
  rintro ok s' evs - ⟨htrue, hfalse⟩
  refine ⟨fun hok => ?_, fun hok => ?_, fun hok => ?_⟩
  · obtain ⟨e', he', hsees⟩ := htrue hok
    exact ⟨e', List.mem_cons_of_mem _ he', hsees⟩
  · obtain ⟨-, rfl⟩ := hfalse hok
    intro e' he'
    obtain rfl := List.mem_singleton.mp he'
    exact he
  · obtain ⟨rfl, rfl⟩ := hfalse hok
    exact iff_of_false (not_not_intro hs) (fun hall => hall e List.mem_cons_self hlists)

/-- **The loop of `append_csv_item_cas`** for an item that is not in the list. -/
theorem leadsIf_appendCsvLoop (hclean : CleanItem uid) (hs : uid ∉ kids s d) (attempts : Nat) :
    LeadsIf OnlyWritesFail Alone (appendCsvLoop (.children d) uid false 0 attempts) (Tried d uid) s := by
  induction attempts generalizing s with
  | zero =>
      refine leadsIf_pure ⟨fun hok => absurd hok Bool.false_ne_true, ?_, ?_⟩
      · exact fun _ e he => absurd he List.not_mem_nil
      · exact fun _ => iff_of_true hs (fun e he => absurd he List.not_mem_nil)
  | succ attempts ih =>
      have hnew : ∀ old, uid ∈ splitCsv (joinCsv (cutItems false 0 (placeItem uid false (splitCsv old)))) := by
        intro old
        rw [Lists.splitCsv_append false hclean (fun _ => clean_of_mem_splitCsv) (.inl rfl)]
        exact mem_placeItem.mpr (.inl rfl)
      refine leadsIf_act ?_
      rintro io _ rfl hio
      have hget := not_sees_get hs io
      have hget' := not_lists_get uid s (.children d) io
      rw [exec_get hio]
      cases hc : s (.children d) with
      | none =>
          refine leadsIf_act ?_
          rintro io' _ rfl -
          have hput := not_sees_put uid s (.children d)
            (joinCsv (cutItems false 0 (placeItem uid false []))) io'
          by_cases hio' : io' = 0
          · subst hio'
            exact (ih hs).mono (fun ok s' evs _ h => (h.cons hput (not_lists_zero _)).cons hget hget')
          · have hlists : Lists uid ⟨.put (.children d) (joinCsv (cutItems false 0 (placeItem uid false []))), io', s⟩ :=
              ⟨hio', .inl ⟨d, _, rfl, hnew []⟩⟩
            refine (tried_of_listed hput hlists ?_ attempts).mono (fun ok s' evs _ h => h.cons hget hget')
            rw [kids, put_self hio']
            exact hnew []
      | some old =>
          have hold : uid ∉ splitCsv old := by
            rw [kids, hc] at hs
            exact hs
          show LeadsIf OnlyWritesFail Alone (if uid ∈ splitCsv old ∧ false = false then _ else _) _ s
          rw [if_neg (fun h => hold h.1)]
          have hchange : joinCsv (cutItems false 0 (placeItem uid false (splitCsv old))) ≠ old := by
            intro heq
            have hmem := hnew old
            rw [heq] at hmem
            exact hold hmem
          dsimp only
          rw [if_neg hchange]
          refine leadsIf_act ?_
          rintro io' _ rfl -
          have hlists : io' ≠ 0 → Lists uid ⟨.cput (.children d) old
              (joinCsv (cutItems false 0 (placeItem uid false (splitCsv old)))), io', s⟩ :=
            fun hio' => ⟨hio', .inr ⟨d, old, _, rfl, hc, hnew old⟩⟩
          show LeadsIf OnlyWritesFail Alone (if decide (2 ≤ io' ∧ s (.children d) = some old) = true then _ else _) _
            (if io' ≠ 0 ∧ s (.children d) = some old then Function.update s (.children d) _ else s)
          by_cases hok : 2 ≤ io'
          · rw [if_pos (decide_eq_true ⟨hok, hc⟩)]
            refine leadsIf_pure ⟨fun _ => ?_, fun h => absurd h (by simp), fun h => absurd h (by simp)⟩
            exact ⟨_, List.mem_cons_of_mem _ (List.mem_singleton_self _), .inr ⟨hok, d, old, _, rfl, hc, hnew old⟩⟩
          · have hcput := not_sees_cput uid s hok (.children d) old
              (joinCsv (cutItems false 0 (placeItem uid false (splitCsv old))))
            rw [if_neg (fun h => hok (of_decide_eq_true h).1)]
            by_cases hio' : io' = 0
            · subst hio'
              rw [if_neg (fun h => h.1 rfl)]
              exact (ih hs).mono (fun ok s' evs _ h => (h.cons hcput (not_lists_zero _)).cons hget hget')
            · rw [if_pos (show io' ≠ 0 ∧ s (.children d) = some old from ⟨hio', hc⟩)]
              refine (tried_of_listed hcput (hlists hio') ?_ attempts).mono (fun ok s' evs _ h => h.cons hget hget')
              rw [kids, Function.update_self]
              exact hnew old

end Listing

/-! ## The writes -/

/-- What is left of the file, up to what is taken back. -/
structure Ready (uid : Bytes) (w : Written) (s : Store Cell Bytes) : Prop where
  cells : ∀ k, ObjCell uid k → ¬ w.Cleans uid k → s k = none
  unlisted : ∀ d, uid ∉ kids s d

/-- What the writes of an upload come to: they have all been made, or it is known what is
left of them. -/
structure Attempted (user uid : Bytes) (s : Store Cell Bytes) (w : Written) (s' : Store Cell Bytes)
    (evs : List (Event Cell Bytes Answer)) : Prop where
  counter : s' (.usedBytes user) = s (.usedBytes user)
  recounts : ∀ e ∈ evs, ¬ Recounts user e
  sees : w.failReason = none → ∃ e ∈ evs, Sees uid e
  unseen : w.failReason ≠ none → ∀ e ∈ evs, ¬ Sees uid e
  chunks : w.failReason ≠ none → w.chunks = true → Chunked s' uid
  cells : w.failReason ≠ none →
    ((∀ k, ObjCell uid k → ¬ w.Cleans uid k → s' k = none) ↔ ∀ e ∈ evs, ¬ CellUnseen uid e)
  lists : w.failReason ≠ none → ((∀ d, uid ∉ kids s' d) ↔ ∀ e ∈ evs, ¬ Lists uid e)

/-- After an operation that is known to have been made, and leaves nothing. -/
theorem Attempted.cons {s₁ : Store Cell Bytes} {w : Written} {e : Event Cell Bytes Answer}
    {evs : List (Event Cell Bytes Answer)} (h : Attempted user uid s₁ w s' evs)
    (hcounter : s₁ (.usedBytes user) = s (.usedBytes user)) (hsees : ¬ Sees uid e)
    (hnothing : ¬ LeavesBehind user uid e) : Attempted user uid s w s' (e :: evs) where
  counter := h.counter.trans hcounter
  recounts := List.forall_mem_cons.mpr ⟨fun hcount => hnothing (.inr (.inr hcount)), h.recounts⟩
  sees := by
    intro hw
    obtain ⟨e', he', h'⟩ := h.sees hw
    exact ⟨e', List.mem_cons_of_mem _ he', h'⟩
  unseen := fun hw => List.forall_mem_cons.mpr ⟨hsees, h.unseen hw⟩
  chunks := h.chunks
  cells := by
    intro hw
    rw [h.cells hw, List.forall_mem_cons]
    exact (and_iff_right (fun hcell => hnothing (.inl hcell))).symm
  lists := by
    intro hw
    rw [h.lists hw, List.forall_mem_cons]
    exact (and_iff_right (fun hlist => hnothing (.inr (.inl hlist)))).symm

/-- What a write of a cell of the file leaves, if it is not reported as failed. -/
theorem leavesBehind_put (user : Bytes) (s : Store Cell Bytes) (v : Bytes) (io : Nat) {k : Cell} (hk : ObjCell uid k) (hlist : ∀ d, k ≠ .children d) :
    LeavesBehind user uid ⟨.put k v, io, s⟩ ↔ io = 1 := by
  constructor
  · rintro (hcell | ⟨-, ⟨d, v', hact, -⟩ | ⟨d, old, v', hact, -⟩⟩ | ⟨-, v', hact⟩)
    · exact (cellUnseen_put s hk v io).mp hcell
    · exact absurd (Act.put.inj hact).1 (hlist d)
    · exact absurd hact (by simp)
    · obtain ⟨rfl, -⟩ := Act.put.inj hact
      exact hk.elim
  · exact fun hio => .inl ((cellUnseen_put s hk v io).mpr hio)

/-- **One cell of the file.** -/
theorem leadsIf_putCell {k : Cell} {v : Bytes} {w : Written} (w' : Written) {rest : FeProg Written} (hready : Ready uid w s)
    (hfail : w.failReason ≠ none) (hchunks : w.chunks = false) (hk : ObjCell uid k) (hlist : ∀ d, k ≠ .children d)
    (hnot : ¬ w.Cleans uid k) (hnext : ∀ k', w'.Cleans uid k' ↔ w.Cleans uid k' ∨ k' = k)
    (hrest : ∀ s₁, Ready uid w' s₁ → LeadsIf OnlyWritesFail Alone rest (Attempted user uid s₁) s₁) :
    LeadsIf OnlyWritesFail Alone (put k v >>= fun ok => if !ok then pure w else rest) (Attempted user uid s) s := by
  refine leadsIf_act ?_
  rintro io _ rfl -
  have hother : ∀ k', k' ≠ k → (exec (A := Answer) io s (.put k v)).2 k' = s k' := fun k' hk' => put_of_ne hk'
  have hcounter : (exec (A := Answer) io s (.put k v)).2 (.usedBytes user) = s (.usedBytes user) :=
    hother _ (fun heq => by subst heq; exact hk)
  have hkids : ∀ d, kids (exec (A := Answer) io s (.put k v)).2 d = kids s d :=
    fun d => kids_congr (hother _ (Ne.symm (hlist d)))
  have hleaves := leavesBehind_put user s v io hk hlist
  have hsees := not_sees_put uid s k v io
  show LeadsIf OnlyWritesFail Alone (if (!decide (2 ≤ io)) = true then _ else _) _ _
  by_cases hio : 2 ≤ io
  · rw [decide_eq_true hio, if_neg (by simp)]
    refine (hrest _ ⟨fun k' hk' hcleans => ?_, fun d => ?_⟩).mono (fun w s' evs _ h => h.cons hcounter hsees ?_)
    · rw [hnext, not_or] at hcleans
      rw [hother k' hcleans.2]
      exact hready.cells k' hk' hcleans.1
    · rw [hkids]
      exact hready.unlisted d
    · rw [hleaves]
      omega
  · rw [decide_eq_false hio, if_pos (by simp)]
    have hone : ∀ {P : Event Cell Bytes Answer → Prop}, (∀ e ∈ [(⟨.put k v, io, s⟩ : Event Cell Bytes Answer)], P e) ↔
        P ⟨.put k v, io, s⟩ := by
      intro P
      rw [List.forall_mem_singleton]
    refine leadsIf_pure ⟨hcounter, ?_, fun h => absurd h hfail, fun _ => hone.mpr hsees, ?_, fun _ => ?_, fun _ => ?_⟩
    · rw [hone]
      rintro ⟨-, v', hact⟩
      obtain ⟨rfl, -⟩ := Act.put.inj hact
      exact hk
    · exact fun _ h => absurd (hchunks.symm.trans h) Bool.false_ne_true
    · rw [hone, cellUnseen_put s hk]
      constructor
      · intro hall hio'
        have hnone := hall k hk hnot
        rw [put_self (by omega)] at hnone
        exact absurd hnone (by simp)
      · intro hio' k' hk' hcleans
        obtain rfl : io = 0 := by omega
        exact hready.cells k' hk' hcleans
    · rw [hone]
      refine iff_of_true (fun d => ?_) ?_
      · rw [hkids]
        exact hready.unlisted d
      · rintro ⟨-, ⟨d, v', hact, -⟩ | ⟨d, old, v', hact, -⟩⟩
        · exact absurd (Act.put.inj hact).1 (hlist d)
        · exact absurd hact (by simp)

section Store

variable {parentUid : Bytes}

/-- What `append_child` does has nothing to do with the file but that it lists it. -/
theorem events_of_extends (user : Bytes) {e : Event Cell Bytes Answer} (hne : parentUid ≠ uid)
    (h : Extends (.children parentUid) e.act) : ¬ CellUnseen uid e ∧ ¬ Recounts user e := by
  refine ⟨?_, ?_⟩
  · rintro ⟨-, k, v, hk, hact⟩
    rw [hact] at h
    obtain rfl : k = .children parentUid := h
    exact hne hk
  · rintro ⟨-, v, hact⟩
    rw [hact] at h
    exact absurd h (by simp [Extends])

/-- **The list**, when all cells have been written. -/
theorem leadsIf_appendChild (hclean : CleanItem uid) (hne : parentUid ≠ uid) {w w' : Written}
    (hfail : w.failReason ≠ none) (hdone : w'.failReason = none) (hready : Ready uid w s) (hchunked : Chunked s uid) :
    LeadsIf OnlyWritesFail Alone (appendChild parentUid uid >>= fun ok => if !ok then pure w else pure w')
      (Attempted user uid s) s := by
  have honly := only_appendCsvLoop (k := .children parentUid) hclean 16
  rw [appendChild, appendCsvItemCas, if_neg hclean.ne_nil]
  refine LeadsIf.bind (((leadsIf_appendCsvLoop hclean (hready.unlisted parentUid) 16).and ((Leads.when
    (leads_onCells (honly.mono onCells_of_extends (fun _ h => h)) s)).and (Leads.when (leads_only honly)))).mono ?_)
  rintro ok s' evs - ⟨htried, hframe, hacts⟩
  have hcells : ∀ e ∈ evs, ¬ CellUnseen uid e := fun e he => (events_of_extends user hne (hacts e he)).1
  have hrecounts : ∀ e ∈ evs, ¬ Recounts user e := fun e he => (events_of_extends user hne (hacts e he)).2
  have hcounter : s' (.usedBytes user) = s (.usedBytes user) := hframe _ (by simp)
  cases ok with
  | true =>
      refine leadsIf_pure ?_
      rw [List.append_nil]
      refine ⟨hcounter, hrecounts, fun _ => htried.sees rfl, ?_, ?_, ?_, ?_⟩ <;> exact fun h => absurd hdone h
  | false =>
      refine leadsIf_pure ?_
      rw [List.append_nil]
      refine ⟨hcounter, hrecounts, fun h => absurd h hfail, fun _ => htried.unseen rfl, fun _ _ => ?_, fun _ => ?_,
        fun _ => ?_⟩
      · refine ⟨?_, fun i hi => ?_⟩
        · rw [hframe _ (by simp)]
          exact hchunked.count
        · rw [hframe _ (by simp)] at hi
          rw [hframe _ (by simp)]
          exact hchunked.chunk i hi
      · refine iff_of_true (fun k hk hcleans => ?_) hcells
        rw [hframe k (fun heq => by subst heq; exact hne hk)]
        exact hready.cells k hk hcleans
      · rw [← htried.lists rfl]
        refine ⟨fun hall => hall parentUid, fun hparent d => ?_⟩
        by_cases hd : d = parentUid
        · rw [hd]
          exact hparent
        · rw [kids_congr (hframe _ (by simpa using hd))]
          exact hready.unlisted d

/-- **The contents**, when the other cells have been written, and then the list. -/
theorem leadsIf_putContents {data : Bytes} (hlen : driveChunkCountForSize data.length < 2 ^ 64) {w : Written} (w' : Written)
    {rest : FeProg Written} (hfail : w.failReason ≠ none) (hchunks : w.chunks = false)
    (hnext : ∀ k, w'.Cleans uid k ↔ w.Cleans uid k ∨ Contents uid k) (hready : Ready uid w s)
    (hrest : ∀ s₁, Ready uid w' s₁ → Chunked s₁ uid →
      LeadsIf OnlyWritesFail Alone rest (Attempted user uid s₁) s₁) :
    LeadsIf OnlyWritesFail Alone (putFileChunks uid data >>= fun ok => if !ok then pure w else rest)
      (Attempted user uid s) s := by
  have hnot : ∀ k, Contents uid k → ¬ w.Cleans uid k := by
    intro k hk hcleans
    cases k <;> first | exact hk.elim | exact Bool.false_ne_true (hchunks.symm.trans hcleans.1)
  refine LeadsIf.bind ((leadsIf_putFileChunks hlen
    (fun k hk => hready.cells k (objCell_of_contents hk) (hnot k hk))).mono ?_)
  rintro ok s' evs - ⟨hframe, hown, htrue, hfalse⟩
  have hcounter : s' (.usedBytes user) = s (.usedBytes user) := hframe _ (fun h => h.elim)
  have hunlisted : ∀ d, uid ∉ kids s' d := by
    intro d
    rw [kids_congr (hframe _ (fun h => h.elim))]
    exact hready.unlisted d
  have hrecounts : ∀ e ∈ evs, ¬ Recounts user e := fun e he => not_recounts_of_own (hown e he)
  have hlists : ∀ e ∈ evs, ¬ Lists uid e := fun e he => not_lists_of_own (hown e he)
  have hsees : ∀ e ∈ evs, ¬ Sees uid e := fun e he => not_sees_of_own (hown e he)
  cases ok with
  | false =>
      refine leadsIf_pure ?_
      rw [List.append_nil]
      refine ⟨hcounter, hrecounts, fun h => absurd h hfail, fun _ => hsees, ?_, fun _ => ?_,
        fun _ => iff_of_true hunlisted hlists⟩
      · exact fun _ h => absurd (hchunks.symm.trans h) Bool.false_ne_true
      · rw [← hfalse rfl]
        refine ⟨fun hall k hk => hall k (objCell_of_contents hk) (hnot k hk), fun hgone k hk hcleans => ?_⟩
        by_cases hc : Contents uid k
        · exact hgone k hc
        · rw [hframe k hc]
          exact hready.cells k hk hcleans
  | true =>
      obtain ⟨hchunked, hcells⟩ := htrue rfl
      refine (hrest s' ⟨fun k hk hcleans => ?_, hunlisted⟩ hchunked).mono ?_
      · rw [hnext, not_or] at hcleans
        rw [hframe k hcleans.2]
        exact hready.cells k hk hcleans.1
      · intro w₁ s₁ evs₁ _ h
        refine { counter := h.counter.trans hcounter, recounts := List.forall_mem_append.mpr ⟨hrecounts, h.recounts⟩,
                 sees := fun hw₁ => ?_, unseen := fun hw₁ => List.forall_mem_append.mpr ⟨hsees, h.unseen hw₁⟩,
                 chunks := h.chunks, cells := fun hw₁ => ?_, lists := fun hw₁ => ?_ }
        · obtain ⟨e, he, h'⟩ := h.sees hw₁
          exact ⟨e, List.mem_append_right _ he, h'⟩
        · rw [h.cells hw₁, List.forall_mem_append]
          exact (and_iff_right hcells).symm
        · rw [h.lists hw₁, List.forall_mem_append]
          exact (and_iff_right hlists).symm

/-- **The writes of an upload.** -/
theorem leadsIf_storeFile (hclean : CleanItem uid) (hne : parentUid ≠ uid) {part : FilePart}
    (hlen : driveChunkCountForSize part.data.length < 2 ^ 64) (h : Unused user uid s) :
    LeadsIf OnlyWritesFail Alone (storeFile user parentUid uid part) (Attempted user uid s) s := by
  rw [storeFile]
  refine leadsIf_putCell ⟨true, false, false, false, false, false, some ""⟩ ⟨fun k hk _ => h.cells k hk, h.unlisted⟩
    (by simp) rfl rfl (by simp) (by simp [Written.Cleans]) (fun k => by cases k <;> simp [Written.Cleans]) (fun s₁ h₁ => ?_)
  refine leadsIf_putCell ⟨true, true, false, false, false, false, some ""⟩ ⟨h₁.cells, h₁.unlisted⟩
    (by simp) rfl rfl (by simp) (by simp [Written.Cleans]) (fun k => by cases k <;> simp [Written.Cleans]) (fun s₂ h₂ => ?_)
  refine leadsIf_putCell ⟨true, true, true, false, false, false, some ""⟩ ⟨h₂.cells, h₂.unlisted⟩
    (by simp) rfl rfl (by simp) (by simp [Written.Cleans]) (fun k => by cases k <;> simp [Written.Cleans]) (fun s₃ h₃ => ?_)
  refine leadsIf_putCell ⟨true, true, true, true, false, false, some ""⟩ ⟨h₃.cells, h₃.unlisted⟩
    (by simp) rfl rfl (by simp) (by simp [Written.Cleans]) (fun k => by cases k <;> simp [Written.Cleans]) (fun s₄ h₄ => ?_)
  refine leadsIf_putCell ⟨true, true, true, true, true, false, some ""⟩ ⟨h₄.cells, h₄.unlisted⟩
    (by simp) rfl rfl (by simp) (by simp [Written.Cleans]) (fun k => by cases k <;> simp [Written.Cleans]) (fun s₅ h₅ => ?_)
  refine leadsIf_putContents hlen ⟨true, true, true, true, true, true, some ""⟩ (by simp) rfl
    (fun k => by cases k <;> simp [Written.Cleans, Contents]) ⟨h₅.cells, h₅.unlisted⟩ (fun s₆ h₆ hchunked => ?_)
  exact leadsIf_appendChild hclean hne (by simp) rfl ⟨h₆.cells, h₆.unlisted⟩ hchunked

end Store

/-! ## The request -/

/-- Nothing is left of a request that was answered with an error. -/
def Restored (user uid : Bytes) (s : Store Cell Bytes) (ans : Answer) (s' : Store Cell Bytes) : Prop :=
  ∀ text, ans = .error text → (∀ k, ObjCell uid k → s' k = none) ∧ (∀ d, uid ∉ kids s' d) ∧
    s' (.usedBytes user) = s (.usedBytes user)

/-- A request that fails: what is left shows in the operations. -/
structure Failed (user uid : Bytes) (s s' : Store Cell Bytes) (evs : List (Event Cell Bytes Answer)) : Prop where
  unseen : ∀ e ∈ evs, ¬ Sees uid e
  cells : (∀ k, ObjCell uid k → s' k = none) ↔ ∀ e ∈ evs, ¬ CellUnseen uid e
  lists : (∀ d, uid ∉ kids s' d) ↔ ∀ e ∈ evs, ¬ Lists uid e
  counter : s' (.usedBytes user) = s (.usedBytes user) ↔ ∀ e ∈ evs, ¬ Recounts user e

/-- A request ends like this, or the file has been seen in its list. -/
def Settled (user uid : Bytes) (s : Store Cell Bytes) (ans : Answer) (s' : Store Cell Bytes)
    (evs : List (Event Cell Bytes Answer)) : Prop :=
  (∀ text, ans ≠ .error text) ∧ (∃ e ∈ evs, Sees uid e) ∨ (∃ text, ans = .error text) ∧ Failed user uid s s' evs

theorem Checked.counter_iff {evs : List (Event Cell Bytes Answer)} (h : Checked user uid s s' evs) :
    s' (.usedBytes user) = s (.usedBytes user) ↔ ∀ e ∈ evs, ¬ Recounts user e := by
  rcases h.counter with ⟨hsame, hnone⟩ | ⟨hdiff, -, e, he, hcount⟩
  · exact iff_of_true hsame hnone
  · exact iff_of_false hdiff (fun hall => hall e he hcount)

theorem Checked.settled {evs : List (Event Cell Bytes Answer)} (h : Checked user uid s s' evs) (text : String) :
    Settled user uid s (.error text) s' evs :=
  .inr ⟨⟨text, rfl⟩, h.unseen, iff_of_true h.unused.cells h.cells, iff_of_true h.unused.unlisted h.lists,
    h.counter_iff⟩

/-- **What stays behind.** -/
theorem Settled.restored_iff {ans : Answer} {evs : List (Event Cell Bytes Answer)}
    (h : Settled user uid s ans s' evs) :
    Restored user uid s ans s' ↔ (∃ e ∈ evs, Sees uid e) ∨ ∀ e ∈ evs, ¬ LeavesBehind user uid e := by
  rcases h with ⟨hans, hsees⟩ | ⟨⟨text, rfl⟩, hfailed⟩
  · exact iff_of_true (fun text heq => absurd heq (hans text)) (.inl hsees)
  · have hnone : ¬ ∃ e ∈ evs, Sees uid e := fun ⟨e, he, h'⟩ => hfailed.unseen e he h'
    constructor
    · intro hrestored
      obtain ⟨hcells, hlists, hcounter⟩ := hrestored text rfl
      refine .inr (fun e he => ?_)
      rintro (hcell | hlist | hcount)
      · exact hfailed.cells.mp hcells e he hcell
      · exact hfailed.lists.mp hlists e he hlist
      · exact hfailed.counter.mp hcounter e he hcount
    · rintro hright _ ⟨⟩
      have hall := hright.resolve_left hnone
      exact ⟨hfailed.cells.mpr (fun e he hcell => hall e he (.inl hcell)),
        hfailed.lists.mpr (fun e he hlist => hall e he (.inr (.inl hlist))),
        hfailed.counter.mpr (fun e he hcount => hall e he (.inr (.inr hcount)))⟩

section Finish

variable {s₀ : Store Cell Bytes} {evs₀ : List (Event Cell Bytes Answer)}

/-- What was done before the first cell was written, and then that. -/
theorem Attempted.failed {s₁ s₂ : Store Cell Bytes} {w : Written} {evs evs' : List (Event Cell Bytes Answer)}
    (hbefore : Checked user uid s₀ s evs₀) (h : Attempted user uid s w s₁ evs) (hfail : w.failReason ≠ none)
    (hdel : Deleted (w.Cleans uid) s₁ s₂) (hevs' : ∀ e ∈ evs', TakesBack e.act) :
    Failed user uid s₀ s₂ (evs₀ ++ (evs ++ evs')) where
  unseen := by
    refine List.forall_mem_append.mpr ⟨hbefore.unseen, List.forall_mem_append.mpr ⟨h.unseen hfail, ?_⟩⟩
    exact fun e he => not_sees_of_takesBack (hevs' e he)
  cells := by
    have hafter : ∀ e ∈ evs', ¬ CellUnseen uid e := fun e he => not_cellUnseen_of_takesBack (hevs' e he)
    rw [List.forall_mem_append, List.forall_mem_append, and_iff_right hbefore.cells, and_iff_left hafter,
      ← h.cells hfail]
    constructor
    · intro hgone k hk hcleans
      rw [← hdel.frame k hcleans]
      exact hgone k hk
    · intro hleft k hk
      by_cases hcleans : w.Cleans uid k
      · exact hdel.gone k hcleans
      · rw [hdel.frame k hcleans]
        exact hleft k hk hcleans
  lists := by
    have hafter : ∀ e ∈ evs', ¬ Lists uid e :=
      fun e he hlist => absurd (.inr (.inl hlist) : LeavesBehind user uid e) (not_leavesBehind_of_takesBack (hevs' e he))
    rw [List.forall_mem_append, List.forall_mem_append, and_iff_right hbefore.lists, and_iff_left hafter,
      ← h.lists hfail]
    have hkids : ∀ d, kids s₂ d = kids s₁ d := fun d => kids_congr (hdel.frame (.children d) (fun hcleans : False => hcleans))
    exact forall_congr' (fun d => by rw [hkids])
  counter := by
    have hafter : ∀ e ∈ evs', ¬ Recounts user e :=
      fun e he hcount => absurd (.inr (.inr hcount) : LeavesBehind user uid e) (not_leavesBehind_of_takesBack (hevs' e he))
    have hsame : s₂ (.usedBytes user) = s (.usedBytes user) :=
      (hdel.frame (.usedBytes user) (fun hcleans : False => hcleans)).trans h.counter
    rw [List.forall_mem_append, List.forall_mem_append, and_iff_left (⟨h.recounts, hafter⟩ : _ ∧ _),
      ← hbefore.counter_iff, hsame]

/-- **From the first cell on.** -/
theorem leadsIf_finishUpload {parentUid : Bytes} (hclean : CleanItem uid) (hne : parentUid ≠ uid) {part : FilePart}
    (hlen : driveChunkCountForSize part.data.length < 2 ^ 64) (hbefore : Checked user uid s₀ s evs₀)
    (count : FeProg Unit) (path : Bytes) :
    LeadsIf OnlyWritesFail Alone (storeFile user parentUid uid part >>= fun w =>
        match w.failReason with
        | some reason => unstoreFile uid w >>= fun _ => pure (.error reason)
        | none => count >>= fun _ => pure (.ok uid path))
      (fun ans s' evs => Settled user uid s₀ ans s' (evs₀ ++ evs)) s := by
  refine LeadsIf.bind ((leadsIf_storeFile hclean hne hlen hbefore.unused).mono ?_)
  rintro w s₁ evs - h
  cases hw : w.failReason with
  | some reason =>
      have hfail : w.failReason ≠ none := by simp [hw]
      refine LeadsIf.bind ((leadsIf_takesBack (only_unstoreFile w) (ends_unstoreFile w (h.chunks hfail))).mono ?_)
      rintro _ s₂ evs' - ⟨hdel, hevs'⟩
      refine leadsIf_pure (.inr ⟨⟨reason, rfl⟩, ?_⟩)
      rw [List.append_nil]
      exact h.failed hbefore hfail hdel hevs'
  | none =>
      obtain ⟨e, he, hsees⟩ := h.sees hw
      have hany : Leads Alone count (fun _ _ _ => True) s₁ := leads_of_forall (fun _ _ _ => trivial)
      refine Leads.when (Leads.bind (hany.mono (fun _ s₂ evs' _ => ?_)))
      refine .inl ⟨fun text => by simp, e, ?_, hsees⟩
      exact List.mem_append_right _ (List.mem_append_left _ he)

end Finish

/-- `handle_upload` once the drive has answered; `count` is what becomes of the counter. -/
def uploadTo (count : FeProg Unit) (user path : Bytes) (part : FilePart) (uid : Bytes) : FeProg Answer := do
  match ← resolvePath user path with
  | none => return .error "target folder not found"
  | some (parentUid, type) =>
      if type ≠ folder then return .error "target folder not found"
      if !validComponent part.filename then return .error "invalid filename"
      if ← childNameExists parentUid part.filename [] then return .error "name already exists"
      let w ← storeFile user parentUid uid part
      match w.failReason with
      | some reason =>
          unstoreFile uid w
          return .error reason
      | none =>
          count
          return .ok uid (joinPath path part.filename)

/-- **`handle_upload`.** -/
theorem leadsIf_handleUpload (hclean : CleanItem uid) (hnew : newRoot user ≠ uid) (h : Unused user uid s)
    (path : Bytes) (part : Option FilePart) :
    LeadsIf OnlyWritesFail Alone (handleUpload user path part uid) (Settled user uid s) s := by
  have hstart := (Quiet.refl h).checked
  unfold handleUpload
  cases part with
  | none => exact leadsIf_pure (hstart.settled _)
  | some part =>
      dsimp only
      -- what happens to the counter in the end does not matter
      generalize updateDriveUsedBytes user (int64 part.data.length) = count
      show LeadsIf OnlyWritesFail Alone (if part.filename = [] then _ else _) _ s
      split
      · exact leadsIf_pure (hstart.settled _)
      · show LeadsIf OnlyWritesFail Alone (if part.data.length > maxDriveFileBytes then _ else _) _ s
        split
        · exact leadsIf_pure (hstart.settled _)
        · rename_i hsize
          have hlen : driveChunkCountForSize part.data.length < 2 ^ 64 := by
            unfold maxDriveFileBytes mib at hsize
            unfold driveChunkCountForSize driveChunkSize mib
            omega
          refine LeadsIf.bind ((leadsIf_overQuota hnew h part.data.length).mono ?_)
          rintro quotaError s₁ evs₁ - hchecked
          have hafter : ∀ {s₂ : Store Cell Bytes} {evs₂ : List (Event Cell Bytes Answer)} (text : String),
              Quiet user uid s₁ s₂ evs₂ → Settled user uid s (.error text) s₂ (evs₁ ++ evs₂) :=
            fun text hq => (hchecked.quiet hq).settled text
          cases quotaError with
          | some excess => exact leadsIf_pure (hafter _ (.refl hchecked.unused))
          | none =>
              refine leadsIf_act ?_
              rintro io _ rfl hio
              have hprobe := quiet_get (.root user) io hchecked.unused
              have hrest : LeadsIf OnlyWritesFail Alone (uploadTo count user path part uid)
                  (fun ans s' evs => Settled user uid s ans s' (evs₁ ++ (⟨.get (.root user), io, s₁⟩ :: evs))) s₁ := by
                refine LeadsIf.bind (Leads.when ((leads_resolvePath hnew hchecked.unused path).mono ?_))
                rintro o s₂ evs₂ ⟨hresolve, hparent⟩
                have hquiet := hprobe.trans hresolve
                have hfails : ∀ text, LeadsIf OnlyWritesFail Alone (pure (.error text) : FeProg Answer)
                    (fun ans s' evs => Settled user uid s ans s'
                      (evs₁ ++ (⟨.get (.root user), io, s₁⟩ :: (evs₂ ++ evs)))) s₂ := by
                  intro text
                  refine leadsIf_pure ?_
                  rw [List.append_nil]
                  exact hafter text hquiet
                cases o with
                | none => exact hfails _
                | some q =>
                    obtain ⟨parentUid, type⟩ := q
                    have hne : parentUid ≠ uid := hparent _ rfl
                    dsimp only
                    split
                    · exact hfails _
                    · split
                      · exact hfails _
                      · refine LeadsIf.bind (Leads.when ((leads_quiet_of_gets
                          (FirstUse.only_childNameExists parentUid part.filename []) hresolve.unused).mono ?_))
                        rintro taken s₃ evs₃ hnames
                        have hall := hquiet.trans hnames
                        split
                        · refine leadsIf_pure ?_
                          have hdone := hafter "name already exists" hall
                          simpa only [List.append_nil, List.append_assoc, List.singleton_append, List.cons_append,
                            List.nil_append] using hdone
                        · refine (leadsIf_finishUpload hclean hne hlen (hchecked.quiet hall) _ _).mono ?_
                          intro ans s' evs _ hdone
                          simpa only [List.append_assoc, List.singleton_append, List.cons_append,
                            List.nil_append] using hdone
              rw [exec_get hio]
              cases s₁ (.root user) with
              | none => exact hrest
              | some root => exact hrest

/-- A run of `handle_upload`. -/
def upload (user path : Bytes) (part : Option FilePart) (uid : Bytes) (outcomes : List Nat) (s : Store Cell Bytes) :
    Played Cell Bytes Answer Answer :=
  play (handleUpload user path part uid) (outcomes.map .alone) s

/-- **When a failed upload leaves nothing behind.** Reads are answered and deletes succeed;
then this is so exactly if the file has been seen in its list, and so the upload has not
failed, or no cell of it was written by an operation reported as failed, it was put into no
list, and the counter was not written. -/
theorem restored_upload_iff (path : Bytes) (part : Option FilePart) (ns seq : Nat) (outcomes : List Nat)
    (h : Unused user (driveNewUid ns seq) s)
    (hwrites : ∀ e ∈ (upload user path part (driveNewUid ns seq) outcomes s).events, OnlyWritesFail e) :
    Restored user (driveNewUid ns seq) s (upload user path part (driveNewUid ns seq) outcomes s).value
        (upload user path part (driveNewUid ns seq) outcomes s).store ↔
      (∃ e ∈ (upload user path part (driveNewUid ns seq) outcomes s).events, Sees (driveNewUid ns seq) e) ∨
        ∀ e ∈ (upload user path part (driveNewUid ns seq) outcomes s).events,
          ¬ LeavesBehind user (driveNewUid ns seq) e := by
  have hne : newRoot user ≠ driveNewUid ns seq := (FirstUse.driveNewUid_ne_newRoot ns seq).symm
  have hrun := leadsIf_handleUpload (clean_driveNewUid ns seq) hne h path part
  exact Settled.restored_iff (Leads.play_alone hrun outcomes hwrites)

/-- A drive with nothing in it. -/
def emptyDrive : Store Cell Bytes
  | .root _ => some (ascii "r")
  | .type x => if x = ascii "r" then some folder else none
  | .children x => if x = ascii "r" then some [] else none
  | .usedBytes _ => some (ascii "0")
  | _ => none

theorem unused_emptyDrive : Unused (ascii "u") (driveNewUid 7 1) emptyDrive where
  cells := by
    intro k hk
    have hne : driveNewUid 7 1 ≠ ascii "r" := by decide
    cases k with
    | type x => exact if_neg (fun heq => hne (hk.symm.trans heq))
    | children x => exact if_neg (fun heq => hne (hk.symm.trans heq))
    | root u => exact hk.elim
    | usedBytes u => exact hk.elim
    | _ => rfl
  unlisted := by
    intro d hmem
    have hkids : kids emptyDrive d = [] := by
      show splitCsv ((if d = ascii "r" then some [] else none).getD []) = []
      split <;> rfl
    rw [hkids] at hmem
    exact absurd hmem List.not_mem_nil
  root := by decide

/-- Reads, deletes and writes of cells that do not go wrong unseen. -/
def harmless (e : Event Cell Bytes Answer) : Bool :=
  match e.act with
  | .get _ => true
  | .del _ => true
  | .put (.children _) _ => false
  | .put (.usedBytes _) _ => false
  | .put _ _ => decide (e.io ≠ 1)
  | _ => false

theorem not_leavesBehind_of_harmless {e : Event Cell Bytes Answer} (h : harmless e = true) :
    ¬ LeavesBehind user uid e := by
  unfold harmless at h
  rintro (⟨hio, k, v, hk, hact⟩ | ⟨-, ⟨d, v, hact, -⟩ | ⟨d, old, v, hact, -⟩⟩ | ⟨-, v, hact⟩)
  · rw [hact, hio] at h
    cases k <;> simp at h
  · rw [hact] at h
    exact absurd h (by simp)
  · rw [hact] at h
    exact absurd h (by simp)
  · rw [hact] at h
    exact absurd h (by simp)

/-- `OnlyWritesFail`, to be computed. -/
def answered (e : Event Cell Bytes Answer) : Bool :=
  match e.act with
  | .get _ => decide (e.io ≠ 0)
  | .del _ => decide (2 ≤ e.io)
  | _ => true

theorem onlyWritesFail_of_answered {e : Event Cell Bytes Answer} (h : answered e = true) : OnlyWritesFail e := by
  unfold answered at h
  unfold OnlyWritesFail
  cases hact : e.act with
  | get k =>
      rw [hact] at h
      exact of_decide_eq_true h
  | del k =>
      rw [hact] at h
      exact of_decide_eq_true h
  | _ => trivial

/-- The write of the size fails, and what was written before is deleted. -/
theorem restored_upload_iff_emptyDrive :
    Restored (ascii "u") (driveNewUid 7 1) emptyDrive
      (upload (ascii "u") [slash] (some ⟨ascii "f", [1, 2]⟩) (driveNewUid 7 1) (List.replicate 11 2 ++ [0]) emptyDrive).value
      (upload (ascii "u") [slash] (some ⟨ascii "f", [1, 2]⟩) (driveNewUid 7 1) (List.replicate 11 2 ++ [0]) emptyDrive).store := by
  have hanswered : ∀ e ∈ (upload (ascii "u") [slash] (some ⟨ascii "f", [1, 2]⟩) (driveNewUid 7 1)
      (List.replicate 11 2 ++ [0]) emptyDrive).events, answered e = true := by decide +kernel
  have hharmless : ∀ e ∈ (upload (ascii "u") [slash] (some ⟨ascii "f", [1, 2]⟩) (driveNewUid 7 1)
      (List.replicate 11 2 ++ [0]) emptyDrive).events, harmless e = true := by decide +kernel
  exact (restored_upload_iff [slash] (some ⟨ascii "f", [1, 2]⟩) 7 1 (List.replicate 11 2 ++ [0]) unused_emptyDrive
    (fun e he => onlyWritesFail_of_answered (hanswered e he))).mpr
    (.inr (fun e he => not_leavesBehind_of_harmless (hharmless e he)))

/-- **A cell that stays.** The write of the type takes effect and is reported as failed. -/
theorem not_restored_emptyDrive :
    Unused (ascii "u") (driveNewUid 7 1) emptyDrive ∧
    (∀ e ∈ (upload (ascii "u") [slash] (some ⟨ascii "f", [1, 2]⟩) (driveNewUid 7 1)
      (List.replicate 7 2 ++ [1]) emptyDrive).events, OnlyWritesFail e) ∧
    ¬ Restored (ascii "u") (driveNewUid 7 1) emptyDrive
      (upload (ascii "u") [slash] (some ⟨ascii "f", [1, 2]⟩) (driveNewUid 7 1) (List.replicate 7 2 ++ [1]) emptyDrive).value
      (upload (ascii "u") [slash] (some ⟨ascii "f", [1, 2]⟩) (driveNewUid 7 1) (List.replicate 7 2 ++ [1]) emptyDrive).store := by
  have hanswered : ∀ e ∈ (upload (ascii "u") [slash] (some ⟨ascii "f", [1, 2]⟩) (driveNewUid 7 1)
      (List.replicate 7 2 ++ [1]) emptyDrive).events, answered e = true := by decide +kernel
  refine ⟨unused_emptyDrive, fun e he => onlyWritesFail_of_answered (hanswered e he), fun hrestored => ?_⟩
  have hans : (upload (ascii "u") [slash] (some ⟨ascii "f", [1, 2]⟩) (driveNewUid 7 1)
      (List.replicate 7 2 ++ [1]) emptyDrive).value = .error "failed to store file type" := by decide +kernel
  have hcell : (upload (ascii "u") [slash] (some ⟨ascii "f", [1, 2]⟩) (driveNewUid 7 1)
      (List.replicate 7 2 ++ [1]) emptyDrive).store (.type (driveNewUid 7 1)) = some file := by decide +kernel
  have hgone := (hrestored _ hans).1 (.type (driveNewUid 7 1)) rfl
  rw [hcell] at hgone
  exact absurd hgone (by simp)

end NCloud.Frontend.Drive
