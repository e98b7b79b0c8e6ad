import NCloud.Lib.Hex
import NCloud.Lib.Faults
import NCloud.Frontend.Mail

/-!
# Delivering a message

`store_message` of the front end and `deliver_local` of the SMTP server write the two
cells of a new message and then put its uid into the list of a folder. If the loop over
the list gives up, the cells are deleted again.

The loop writes a list that is missing blindly, and only what it reads back later counts.
Its last attempt can therefore leave the uid in the list of a message that is deleted,
and so can a swap that is reported as lost. The cells have a gap of their own: when the
second is not written the first stays.
-/

namespace NCloud.Frontend.Mail

open Process Wire KeyValue

/-- `new_uid` and `new_uid_mail`: the time, and 16 bits at random in four digits. -/
def newUid (ns : Nat) (random : Fin (2 ^ 16)) : Bytes :=
  Decimal.text ns ++ ascii "_" ++
    [Hex.digit (random.val / 4096), Hex.digit (random.val / 256 % 16), Hex.digit (random.val / 16 % 16),
      Hex.digit (random.val % 16)]

/-- The two programs that put a new message into a mailbox. -/
inductive Delivery where
  /-- `store_message`. -/
  | store (owner folder : Bytes)
  /-- `deliver_local`. -/
  | smtp (recipient : Bytes)

namespace Delivery

/-- Whose mailbox it is. -/
def user : Delivery → Bytes
  | store owner _ => owner
  | smtp recipient => recipient

/-- The folder the message goes to. -/
def folder : Delivery → Folder
  | store _ folder => normalizeFolder folder
  | smtp _ => .inbox

/-- The program. -/
def program (uid metaJson body : Bytes) : Delivery → FeProg Bool
  | store owner folder => storeMessage owner folder uid metaJson body
  | smtp recipient => deliverLocal recipient uid metaJson body

end Delivery

/-! ## All or nothing -/

/-- Lists of a mailbox. -/
def IndexCell (user : Bytes) (k : Cell) : Prop := (∃ f, k = .folder user f) ∨ k = .index user ∨ k = .inbox user

/-- Nothing is known of a uid. -/
structure Absent (user uid : Bytes) (s : Store Cell Bytes) : Prop where
  msg : s (.msg user uid) = none
  body : s (.body user uid) = none
  unlisted : ∀ k, IndexCell user k → uid ∉ items (s k)

/-- The message is there, and in its folder. -/
structure Delivered (user : Bytes) (f : Folder) (uid metaJson body : Bytes) (s : Store Cell Bytes) : Prop where
  msg : s (.msg user uid) = some metaJson
  body : s (.body user uid) = some body
  listed : uid ∈ items (s (.folder user f))

/-- Delivered if the answer is yes, and nothing if it is no. -/
def AllOrNothing (d : Delivery) (uid metaJson body : Bytes) (ok : Bool) (s : Store Cell Bytes) : Prop :=
  if ok then Delivered d.user d.folder uid metaJson body s else Absent d.user uid s

/-- What others may do: they do not touch the cells of the message and do not take it out of
a folder, and they know its uid from the lists only. -/
structure Others (user uid : Bytes) (s s' : Store Cell Bytes) : Prop where
  msg : s' (.msg user uid) = s (.msg user uid)
  body : s' (.body user uid) = s (.body user uid)
  kept : ∀ f, uid ∈ items (s (.folder user f)) → uid ∈ items (s' (.folder user f))
  copied : ∀ k, IndexCell user k → uid ∈ items (s' k) → ∃ k', IndexCell user k' ∧ uid ∈ items (s k')

/-- The loop has seen the uid in front of the list, or a swap has been reported as done. -/
def Confirms (user : Bytes) (f : Folder) (uid : Bytes) (e : Event Cell Bytes Answer) : Prop :=
  (e.act = .get (.folder user f) ∧ e.io ≠ 0 ∧
      ∃ old, e.store (.folder user f) = some old ∧ joinCsv (inFront uid (splitCsv old)) = old) ∨
    (2 ≤ e.io ∧ ∃ old new, e.act = .cput (.folder user f) old new ∧ e.store (.folder user f) = some old)

/-- A blind write of the list that happened, or another write that did and was reported as
failed; or the second cell was not written, and the first is there. -/
def LeavesBehind (user : Bytes) (f : Folder) (uid : Bytes) (e : Event Cell Bytes Answer) : Prop :=
  (e.io ≠ 0 ∧ ∃ v, e.act = .put (.folder user f) v) ∨
    (e.io = 1 ∧ ∃ old new, e.act = .cput (.folder user f) old new ∧ e.store (.folder user f) = some old) ∨
    (e.io = 1 ∧ ∃ v, e.act = .put (.msg user uid) v) ∨
    (e.io < 2 ∧ ∃ v, e.act = .put (.body user uid) v)

/-- Whether an operation is a delete. -/
def isDelete : Act Cell Bytes Answer → Bool
  | .del _ => true
  | _ => false

/-- A delete happens. -/
def DeletesWork (e : Event Cell Bytes Answer) : Prop := isDelete e.act = true → e.io ≠ 0

instance : DecidablePred DeletesWork := fun _ => inferInstanceAs (Decidable (_ → _))

section Rules

variable {α : Type} {user uid : Bytes} {f : Folder} {s s₁ s' : Store Cell Bytes}
  {evs evs' : List (Event Cell Bytes Answer)}

/-! ## Others, and the lists -/

theorem Others.refl (s : Store Cell Bytes) : Others user uid s s :=
  ⟨rfl, rfl, fun _ h => h, fun k hk h => ⟨k, hk, h⟩⟩

theorem Others.unlisted (h : Others user uid s s') (hs : ∀ k, IndexCell user k → uid ∉ items (s k)) :
    ∀ k, IndexCell user k → uid ∉ items (s' k) := by
  intro k hk hmem
  obtain ⟨k', hk', hmem'⟩ := h.copied k hk hmem
  exact hs k' hk' hmem'

/-- What the rest of a delivery keeps: the two cells, and the uid in its folder. -/
structure Kept (user : Bytes) (f : Folder) (uid : Bytes) (s s' : Store Cell Bytes) : Prop where
  msg : s' (.msg user uid) = s (.msg user uid)
  body : s' (.body user uid) = s (.body user uid)
  listed : uid ∈ items (s (.folder user f)) → uid ∈ items (s' (.folder user f))

theorem Kept.refl (s : Store Cell Bytes) : Kept user f uid s s := ⟨rfl, rfl, fun h => h⟩

theorem Kept.trans (h : Kept user f uid s s₁) (h' : Kept user f uid s₁ s') : Kept user f uid s s' :=
  ⟨h'.msg.trans h.msg, h'.body.trans h.body, fun hs => h'.listed (h.listed hs)⟩

theorem Others.toKept (h : Others user uid s s') : Kept user f uid s s' := ⟨h.msg, h.body, h.kept f⟩

/-- A write elsewhere. -/
theorem kept_put {k : Cell} (v : Bytes) (io : Nat) (s : Store Cell Bytes) (hmsg : k ≠ .msg user uid)
    (hbody : k ≠ .body user uid) (hfolder : k ≠ .folder user f) :
    Kept user f uid s (exec io s (.put k v : Act Cell Bytes Answer)).2 where
  msg := put_of_ne hmsg.symm
  body := put_of_ne hbody.symm
  listed := fun h => by rwa [put_of_ne hfolder.symm]

/-! ## The loop over the list -/

/-- Part of the loop, without a confirmation: the uid is in the list afterwards if something
is left behind, and only then. -/
structure Turned (user : Bytes) (f : Folder) (uid : Bytes) (s s' : Store Cell Bytes)
    (evs : List (Event Cell Bytes Answer)) : Prop where
  kept : Kept user f uid s s'
  silent : ∀ e ∈ evs, ¬ Confirms user f uid e
  left : (∃ e ∈ evs, LeavesBehind user f uid e) → uid ∈ items (s' (.folder user f))
  clean : (∀ e ∈ evs, ¬ LeavesBehind user f uid e) → (∀ k, IndexCell user k → uid ∉ items (s k)) →
    ∀ k, IndexCell user k → uid ∉ items (s' k)

theorem Turned.trans (h : Turned user f uid s s₁ evs) (h' : Turned user f uid s₁ s' evs') :
    Turned user f uid s s' (evs ++ evs') where
  kept := h.kept.trans h'.kept
  silent := List.forall_mem_append.mpr ⟨h.silent, h'.silent⟩
  left := by
    rintro ⟨e, he, hleft⟩
    rcases List.mem_append.mp he with he | he
    · exact h'.kept.listed (h.left ⟨e, he, hleft⟩)
    · exact h'.left ⟨e, he, hleft⟩
  clean := by
    intro hnone hs
    obtain ⟨hnone₁, hnone₂⟩ := List.forall_mem_append.mp hnone
    exact h'.clean hnone₂ (h.clean hnone₁ hs)

theorem turned_others (h : Others user uid s s') : Turned user f uid s s' [] where
  kept := h.toKept
  silent := fun _ he => absurd he List.not_mem_nil
  left := by
    rintro ⟨e, he, -⟩
    exact absurd he List.not_mem_nil
  clean := fun _ => h.unlisted

theorem turned_get {k : Cell} {io : Nat} (hno : ¬ Confirms user f uid ⟨.get k, io, s⟩) :
    Turned user f uid s s [⟨.get k, io, s⟩] where
  kept := .refl s
  silent := List.forall_mem_singleton.mpr hno
  left := by
    rintro ⟨e, he, hleft⟩
    obtain rfl := List.mem_singleton.mp he
    rcases hleft with ⟨-, v, hact⟩ | ⟨-, old, new, hact, -⟩ | ⟨-, v, hact⟩ | ⟨-, v, hact⟩ <;>
      exact absurd hact (by simp)
  clean := fun _ hs => hs

/-- The blind write. -/
theorem turned_put {v : Bytes} (hv : uid ∈ splitCsv v) (io : Nat) (s : Store Cell Bytes) :
    Turned user f uid s (exec io s (.put (.folder user f) v : Act Cell Bytes Answer)).2
      [⟨.put (.folder user f) v, io, s⟩] := by
  have hlisted : io ≠ 0 →
      uid ∈ items ((exec io s (.put (.folder user f) v : Act Cell Bytes Answer)).2 (.folder user f)) := by
    intro hio
    rw [put_self hio]
    exact hv
  refine { kept := ⟨put_of_ne (by simp), put_of_ne (by simp), fun h => ?_⟩, silent := ?_, left := ?_, clean := ?_ }
  · by_cases hio : io = 0
    · subst hio
      exact h
    · exact hlisted hio
  · refine List.forall_mem_singleton.mpr ?_
    rintro (⟨hact, -⟩ | ⟨-, old, new, hact, -⟩) <;> exact absurd hact (by simp)
  · rintro ⟨e, he, hleft⟩
    obtain rfl := List.mem_singleton.mp he
    rcases hleft with ⟨hio, -⟩ | ⟨-, old, new, hact, -⟩ | ⟨-, w, hact⟩ | ⟨-, w, hact⟩
    · exact hlisted hio
    all_goals exact absurd hact (by simp)
  · intro hnone hs
    have hio : io = 0 := by
      by_contra hio
      exact hnone _ (List.mem_singleton_self _) (.inl ⟨hio, v, rfl⟩)
    subst hio
    exact hs

/-- A swap that is reported as lost. -/
theorem turned_cput {old new : Bytes} (hnew : uid ∈ splitCsv new) {io : Nat}
    (hlost : (exec io s (.cput (.folder user f) old new : Act Cell Bytes Answer)).1 = false) :
    Turned user f uid s (exec io s (.cput (.folder user f) old new : Act Cell Bytes Answer)).2
      [⟨.cput (.folder user f) old new, io, s⟩] := by
  have hlost : ¬ (2 ≤ io ∧ s (.folder user f) = some old) := of_decide_eq_false hlost
  have hstore : (exec io s (.cput (.folder user f) old new : Act Cell Bytes Answer)).2 =
      if io ≠ 0 ∧ s (.folder user f) = some old then Function.update s (.folder user f) (some new) else s := rfl
  have hlisted : s (.folder user f) = some old → io ≠ 0 →
      uid ∈ items ((exec io s (.cput (.folder user f) old new : Act Cell Bytes Answer)).2 (.folder user f)) := by
    intro hold hio
    rw [hstore, if_pos ⟨hio, hold⟩, Function.update_self]
    exact hnew
  refine { kept := ⟨cput_of_ne (by simp), cput_of_ne (by simp), fun h => ?_⟩, silent := ?_, left := ?_, clean := ?_ }
  · by_cases hswap : io ≠ 0 ∧ s (.folder user f) = some old
    · exact hlisted hswap.2 hswap.1
    · rw [hstore, if_neg hswap]
      exact h
  · refine List.forall_mem_singleton.mpr ?_
    rintro (⟨hact, -⟩ | ⟨hio, old', new', hact, hold⟩)
    · exact absurd hact (by simp)
    · obtain ⟨-, rfl, rfl⟩ := Act.cput.inj hact
      exact hlost ⟨hio, hold⟩
  · rintro ⟨e, he, hleft⟩
    obtain rfl := List.mem_singleton.mp he
    rcases hleft with ⟨-, w, hact⟩ | ⟨hio, old', new', hact, hold⟩ | ⟨-, w, hact⟩ | ⟨-, w, hact⟩
    · exact absurd hact (by simp)
    · obtain ⟨-, rfl, rfl⟩ := Act.cput.inj hact
      have hio : io = 1 := hio
      exact hlisted hold (by omega)
    · exact absurd hact (by simp)
    · exact absurd hact (by simp)
  · intro hnone hs
    have hswap : ¬ (io ≠ 0 ∧ s (.folder user f) = some old) := by
      rintro ⟨hio, hold⟩
      have hone : io = 1 := by
        by_contra hne
        exact hlost ⟨by omega, hold⟩
      exact hnone _ (List.mem_singleton_self _) (.inr (.inl ⟨hone, old, new, rfl, hold⟩))
    rw [hstore, if_neg hswap]
    exact hs

/-- Reads of other cells. -/
theorem turned_gets {p : FeProg α} (hp : p.Only (Gets (· ≠ .folder user f)) (fun _ => True)) (s : Store Cell Bytes) :
    Leads (Others user uid) p (fun _ s' evs => Turned user f uid s s' evs) s := by
  induction p generalizing s with
  | ret a => exact turned_others (.refl s)
  | act a k ih =>
      intro io s₁ hr
      refine (ih _ (hp.2 _) _).mono (fun b s' evs h => ?_)
      cases a with
      | get cell =>
          have hno : ¬ Confirms user f uid ⟨.get cell, io, s₁⟩ := by
            rintro (⟨hact, -⟩ | ⟨-, old, new, hact, -⟩)
            · exact hp.1 (Act.get.inj hact)
            · exact absurd hact (by simp)
          exact (turned_others hr).trans ((turned_get hno).trans h)
      | _ => exact hp.1.elim
  | call c k => exact c.elim

/-- What the loop comes to. -/
structure Tried (user : Bytes) (f : Folder) (uid : Bytes) (ok : Bool) (s s' : Store Cell Bytes)
    (evs : List (Event Cell Bytes Answer)) : Prop where
  kept : Kept user f uid s s'
  yes : ok = true → uid ∈ items (s' (.folder user f)) ∧ ∃ e ∈ evs, Confirms user f uid e
  no : ok = false → Turned user f uid s s' evs

theorem Turned.tried {ok : Bool} (h : Turned user f uid s s₁ evs) (h' : Tried user f uid ok s₁ s' evs') :
    Tried user f uid ok s s' (evs ++ evs') where
  kept := h.kept.trans h'.kept
  yes := by
    intro hok
    obtain ⟨hlisted, e, he, hconf⟩ := h'.yes hok
    exact ⟨hlisted, e, List.mem_append_right _ he, hconf⟩
  no := fun hok => h.trans (h'.no hok)

/-- Confirmed, and then what is kept. -/
theorem tried_of_confirms {e : Event Cell Bytes Answer} (hkept : Kept user f uid s s₁)
    (hlisted : uid ∈ items (s₁ (.folder user f))) (hconf : Confirms user f uid e) (hrest : Kept user f uid s₁ s') :
    Tried user f uid true s s' (e :: evs) where
  kept := hkept.trans hrest
  yes := fun _ => ⟨hrest.listed hlisted, e, List.mem_cons_self, hconf⟩
  no := fun h => absurd h (by decide)

/-- One attempt: `look` reads a list to begin with where there is none, `done` follows a
confirmation, and `again` is the next attempt. -/
def attempt {α : Type} (user : Bytes) (f : Folder) (uid : Bytes) (look : FeProg Bytes) (done : Bytes → FeProg α)
    (again : FeProg α) : FeProg α := do
  match ← getStatus (.folder user f) with
  | .unavailable => again
  | .found old =>
      let next := joinCsv (inFront uid (splitCsv old))
      if next = old then done next
      else if ← cput (.folder user f) old next then done next
      else again
  | .notFound =>
      let old ← look
      let _ ← put (.folder user f) (joinCsv (inFront uid (splitCsv old)))
      again

theorem leads_attempt {α : Type} (ok : α → Bool) {look : FeProg Bytes} {done : Bytes → FeProg α} {again : FeProg α}
    (huid : CleanItem uid) (hlook : look.Only (Gets (· ≠ .folder user f)) (fun _ => True))
    (hdone : ∀ next s, Leads (Others user uid) (done next) (fun a s' _ => ok a = true ∧ Kept user f uid s s') s)
    (hagain : ∀ s, Leads (Others user uid) again (fun a s' evs => Tried user f uid (ok a) s s' evs) s)
    (s : Store Cell Bytes) :
    Leads (Others user uid) (attempt user f uid look done again)
      (fun a s' evs => Tried user f uid (ok a) s s' evs) s := by
  have hmem : ∀ old, uid ∈ splitCsv (joinCsv (inFront uid (splitCsv old))) := by
    intro old
    rw [splitCsv_inFront huid]
    exact mem_inFront.mpr (.inl rfl)
  refine leads_getStatus ?_
  intro io s₁ hr
  have hothers := turned_others (f := f) hr
  by_cases hio : io = 0
  · rw [if_pos hio]
    have hno : ¬ Confirms user f uid ⟨.get (.folder user f), io, s₁⟩ := by
      rintro (⟨-, hne, -⟩ | ⟨-, old, new, hact, -⟩)
      · exact hne hio
      · exact absurd hact (by simp)
    exact (hagain s₁).mono fun a s' evs h => hothers.tried ((turned_get hno).tried h)
  · rw [if_neg hio]
    cases hk : s₁ (.folder user f) with
    | none =>
        have hno : ¬ Confirms user f uid ⟨.get (.folder user f), io, s₁⟩ := by
          rintro (⟨-, -, old, hold, -⟩ | ⟨-, old, new, hact, -⟩)
          · exact absurd (hk.symm.trans hold) (by simp)
          · exact absurd hact (by simp)
        refine Leads.bind ((turned_gets hlook s₁).mono ?_)
        intro old s₂ evs₂ hread
        refine leads_act ?_
        intro io' s₃ hr'
        refine (hagain _).mono fun a s' evs h => ?_
        exact hothers.tried ((turned_get hno).tried (hread.tried
          ((turned_others hr').tried ((turned_put (hmem old) io' s₃).tried h))))
    | some old =>
        dsimp only [Read.ofCell]
        split
        · rename_i hfront
          refine (hdone _ s₁).mono ?_
          rintro a s' evs ⟨ha, hkept⟩
          rw [ha]
          have hlisted : uid ∈ items (s₁ (.folder user f)) := by
            rw [hk, items_some, ← hfront]
            exact hmem old
          exact tried_of_confirms hr.toKept hlisted (.inl ⟨rfl, hio, old, hk, hfront⟩) hkept
        · rename_i hfront
          have hno : ¬ Confirms user f uid ⟨.get (.folder user f), io, s₁⟩ := by
            rintro (⟨-, -, old', hold, hin⟩ | ⟨-, old', new, hact, -⟩)
            · obtain rfl := Option.some.inj (hk.symm.trans hold)
              exact hfront hin
            · exact absurd hact (by simp)
          refine leads_act ?_
          intro io' s₂ hr'
          cases hswap : (exec io' s₂ (.cput (.folder user f) old (joinCsv (inFront uid (splitCsv old))) :
              Act Cell Bytes Answer)).1 with
          | true =>
              obtain ⟨hold, hnew⟩ := cput_of_true hswap
              refine (hdone _ _).mono ?_
              rintro a s' evs ⟨ha, hkept⟩
              rw [ha]
              have hconf : Confirms user f uid
                  ⟨.cput (.folder user f) old (joinCsv (inFront uid (splitCsv old))), io', s₂⟩ :=
                .inr ⟨(of_decide_eq_true hswap).1, old, _, rfl, hold⟩
              have hlisted : uid ∈ items ((exec io' s₂ (.cput (.folder user f) old
                  (joinCsv (inFront uid (splitCsv old))) : Act Cell Bytes Answer)).2 (.folder user f)) := by
                rw [hnew]
                exact hmem old
              have hsame : Kept user f uid s₂ (exec io' s₂ (.cput (.folder user f) old
                  (joinCsv (inFront uid (splitCsv old))) : Act Cell Bytes Answer)).2 :=
                ⟨cput_of_ne (by simp), cput_of_ne (by simp), fun _ => hlisted⟩
              exact hothers.tried ((turned_get hno).tried
                (tried_of_confirms (hr'.toKept.trans hsame) hlisted hconf hkept))
          | false =>
              refine (hagain _).mono fun a s' evs h => ?_
              exact hothers.tried ((turned_get hno).tried ((turned_others hr').tried
                ((turned_cput (hmem old) hswap).tried h)))

theorem only_oldIndex (user : Bytes) (f f' : Folder) :
    (oldIndex user f).Only (Gets (· ≠ .folder user f')) (fun _ => True) := by
  rw [oldIndex]
  split
  · exact only_gets_getStr (by simp)
  · trivial

/-- A write that touches none of the cells that matter. -/
theorem leads_put_kept {k : Cell} (v : Bytes) (s : Store Cell Bytes) (hmsg : k ≠ .msg user uid)
    (hbody : k ≠ .body user uid) (hfolder : k ≠ .folder user f) :
    Leads (Others user uid) (put k v : FeProg Bool) (fun _ s' _ => Kept user f uid s s') s := by
  intro io s₁ hr
  exact hr.toKept.trans (kept_put v io s₁ hmsg hbody hfolder)

theorem leads_copyIndex (next : Bytes) (s : Store Cell Bytes) :
    Leads (Others user uid) (copyIndex user f next) (fun _ s' _ => Kept user f uid s s') s := by
  rw [copyIndex]
  split
  · exact Leads.bind ((leads_put_kept next s (by simp) (by simp) (by simp)).mono fun _ _ _ h => h)
  · exact Kept.refl s

theorem prependLoop_succ (user : Bytes) (f : Folder) (uid : Bytes) (attempts : Nat) :
    prependLoop user f uid (attempts + 1) = attempt user f uid (oldIndex user f)
      (fun next => copyIndex user f next >>= fun _ => pure true) (prependLoop user f uid attempts) :=
  rfl

/-- **The loop of `prepend_uid_to_folder`.** -/
theorem leads_prependLoop (huid : CleanItem uid) (attempts : Nat) (s : Store Cell Bytes) :
    Leads (Others user uid) (prependLoop user f uid attempts)
      (fun ok s' evs => Tried user f uid ok s s' evs) s := by
  induction attempts generalizing s with
  | zero => exact ⟨.refl s, fun h => absurd h (by decide), fun _ => turned_others (.refl s)⟩
  | succ attempts ih =>
      rw [prependLoop_succ]
      refine leads_attempt id huid (only_oldIndex user f f) ?_ ih s
      intro next s
      refine Leads.bind ((leads_copyIndex next s).mono ?_)
      exact fun _ s' _ hkept => ⟨rfl, hkept⟩

/-- The older copies of the list of the inbox, one after the other. -/
def olderIndex (user : Bytes) : FeProg Bytes := do
  let old ← getStr (.index user)
  if old = [] then getStr (.inbox user) else return old

theorem only_olderIndex (user : Bytes) (f : Folder) :
    (olderIndex user).Only (Gets (· ≠ .folder user f)) (fun _ => True) := by
  refine Prog.Only.bind (only_gets_getStr (by simp)) (fun old => ?_)
  split
  · exact only_gets_getStr (by simp)
  · trivial

theorem deliverLoop_succ (user uid : Bytes) (attempts : Nat) :
    deliverLoop user uid (attempts + 1) = attempt user .inbox uid (olderIndex user)
      (fun next => pure (some next)) (deliverLoop user uid attempts) := by
  rw [deliverLoop, attempt]
  refine congrArg _ (funext fun st => ?_)
  cases st with
  | unavailable => rfl
  | found old => rfl
  | notFound =>
      dsimp only
      rw [olderIndex, Prog.bind_assoc]
      refine congrArg _ (funext fun old => ?_)
      split
      · rfl
      · rfl

/-- **The loop of `deliver_local`.** -/
theorem leads_deliverLoop (huid : CleanItem uid) (attempts : Nat) (s : Store Cell Bytes) :
    Leads (Others user uid) (deliverLoop user uid attempts)
      (fun o s' evs => Tried user .inbox uid o.isSome s s' evs) s := by
  induction attempts generalizing s with
  | zero => exact ⟨.refl s, fun h => absurd h (by decide), fun _ => turned_others (.refl s)⟩
  | succ attempts ih =>
      rw [deliverLoop_succ]
      refine leads_attempt Option.isSome huid (only_olderIndex user .inbox) ?_ ih s
      exact fun next s => ⟨rfl, Kept.refl s⟩

/-! ## The cells around it -/

variable {metaJson body : Bytes} {ok : Bool}

/-- How a delivery ends. -/
structure Settled (user : Bytes) (f : Folder) (uid metaJson body : Bytes) (ok : Bool) (s' : Store Cell Bytes)
    (evs : List (Event Cell Bytes Answer)) : Prop where
  yes : ok = true → Delivered user f uid metaJson body s' ∧ ∃ e ∈ evs, Confirms user f uid e
  no : ok = false → (∀ e ∈ evs, ¬ Confirms user f uid e) ∧
    (Absent user uid s' ↔ ∀ e ∈ evs, ¬ LeavesBehind user f uid e)

/-- An operation before it that is no part of this. -/
theorem Settled.cons {e : Event Cell Bytes Answer} (h : Settled user f uid metaJson body ok s' evs)
    (hsilent : ¬ Confirms user f uid e) (hnothing : ¬ LeavesBehind user f uid e) :
    Settled user f uid metaJson body ok s' (e :: evs) where
  yes := by
    intro hok
    obtain ⟨hdel, e', he', hconf⟩ := h.yes hok
    exact ⟨hdel, e', List.mem_cons_of_mem _ he', hconf⟩
  no := by
    intro hok
    obtain ⟨hno, hiff⟩ := h.no hok
    refine ⟨List.forall_mem_cons.mpr ⟨hsilent, hno⟩, hiff.trans ?_⟩
    rw [List.forall_mem_cons]
    exact ⟨fun hall => ⟨hnothing, hall⟩, fun hall => hall.2⟩

theorem Absent.others (h : Absent user uid s) (hr : Others user uid s s') : Absent user uid s' :=
  ⟨hr.msg.trans h.msg, hr.body.trans h.body, hr.unlisted h.unlisted⟩

theorem settled_of_absent (h : Absent user uid s') : Settled user f uid metaJson body false s' [] where
  yes := fun hok => absurd hok (by decide)
  no := fun _ => ⟨fun _ he => absurd he List.not_mem_nil, fun _ _ he => absurd he List.not_mem_nil, fun _ => h⟩

theorem settled_of_tried (hmsg : s (.msg user uid) = some metaJson) (hbody : s (.body user uid) = some body)
    (h : Tried user f uid true s s₁ evs) (hrest : Kept user f uid s₁ s') :
    Settled user f uid metaJson body true s' (evs ++ evs') where
  yes := by
    intro _
    obtain ⟨hlisted, e, he, hconf⟩ := h.yes rfl
    have hkept := h.kept.trans hrest
    exact ⟨⟨hkept.msg.trans hmsg, hkept.body.trans hbody, hrest.listed hlisted⟩,
      e, List.mem_append_left _ he, hconf⟩
  no := fun hok => absurd hok (by decide)

theorem not_indexCell_msg : ¬ IndexCell user (.msg user uid) := by
  rintro (⟨f, hf⟩ | hi | hi)
  · exact absurd hf (by simp)
  · exact absurd hi (by simp)
  · exact absurd hi (by simp)

theorem not_indexCell_body : ¬ IndexCell user (.body user uid) := by
  rintro (⟨f, hf⟩ | hi | hi)
  · exact absurd hf (by simp)
  · exact absurd hi (by simp)
  · exact absurd hi (by simp)

/-- **The clean-up.** -/
theorem leadsIf_cleanUp (hs : ∀ k, IndexCell user k → uid ∉ items (s k)) (h : Turned user f uid s s₁ evs) :
    LeadsIf DeletesWork (Others user uid)
      (del (.msg user uid) >>= fun _ => del (.body user uid) >>= fun _ => (pure false : FeProg Bool))
      (fun ok s' evs' => Settled user f uid metaJson body ok s' (evs ++ evs')) s₁ := by
  refine leadsIf_act ?_
  intro io s₂ hr hdel
  refine leadsIf_act ?_
  intro io' s₃ hr' hdel'
  refine leadsIf_pure ⟨fun hok => absurd hok (by decide), fun _ => ?_⟩
  have hio : io ≠ 0 := hdel rfl
  have hio' : io' ≠ 0 := hdel' rfl
  have hsilent : ∀ e ∈ [⟨.del (.msg user uid), io, s₂⟩, ⟨.del (.body user uid), io', s₃⟩],
      ¬ Confirms user f uid e ∧ ¬ LeavesBehind user f uid e := by
    intro e he
    have hact : ∃ k, e.act = .del k := by
      rcases List.mem_cons.mp he with rfl | he
      · exact ⟨_, rfl⟩
      · exact ⟨_, congrArg Event.act (List.mem_singleton.mp he)⟩
    obtain ⟨k, hk⟩ := hact
    constructor
    · rintro (⟨hact, -⟩ | ⟨-, old, new, hact, -⟩) <;> exact absurd (hk.symm.trans hact) (by simp)
    · rintro (⟨-, v, hact⟩ | ⟨-, old, new, hact, -⟩ | ⟨-, v, hact⟩ | ⟨-, v, hact⟩) <;>
        exact absurd (hk.symm.trans hact) (by simp)
  -- the lists are as the loop has left them, but for what others do
  have hcell : ∀ k, IndexCell user k → (exec io' s₃ (.del (.body user uid) : Act Cell Bytes Answer)).2 k = s₃ k :=
    fun k hk => del_of_ne (fun heq => not_indexCell_body (heq ▸ hk))
  have hcell₂ : ∀ k, IndexCell user k → (exec io s₂ (.del (.msg user uid) : Act Cell Bytes Answer)).2 k = s₂ k :=
    fun k hk => del_of_ne (fun heq => not_indexCell_msg (heq ▸ hk))
  refine ⟨List.forall_mem_append.mpr ⟨h.silent, fun e he => (hsilent e he).1⟩, ?_⟩
  rw [List.forall_mem_append]
  constructor
  · intro habsent
    refine ⟨fun e he hleft => ?_, fun e he => (hsilent e he).2⟩
    have hfolder : IndexCell user (.folder user f) := .inl ⟨f, rfl⟩
    refine habsent.unlisted (.folder user f) hfolder ?_
    rw [hcell _ hfolder]
    refine hr'.kept f ?_
    rw [hcell₂ _ hfolder]
    exact hr.kept f (h.left ⟨e, he, hleft⟩)
  · rintro ⟨hnone, -⟩
    have hunlisted := hr.unlisted (h.clean hnone hs)
    refine ⟨?_, ?_, fun k hk => ?_⟩
    · rw [del_of_ne (by simp), hr'.msg]
      exact del_self hio
    · exact del_self hio'
    · rw [hcell k hk]
      refine hr'.unlisted (fun k hk => ?_) k hk
      rw [hcell₂ k hk]
      exact hunlisted k hk

theorem not_confirms_put {k : Cell} {v : Bytes} {io : Nat} : ¬ Confirms user f uid ⟨.put k v, io, s⟩ := by
  rintro (⟨hact, -⟩ | ⟨-, old, new, hact, -⟩) <;> exact absurd hact (by simp)

theorem leavesBehind_msg {v : Bytes} {io : Nat} : LeavesBehind user f uid ⟨.put (.msg user uid) v, io, s⟩ ↔ io = 1 := by
  constructor
  · rintro (⟨-, w, hact⟩ | ⟨-, old, new, hact, -⟩ | ⟨hio, -⟩ | ⟨-, w, hact⟩)
    · exact absurd hact (by simp)
    · exact absurd hact (by simp)
    · exact hio
    · exact absurd hact (by simp)
  · exact fun hio => .inr (.inr (.inl ⟨hio, v, rfl⟩))

theorem leavesBehind_body {v : Bytes} {io : Nat} :
    LeavesBehind user f uid ⟨.put (.body user uid) v, io, s⟩ ↔ io < 2 := by
  constructor
  · rintro (⟨-, w, hact⟩ | ⟨-, old, new, hact, -⟩ | ⟨-, w, hact⟩ | ⟨hio, -⟩)
    · exact absurd hact (by simp)
    · exact absurd hact (by simp)
    · exact absurd hact (by simp)
    · exact hio
  · exact fun hio => .inr (.inr (.inr ⟨hio, v, rfl⟩))

/-- The two cells, and then the rest. -/
def storeThen (user uid metaJson body : Bytes) (rest : FeProg Bool) : FeProg Bool := do
  if !(← put (.msg user uid) metaJson) then return false
  if !(← put (.body user uid) body) then return false
  rest

/-- **The two cells.** -/
theorem leadsIf_storeThen {rest : FeProg Bool} (h : Absent user uid s)
    (hrest : ∀ s, s (.msg user uid) = some metaJson → s (.body user uid) = some body →
      (∀ k, IndexCell user k → uid ∉ items (s k)) →
      LeadsIf DeletesWork (Others user uid) rest (Settled user f uid metaJson body) s) :
    LeadsIf DeletesWork (Others user uid) (storeThen user uid metaJson body rest)
      (Settled user f uid metaJson body) s := by
  refine leadsIf_act ?_
  intro io s₁ hr _
  have hs₁ := h.others hr
  by_cases hio : 2 ≤ io
  · have hok : (exec io s₁ (.put (.msg user uid) metaJson : Act Cell Bytes Answer)).1 = true := decide_eq_true hio
    have hnothing : ¬ LeavesBehind user f uid ⟨.put (.msg user uid) metaJson, io, s₁⟩ := by
      rw [leavesBehind_msg]
      omega
    rw [hok]
    refine leadsIf_act ?_
    intro io' s₂ hr' _
    have hmsg : s₂ (.msg user uid) = some metaJson := by
      rw [hr'.msg]
      exact put_self (by omega)
    have hlists : ∀ k, IndexCell user k → uid ∉ items (s₂ k) := by
      refine hr'.unlisted (fun k hk => ?_)
      rw [put_of_ne (fun heq => not_indexCell_msg (heq ▸ hk))]
      exact hs₁.unlisted k hk
    by_cases hio' : 2 ≤ io'
    · have hok' : (exec io' s₂ (.put (.body user uid) body : Act Cell Bytes Answer)).1 = true := decide_eq_true hio'
      have hnothing' : ¬ LeavesBehind user f uid ⟨.put (.body user uid) body, io', s₂⟩ := by
        rw [leavesBehind_body]
        omega
      rw [hok']
      refine (hrest _ ((put_of_ne (by simp)).trans hmsg) (put_self (by omega)) (fun k hk => ?_)).mono ?_
      · rw [put_of_ne (fun heq => not_indexCell_body (heq ▸ hk))]
        exact hlists k hk
      · intro ok s' evs _ hsettled
        exact (hsettled.cons not_confirms_put hnothing').cons not_confirms_put hnothing
    · -- the second cell is not there, and the first stays
      have hno : (exec io' s₂ (.put (.body user uid) body : Act Cell Bytes Answer)).1 = false := decide_eq_false hio'
      rw [hno]
      refine leadsIf_pure ⟨fun hok => absurd hok (by decide), fun _ => ⟨?_, fun habsent => ?_, fun hnone => ?_⟩⟩
      · exact List.forall_mem_cons.mpr ⟨not_confirms_put, List.forall_mem_singleton.mpr not_confirms_put⟩
      · exact absurd (habsent.msg.symm.trans ((put_of_ne (by simp)).trans hmsg)) (by simp)
      · exact absurd (leavesBehind_body.mpr (Nat.not_le.mp hio')) (hnone _ (List.mem_cons_of_mem _ (List.mem_singleton_self _)))
  · have hno : (exec io s₁ (.put (.msg user uid) metaJson : Act Cell Bytes Answer)).1 = false := decide_eq_false hio
    rw [hno]
    refine leadsIf_pure ⟨fun hok => absurd hok (by decide),
      fun _ => ⟨List.forall_mem_singleton.mpr not_confirms_put, ?_⟩⟩
    rw [List.forall_mem_singleton, leavesBehind_msg]
    by_cases hzero : io = 0
    · subst hzero
      exact ⟨fun _ => by decide, fun _ => hs₁⟩
    · refine ⟨fun habsent => ?_, fun hne => absurd hne (by omega)⟩
      exact absurd (habsent.msg.symm.trans (put_self hzero)) (by simp)

/-- What `deliver_local` does once the message is in its list. -/
def announce (user uid final : Bytes) : FeProg Bool := do
  if final ≠ [] then
    let _ ← put (.inbox user) final
    let _ ← put (.index user) final
  let _ ← put (.latest user) (ascii "uid:" ++ uid)
  return true

theorem leads_announce (f : Folder) (final : Bytes) (s : Store Cell Bytes) :
    Leads (Others user uid) (announce user uid final) (fun ok s' _ => ok = true ∧ Kept user f uid s s') s := by
  have hlast : ∀ s, Leads (Others user uid)
      (put (.latest user) (ascii "uid:" ++ uid) >>= fun _ => (pure true : FeProg Bool))
      (fun ok s' _ => ok = true ∧ Kept user f uid s s') s := by
    intro s
    refine Leads.bind ((leads_put_kept (f := f) _ s (by simp) (by simp) (by simp)).mono ?_)
    exact fun _ s' _ hkept => ⟨rfl, hkept⟩
  rw [announce]
  split
  · refine Leads.bind ((leads_put_kept (f := f) _ s (by simp) (by simp) (by simp)).mono fun _ s₁ _ h₁ => ?_)
    refine Leads.bind ((leads_put_kept (f := f) _ s₁ (by simp) (by simp) (by simp)).mono fun _ s₂ _ h₂ => ?_)
    exact (hlast s₂).mono fun _ _ _ h => ⟨h.1, h₁.trans (h₂.trans h.2)⟩
  · exact hlast s

/-- **`store_message`.** -/
theorem leadsIf_storeMessage (huid : CleanItem uid) (folder : Bytes) (h : Absent user uid s) :
    LeadsIf DeletesWork (Others user uid) (storeMessage user folder uid metaJson body)
      (Settled user (normalizeFolder folder) uid metaJson body) s := by
  refine leadsIf_storeThen h fun s hmsg hbody hs => ?_
  refine LeadsIf.bind (Leads.when ((leads_prependLoop huid 16 s).mono ?_))
  intro ok s₁ evs htried
  cases ok with
  | true =>
      refine leadsIf_pure ?_
      exact settled_of_tried hmsg hbody htried (.refl s₁)
  | false => exact leadsIf_cleanUp hs (htried.no rfl)

/-- **`deliver_local`.** -/
theorem leadsIf_deliverLocal (huid : CleanItem uid) (h : Absent user uid s) :
    LeadsIf DeletesWork (Others user uid) (deliverLocal user uid metaJson body)
      (Settled user .inbox uid metaJson body) s := by
  rw [deliverLocal]
  split
  · exact leadsIf_pure (settled_of_absent h)
  · refine leadsIf_act ?_
    intro io s₁ hr _
    have hsilent : ¬ Confirms user .inbox uid ⟨.get (.pwd user), io, s₁⟩ := by
      rintro (⟨hact, -⟩ | ⟨-, old, new, hact, -⟩)
      · exact absurd hact (by simp)
      · exact absurd hact (by simp)
    have hnothing : ¬ LeavesBehind user .inbox uid ⟨.get (.pwd user), io, s₁⟩ := by
      rintro (⟨-, v, hact⟩ | ⟨-, old, new, hact, -⟩ | ⟨-, v, hact⟩ | ⟨-, v, hact⟩) <;>
        exact absurd hact (by simp)
    have hnone : LeadsIf DeletesWork (Others user uid) (pure false : FeProg Bool)
        (fun ok s' evs => Settled user .inbox uid metaJson body ok s' (⟨.get (.pwd user), io, s₁⟩ :: evs)) s₁ :=
      leadsIf_pure ((settled_of_absent (h.others hr)).cons hsilent hnothing)
    cases (exec io s₁ (.get (.pwd user) : Act Cell Bytes Answer)).1 with
    | unavailable => exact hnone
    | notFound => exact hnone
    | found pwd =>
        refine LeadsIf.mono (leadsIf_storeThen (h.others hr) fun s hmsg hbody hs => ?_)
          (fun ok s' evs _ hsettled => hsettled.cons hsilent hnothing)
        refine LeadsIf.bind (Leads.when ((leads_deliverLoop huid 5 s).mono ?_))
        intro o s₂ evs htried
        cases o with
        | none => exact leadsIf_cleanUp hs (htried.no rfl)
        | some final =>
            refine Leads.when ((leads_announce .inbox final s₂).mono ?_)
            rintro ok s' evs' ⟨rfl, hkept⟩
            exact settled_of_tried hmsg hbody htried hkept

/-- Either program. -/
theorem leadsIf_delivery (d : Delivery) (huid : CleanItem uid) (h : Absent d.user uid s) :
    LeadsIf DeletesWork (Others d.user uid) (d.program uid metaJson body)
      (Settled d.user d.folder uid metaJson body) s := by
  cases d with
  | store owner folder => exact leadsIf_storeMessage huid folder h
  | smtp recipient => exact leadsIf_deliverLocal huid h

/-- **All or nothing.** -/
theorem Settled.ends_whole {d : Delivery} (h : Settled d.user d.folder uid metaJson body ok s' evs) :
    AllOrNothing d uid metaJson body ok s' ↔
      (∃ e ∈ evs, Confirms d.user d.folder uid e) ∨ ∀ e ∈ evs, ¬ LeavesBehind d.user d.folder uid e := by
  cases ok with
  | true =>
      obtain ⟨hdel, hconf⟩ := h.yes rfl
      exact ⟨fun _ => .inl hconf, fun _ => hdel⟩
  | false =>
      obtain ⟨hno, hiff⟩ := h.no rfl
      refine ⟨fun habsent => .inr (hiff.mp habsent), ?_⟩
      rintro (⟨e, he, hconf⟩ | hnone)
      · exact absurd hconf (hno e he)
      · exact hiff.mpr hnone

end Rules

/-! ## Runs -/

theorem clean_newUid (ns : Nat) (random : Fin (2 ^ 16)) : CleanItem (newUid ns random) where
  ne_nil := by
    rw [newUid, List.append_assoc]
    exact List.append_ne_nil_of_left_ne_nil (Decimal.digits_ne_nil ns ns) _
  notMem := by
    have hdigit : ¬ Decimal.IsDigit comma := by decide
    have hunder : comma ∉ ascii "_" := by decide
    have hhex : ∀ n < 16, Hex.digit n ≠ comma := by decide
    have hrandom := random.isLt
    intro hmem
    rcases List.mem_append.mp hmem with hmem | hmem
    · rcases List.mem_append.mp hmem with hmem | hmem
      · exact hdigit (Decimal.isDigit_of_mem_digits hmem)
      · exact hunder hmem
    · simp only [List.mem_cons, List.not_mem_nil, or_false] at hmem
      rcases hmem with h | h | h | h
      · exact hhex _ (by omega) h.symm
      · exact hhex _ (Nat.mod_lt _ (by decide)) h.symm
      · exact hhex _ (Nat.mod_lt _ (by decide)) h.symm
      · exact hhex _ (Nat.mod_lt _ (by decide)) h.symm

/-- A run of a delivery: how every operation goes, and what others do before it. -/
def Delivery.run (d : Delivery) (uid metaJson body : Bytes) (turns : List (Turn Cell Bytes)) (s : Store Cell Bytes) :
    Played Cell Bytes Answer Bool :=
  play (d.program uid metaJson body) turns s

/--
**When a delivery is all or nothing.**

Others write what they like except that they leave the new message alone, and the deletes of
the clean-up happen. Then the message is there and listed if the answer is yes, and nothing of
it is there if the answer is no, if and only if the loop has had its confirmation or nothing
was left behind.
-/
theorem allOrNothing_iff (d : Delivery) (ns : Nat) (random : Fin (2 ^ 16)) (metaJson body : Bytes)
    {turns : List (Turn Cell Bytes)} {s : Store Cell Bytes} (h : Absent d.user (newUid ns random) s)
    (hothers : ∀ t ∈ turns, ∀ s, Others d.user (newUid ns random) s (t.others s))
    (hdel : ∀ e ∈ (d.run (newUid ns random) metaJson body turns s).events, DeletesWork e) :
    AllOrNothing d (newUid ns random) metaJson body (d.run (newUid ns random) metaJson body turns s).value
        (d.run (newUid ns random) metaJson body turns s).store ↔
      (∃ e ∈ (d.run (newUid ns random) metaJson body turns s).events, Confirms d.user d.folder (newUid ns random) e) ∨
        ∀ e ∈ (d.run (newUid ns random) metaJson body turns s).events,
          ¬ LeavesBehind d.user d.folder (newUid ns random) e := by
  have hrun : Leads (Others d.user (newUid ns random)) (d.program (newUid ns random) metaJson body) _ s :=
    leadsIf_delivery d (clean_newUid ns random) h
  exact (hrun.play Others.refl hothers hdel).ends_whole

/-- A mailbox with nothing in it. -/
def emptyMailbox : Store Cell Bytes := fun _ => none

theorem absent_emptyMailbox (user uid : Bytes) : Absent user uid emptyMailbox :=
  ⟨rfl, rfl, fun _ _ => List.not_mem_nil⟩

/-- A message that is sent. -/
def sentMessage : Delivery := .store (ascii "u") (ascii "sent")

/-- The first message of a folder, when nothing fails. -/
theorem allOrNothing_iff_first :
    AllOrNothing sentMessage (newUid 7 1) (ascii "m") (ascii "b")
      (sentMessage.run (newUid 7 1) (ascii "m") (ascii "b") [] emptyMailbox).value
      (sentMessage.run (newUid 7 1) (ascii "m") (ascii "b") [] emptyMailbox).store := by
  refine (allOrNothing_iff sentMessage 7 1 (ascii "m") (ascii "b") (absent_emptyMailbox _ _)
    (fun _ ht => absurd ht List.not_mem_nil) (by decide +kernel)).mpr (.inl ?_)
  -- the second attempt reads what the first has written
  refine ⟨(sentMessage.run (newUid 7 1) (ascii "m") (ascii "b") [] emptyMailbox).events[4], List.getElem_mem _, ?_⟩
  exact .inl ⟨rfl, by decide, newUid 7 1, rfl, by decide +kernel⟩

/-- Fifteen reads that are not answered, and one of a list that is missing. -/
def lateAnswer : List Nat := 2 :: 2 :: List.replicate 15 0

/-- The message is deleted, and its uid is in the list. -/
theorem not_allOrNothing_lateAnswer : ¬ ∀ outcomes : List Nat,
    (∀ e ∈ (sentMessage.run (newUid 7 1) (ascii "m") (ascii "b") (outcomes.map .alone) emptyMailbox).events,
      DeletesWork e) →
    AllOrNothing sentMessage (newUid 7 1) (ascii "m") (ascii "b")
      (sentMessage.run (newUid 7 1) (ascii "m") (ascii "b") (outcomes.map .alone) emptyMailbox).value
      (sentMessage.run (newUid 7 1) (ascii "m") (ascii "b") (outcomes.map .alone) emptyMailbox).store := by
  intro h
  have hlate := h lateAnswer (by decide +kernel)
  have hno : (sentMessage.run (newUid 7 1) (ascii "m") (ascii "b") (lateAnswer.map .alone) emptyMailbox).value =
      false := by decide +kernel
  rw [AllOrNothing, hno] at hlate
  exact hlate.unlisted (.folder (ascii "u") .sent) (.inl ⟨.sent, rfl⟩) (by decide +kernel)

end NCloud.Frontend.Mail
