import NCloud.Lib.Decimal
import NCloud.Frontend.Cells

/-!
# Sessions

`session.h`. A session is kept in nine rows, the last of them the one older builds used.
`validate_status` looks through the rows in order, and when it had to go as far as the
last one, it writes the other copies anew. It does so after its reads, so a logout may
have come in between, and then the session is back.

As long as no copy is written into a cell that a logout has emptied (`Meets`), a logout
is final.
-/

namespace NCloud.Frontend

open Process Wire KeyValue

namespace Sessions

/-- `session_rows`. -/
def sessionRows : List Nat := List.range 9

/-- `session_row`, the last of them. -/
def sessionRow : Nat := 8

/-- `SESSION_TTL_SECONDS`. -/
def sessionTtlSeconds : Nat := 7 * 86400

/-- The loop of `create`: how many copies were stored. -/
def storeCopies (sid username expiry : Bytes) : List Nat → FeProg Nat
  | [] => return 0
  | row :: rows => do
      if !(← put (.sessionUser sid row) username) then storeCopies sid username expiry rows
      else if !(← put (.sessionExpiry sid row) expiry) then
        let _ ← del (.sessionUser sid row)
        let _ ← del (.sessionExpiry sid row)
        storeCopies sid username expiry rows
      else return (← storeCopies sid username expiry rows) + 1

/-- `create`, given what `generate_sid` returned. -/
def create (username sid : Bytes) (now : Nat) : FeProg Bytes := do
  if sid = [] then return []
  let stored ← storeCopies sid username (Decimal.text (now + sessionTtlSeconds)) sessionRows
  return if stored > 0 then sid else []

/-- `retry_get_status`, with so many attempts left. -/
def retryGetStatus (k : Cell) : Nat → FeProg (Read Bytes)
  | 0 => return .unavailable
  | attempts + 1 => do
      match ← getStatus k with
      | .unavailable => retryGetStatus k attempts
      | r => return r

/-- The loop of `destroy`. -/
def deleteRows (sid : Bytes) : List Nat → FeProg Unit
  | [] => return ()
  | row :: rows => do
      let _ ← del (.sessionUser sid row)
      let _ ← del (.sessionExpiry sid row)
      deleteRows sid rows

/-- `destroy`. -/
def destroy (sid : Bytes) : FeProg Unit := deleteRows sid sessionRows

/-- `destroy_async`, with the thread it starts. -/
def destroyAsync (sid : Bytes) : FeProg Unit :=
  if sid.length ≠ 32 then return () else deleteRows sid sessionRows

/-- `repair_session_copies`. -/
def repairSessionCopies (sid username expiry : Bytes) : List Nat → FeProg Unit
  | [] => return ()
  | row :: rows => do
      let _ ← put (.sessionUser sid row) username
      let _ ← put (.sessionExpiry sid row) expiry
      repairSessionCopies sid username expiry rows

/-- The loop of `validate_status`. The clock is read once at most. -/
def scanRows (sid : Bytes) (now : Int) : (sawUnavailable : Bool) → List Nat → FeProg (Read Bytes)
  | sawUnavailable, [] => return if sawUnavailable then .unavailable else .notFound
  | sawUnavailable, row :: rows => do
      match ← retryGetStatus (.sessionUser sid row) 6 with
      | .unavailable => scanRows sid now true rows
      | .notFound => scanRows sid now sawUnavailable rows
      | .found username =>
          match ← retryGetStatus (.sessionExpiry sid row) 6 with
          | .unavailable => scanRows sid now true rows
          | .notFound => scanRows sid now sawUnavailable rows
          | .found expiry =>
              match Decimal.stol expiry with
              | none => scanRows sid now sawUnavailable rows
              | some exp =>
                  if now > exp then
                    destroy sid
                    return .notFound
                  else
                    if row = sessionRow then repairSessionCopies sid username expiry sessionRows
                    return .found username

/-- `validate_status`. -/
def validateStatus (sid : Bytes) (now : Int) : FeProg (Read Bytes) :=
  if sid.length ≠ 32 then return .notFound else scanRows sid now false sessionRows

/-! ## Logout -/

/-- Calls on one session. -/
inductive Call where
  | validate (now : Int)
  | destroy
  | destroyAsync

variable (sid : Bytes)

/-- What they run. A logout says when it is through. -/
def Call.main : Call → FeProg Unit
  | .validate now => do
      let _ ← validateStatus sid now
  | .destroy => do
      Sessions.destroy sid
      answer (.ok sid [])
  | .destroyAsync => do
      Sessions.destroyAsync sid
      answer (.ok sid [])

/-- The cells that have been emptied, and the answers. -/
structure Past where
  emptied : List Cell
  answers : List Answer

/-- What is written down. -/
abbrev watch : Watch Cell Bytes Answer where
  Past := Past
  note := fun _ a r _ p =>
    match a, r with
    | .del k, true => { p with emptied := k :: p.emptied }
    | .answer ans, _ => { p with answers := ans :: p.answers }
    | _, _ => p

/-- States. -/
abbrev St := Store Cell Bytes × Past

/-- Deletes succeed. -/
def Deletes (_ io : Nat) (a : Act Cell Bytes Answer) (_ : St) : Prop := ∀ k, a = .del k → 2 ≤ io

/-- And no copy is written into a cell that has been emptied. -/
def Meets (i io : Nat) (a : Act Cell Bytes Answer) (σ : St) : Prop :=
  Deletes i io a σ ∧ ∀ k v, a = .put k v → k ∉ σ.2.emptied

/-- A logout is through. -/
def LoggedOut (σ : St) : Prop := Answer.ok sid [] ∈ σ.2.answers

instance (sid : Bytes) (σ : St) : Decidable (LoggedOut sid σ) := inferInstanceAs (Decidable (_ ∈ _))

/-- No copy is left. -/
def Gone (s : Store Cell Bytes) : Prop :=
  ∀ row ∈ sessionRows, s (.sessionUser sid row) = none ∧ s (.sessionExpiry sid row) = none

/-- What has been emptied stays empty, and a logout that is through has emptied all. -/
structure Final (σ : St) : Prop where
  empty : ∀ k ∈ σ.2.emptied, σ.1 k = none
  all : LoggedOut sid σ → ∀ row ∈ sessionRows,
    Cell.sessionUser sid row ∈ σ.2.emptied ∧ Cell.sessionExpiry sid row ∈ σ.2.emptied

/-- The rules: nobody fills what has been emptied. -/
def rules : Rules watch where
  Inv := Final sid
  Rely := fun _ σ σ' => ∀ k ∈ σ.2.emptied, k ∈ σ'.2.emptied
  Ok := Meets
  rely_refl := fun _ _ _ h => h
  rely_trans := fun h₁ h₂ k hk => h₂ k (h₁ k hk)

variable {sid} {i : Nat} {σ : St} {α : Type}

/-! ### Single operations -/

/-- Reads change nothing. -/
theorem keeps_get (k : Cell) (io : Nat) (h : Final sid σ) :
    (rules sid).Keeps i σ (after watch i io (.get k) σ) :=
  ⟨h, fun _ _ _ hk => hk⟩

theorem keeps_put {k : Cell} {v : Bytes} {io : Nat} (h : Final sid σ) (hok : Meets i io (.put k v) σ) :
    (rules sid).Keeps i σ (after watch i io (.put k v) σ) := by
  refine ⟨⟨?_, h.all⟩, fun _ _ _ hk => hk⟩
  intro k' hk'
  have hne : k' ≠ k := fun heq => hok.2 k v rfl (heq ▸ hk')
  show (exec io σ.1 (.put k v : Act Cell Bytes Answer)).2 k' = none
  rw [put_of_ne hne]
  exact h.empty k' hk'

/-- The cell goes on the list. -/
theorem after_del {k : Cell} {io : Nat} (hio : 2 ≤ io) :
    after watch i io (.del k) σ = (Function.update σ.1 k none, { σ.2 with emptied := k :: σ.2.emptied }) := by
  have hres : exec io σ.1 (.del k : Act Cell Bytes Answer) = (true, Function.update σ.1 k none) := by
    show (decide (2 ≤ io), if io = 0 then σ.1 else Function.update σ.1 k none) = _
    rw [if_neg (by omega), decide_eq_true hio]
  simp only [after, hres]

theorem keeps_del {k : Cell} {io : Nat} (h : Final sid σ) (hok : Meets i io (.del k) σ) :
    (rules sid).Keeps i σ (after watch i io (.del k) σ) := by
  rw [after_del (hok.1 k rfl)]
  refine ⟨⟨?_, ?_⟩, fun _ _ _ hk => List.mem_cons_of_mem _ hk⟩
  · intro k' hk'
    by_cases heq : k' = k
    · subst heq
      exact Function.update_self ..
    · rcases List.mem_cons.mp hk' with rfl | hk'
      · exact absurd rfl heq
      · exact (Function.update_of_ne heq ..).trans (h.empty k' hk')
  · intro hout row hrow
    obtain ⟨hu, he⟩ := h.all hout row hrow
    exact ⟨List.mem_cons_of_mem _ hu, List.mem_cons_of_mem _ he⟩

/-- A delete, and then the rest. -/
theorem safe_del {k : Cell} {f : Bool → FeProg α} {Q : α → St → Prop}
    (hf : ∀ (σ₁ : St) ok, k ∈ σ₁.2.emptied → (∀ k' ∈ σ.2.emptied, k' ∈ σ₁.2.emptied) →
      (rules sid).Safe (Call.main sid) i (f ok) Q σ₁) :
    (rules sid).Safe (Call.main sid) i (del k >>= f) Q σ := by
  refine Rules.safe_act ?_
  intro σ₁ io hr hi hok
  refine ⟨keeps_del hi hok, hf _ _ ?_ ?_⟩
  · rw [after_del (hok.1 k rfl)]
    exact List.mem_cons_self
  · rw [after_del (hok.1 k rfl)]
    exact fun k' hk' => List.mem_cons_of_mem _ (hr k' hk')

/-! ### Programs -/

/-- Reads, writes and deletes. -/
def Plain : Act Cell Bytes Answer → Prop
  | .get _ => True
  | .put _ _ => True
  | .del _ => True
  | _ => False

/-- They can be made at any time. -/
theorem safe_of_plain {p : FeProg α} (hp : p.Only Plain (fun _ => True)) (σ : St) :
    (rules sid).Safe (Call.main sid) i p (fun _ _ => True) σ := by
  refine Rules.safe_of_only (W := watch) ?_ hp σ
  intro a σ io ha hi hok
  cases a with
  | get k => exact keeps_get k io hi
  | put k v => exact keeps_put hi hok
  | cput k old new => exact ha.elim
  | del k => exact keeps_del hi hok
  | answer ans => exact ha.elim

theorem only_retryGetStatus (k : Cell) (attempts : Nat) :
    (retryGetStatus k attempts).Only Plain (fun _ => True) := by
  induction attempts with
  | zero => trivial
  | succ attempts ih =>
      refine ⟨trivial, fun r => ?_⟩
      cases r with
      | unavailable => exact ih
      | found v => trivial
      | notFound => trivial

theorem only_deleteRows (sid : Bytes) (rows : List Nat) :
    (deleteRows sid rows).Only Plain (fun _ => True) := by
  induction rows with
  | nil => trivial
  | cons row rows ih => exact ⟨trivial, fun _ => ⟨trivial, fun _ => ih⟩⟩

theorem only_repairSessionCopies (sid username expiry : Bytes) (rows : List Nat) :
    (repairSessionCopies sid username expiry rows).Only Plain (fun _ => True) := by
  induction rows with
  | nil => trivial
  | cons row rows ih => exact ⟨trivial, fun _ => ⟨trivial, fun _ => ih⟩⟩

theorem only_scanRows (sid : Bytes) (now : Int) (rows : List Nat) (sawUnavailable : Bool) :
    (scanRows sid now sawUnavailable rows).Only Plain (fun _ => True) := by
  induction rows generalizing sawUnavailable with
  | nil => trivial
  | cons row rows ih =>
      refine Prog.Only.bind (only_retryGetStatus _ _) (fun r => ?_)
      cases r with
      | unavailable => exact ih true
      | notFound => exact ih sawUnavailable
      | found username =>
          refine Prog.Only.bind (only_retryGetStatus _ _) (fun r => ?_)
          cases r with
          | unavailable => exact ih true
          | notFound => exact ih sawUnavailable
          | found expiry =>
              show Prog.Only _ _ (match Decimal.stol expiry with | none => _ | some exp => _)
              split
              · exact ih sawUnavailable
              · split
                · exact Prog.Only.bind (only_deleteRows sid _) (fun _ => trivial)
                · split
                  · exact Prog.Only.bind (only_repairSessionCopies sid _ _ _) (fun _ => trivial)
                  · trivial

theorem only_validateStatus (sid : Bytes) (now : Int) :
    (validateStatus sid now).Only Plain (fun _ => True) := by
  unfold validateStatus
  split
  · trivial
  · exact only_scanRows sid now _ _

/-- A logout empties what it goes through. -/
theorem safe_deleteRows (rows : List Nat) (σ : St) :
    (rules sid).Safe (Call.main sid) i (deleteRows sid rows)
      (fun _ σ' => (∀ k ∈ σ.2.emptied, k ∈ σ'.2.emptied) ∧ ∀ row ∈ rows,
        Cell.sessionUser sid row ∈ σ'.2.emptied ∧ Cell.sessionExpiry sid row ∈ σ'.2.emptied) σ := by
  induction rows generalizing σ with
  | nil => exact fun σ₁ hr _ => ⟨hr, fun row hrow => absurd hrow List.not_mem_nil⟩
  | cons row rows ih =>
      refine safe_del (fun σ₁ _ hu hr₁ => safe_del (fun σ₂ _ he hr₂ => ?_))
      refine (ih σ₂).weaken ?_
      rintro _ σ₃ _ ⟨hr₃, hrows⟩
      refine ⟨fun k hk => hr₃ k (hr₂ k (hr₁ k hk)), ?_⟩
      intro row' hrow'
      rcases List.mem_cons.mp hrow' with rfl | hrow'
      · exact ⟨hr₃ _ (hr₂ _ hu), hr₃ _ he⟩
      · exact hrows row' hrow'

/-- And then says so. -/
theorem safe_logout (hi : Final sid σ) :
    (rules sid).Safe (Call.main sid) i (deleteRows sid sessionRows >>= fun _ => answer (.ok sid []))
      (fun _ _ => True) σ := by
  refine Logic.Safe.bind ((safe_deleteRows sessionRows σ).weaken ?_) hi
  rintro _ σ₁ _ ⟨-, hrows⟩ _
  refine Rules.safe_act (f := fun _ => pure ()) ?_
  intro σ₂ io hr hi₂ _
  refine ⟨⟨⟨hi₂.empty, ?_⟩, fun _ _ _ hk => hk⟩, fun _ _ _ => trivial⟩
  intro _ row hrow
  obtain ⟨hu, he⟩ := hrows row hrow
  exact ⟨hr _ hu, hr _ he⟩

theorem safe_call (hlen : sid.length = 32) (call : Call) (i : Nat) (hi : Final sid σ) :
    (rules sid).Safe (Call.main sid) i (call.main sid) (fun _ _ => True) σ := by
  cases call with
  | validate now =>
      exact Logic.Safe.bind ((safe_of_plain (only_validateStatus sid now) σ).weaken
        (fun _ _ _ _ _ => fun _ _ _ => trivial)) hi
  | destroy => exact safe_logout hi
  | destroyAsync =>
      show (rules sid).Safe (Call.main sid) i (destroyAsync sid >>= fun _ => answer (.ok sid [])) _ σ
      rw [destroyAsync, if_neg (by simp [hlen])]
      exact safe_logout hi

/-! ### Afterwards -/

theorem run_retryGetStatus {k : Cell} {s : Store Cell Bytes} (h : s k = none) :
    run (retryGetStatus k 6) s = (.notFound, s) := by
  rw [retryGetStatus, run_bind, run_getStatus, h]
  rfl

/-- Without copies there is no session. -/
theorem run_scanRows {s : Store Cell Bytes} {rows : List Nat} (now : Int)
    (h : ∀ row ∈ rows, s (.sessionUser sid row) = none) :
    run (scanRows sid now false rows) s = (.notFound, s) := by
  induction rows with
  | nil => rfl
  | cons row rows ih =>
      rw [scanRows, run_bind, run_retryGetStatus (h row List.mem_cons_self)]
      exact ih (fun row' hrow' => h row' (List.mem_cons_of_mem _ hrow'))

theorem run_validateStatus {s : Store Cell Bytes} (h : Gone sid s) (now : Int) :
    run (validateStatus sid now) s = (.notFound, s) := by
  unfold validateStatus
  split
  · rfl
  · exact run_scanRows now (fun row hrow => (h row hrow).1)

/--
**Logout is final.**

In every run in which no copy is written into a cell that a logout has emptied, once a
logout is through the session is gone, and whoever asks for it is told so.
-/
theorem gone_of_reach (hlen : sid.length = 32) {s₀ : Store Cell Bytes}
    {c : Config (watched watch (Call.main sid))}
    (h : Reach (s₀, ⟨[], []⟩) (When (fun i _ io a σ => Meets i io a σ)) c) (hout : LoggedOut sid c.st) :
    Gone sid c.st.1 ∧ ∀ now, run (validateStatus sid now) c.st.1 = (.notFound, c.st.1) := by
  have hinv : Final sid c.st :=
    Rules.inv_of_reach (R := rules sid)
      ⟨fun _ h => absurd h List.not_mem_nil, fun h => absurd h List.not_mem_nil⟩
      (fun call i _ hi => safe_call hlen call i hi) h
  have hgone : Gone sid c.st.1 := by
    intro row hrow
    obtain ⟨hu, he⟩ := hinv.all hout row hrow
    exact ⟨hinv.empty _ hu, hinv.empty _ he⟩
  exact ⟨hgone, run_validateStatus hgone⟩

/-! ### A late repair -/

section Repair

/-- A session. -/
def someSid : Bytes := List.replicate 32 97

/-- It is stored the way older builds did. -/
def legacy : Store Cell Bytes := fun k =>
  if k = .sessionUser someSid sessionRow then some (ascii "u")
  else if k = .sessionExpiry someSid sessionRow then some (ascii "99")
  else none

/-- The conditions, tested. -/
def deletesTest (_ : Nat) (_ : Unit) (io : Nat) (a : Act Cell Bytes Answer) (_ : St) : Bool :=
  match a with
  | .del _ => decide (2 ≤ io)
  | _ => true

theorem deletes_of_test (i : Nat) (l : Unit) (io : Nat) (a : Act Cell Bytes Answer) (σ : St)
    (h : deletesTest i l io a σ = true) : Deletes i io a σ := by
  rintro k rfl
  exact of_decide_eq_true h

def meetsTest (i : Nat) (l : Unit) (io : Nat) (a : Act Cell Bytes Answer) (σ : St) : Bool :=
  deletesTest i l io a σ &&
    match a with
    | .put k _ => decide (k ∉ σ.2.emptied)
    | _ => true

theorem meets_of_test (i : Nat) (l : Unit) (io : Nat) (a : Act Cell Bytes Answer) (σ : St)
    (h : meetsTest i l io a σ = true) : Meets i io a σ := by
  obtain ⟨h₁, h₂⟩ := (Bool.and_eq_true _ _).mp h
  refine ⟨deletes_of_test i l io a σ h₁, ?_⟩
  rintro k v rfl
  exact of_decide_eq_true h₂

/-- Nothing is ever sent. -/
def answers : Empty → Bool := fun c => c.elim

/-- Whether the logout is through, and whether there is a copy in the first row. -/
def report (σ : St) : Bool × Bool :=
  (decide (LoggedOut someSid σ), (σ.1 (.sessionUser someSid 0)).isSome)

theorem of_report {σ : St} {b : Bool} (h : report σ = (true, b)) :
    LoggedOut someSid σ ∧ (b = true → ¬ Gone someSid σ.1) := by
  obtain ⟨h₁, h₂⟩ := Prod.mk.inj h
  refine ⟨of_decide_eq_true h₁, ?_⟩
  rintro rfl hgone
  rw [(hgone 0 (by decide)).1] at h₂
  exact absurd h₂ (by decide)

/-- The session is used, and then ended. -/
def useThenEnd : List (Line (watched watch (Call.main someSid))) :=
  [.move (.start (.validate 0)), .drive answers 60 0, .move (.start .destroy), .drive answers 60 1]

theorem gone_of_reach_useThenEnd : ∃ c : Config (watched watch (Call.main someSid)),
    LoggedOut someSid c.st ∧ Gone someSid c.st.1 ∧
      ∀ now, run (validateStatus someSid now) c.st.1 = (.notFound, c.st.1) := by
  obtain ⟨c, hr, hc⟩ := reach_of_play (when_of_test meets_of_test) (legacy, ⟨[], []⟩) useThenEnd
    (fun σ => decide (report σ = (true, false))) (by decide +kernel)
  obtain ⟨hout, -⟩ := of_report (of_decide_eq_true hc)
  exact ⟨c, hout, gone_of_reach (by decide) hr hout⟩

/-- A validation has read the last row when the logout comes, and writes its copies after
it. -/
def lateRepair : List (Line (watched watch (Call.main someSid))) :=
  [.move (.start (.validate 0)), .move (.start .destroy)] ++
    List.replicate 10 (.move (.act 0 2)) ++ [.drive answers 60 1, .drive answers 60 0]

/-- **The session is back.** -/
theorem not_gone_lateRepair : ¬ ∀ c : Config (watched watch (Call.main someSid)),
    Reach (legacy, ⟨[], []⟩) (When (fun i _ io a σ => Deletes i io a σ)) c → c.Quiet →
      LoggedOut someSid c.st → Gone someSid c.st.1 ∧
        ∀ now, run (validateStatus someSid now) c.st.1 = (.notFound, c.st.1) := by
  intro h
  obtain ⟨c, hr, hquiet, hc⟩ := quiet_of_play (when_of_test deletes_of_test) (legacy, ⟨[], []⟩)
    lateRepair (fun σ => decide (report σ = (true, true))) (by decide +kernel)
  obtain ⟨hout, hback⟩ := of_report (of_decide_eq_true hc)
  exact hback rfl (h c hr hquiet hout).1

end Repair

end Sessions

end NCloud.Frontend
