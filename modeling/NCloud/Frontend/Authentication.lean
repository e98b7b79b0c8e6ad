import NCloud.Frontend.Accounts
import NCloud.Frontend.Credentials

/-!
# Who gets in

Requests carry a session id, and the front end lets in the user whom the session rows name.
The rows and the passwords are cells like all others, written and read one at a time, while
reads fail and writes are lost or only reported as lost.

`Derives` says what the requests that have come in so far can have brought about: a
password is what it was, or a sign-up chose it for a name that had none, or somebody who knew
the one before has replaced it; a session was there, or a sign-up or a login with a password
that verified has drawn it. Whatever the interleaving, the store holds nothing else, and
nobody else gets in.
-/

namespace NCloud.Frontend

open Process Wire KeyValue

namespace Authentication

/-- A request for `handle_login`, with what the system hands out on the way. -/
structure Login where
  username : Bytes
  password : Bytes
  /-- For a hash with today's cost, if `/dev/urandom` could be read. -/
  salt : Option Bytes
  sid : Bytes
  now : Nat

/-- A request for `handle_change_password`. -/
structure Change where
  sid : Bytes
  oldPassword : Bytes
  newPassword : Bytes
  salt : Option Bytes
  /-- When `dispatch` looks for the user, and when the handler does. -/
  asked : Int
  now : Int

/-- Requests. -/
inductive Request where
  | login (q : Login)
  | signup (username : Bytes) (q : Accounts.Signup)
  | change (q : Change)
  | session (sid : Bytes) (now : Int)
  | logout (sid : Bytes)
  /-- Any other one that needs a user. -/
  | api (sid : Bytes) (now : Int)

/-- Somebody has been let in. -/
structure Entry where
  sid : Bytes
  user : Bytes
  now : Int
  deriving DecidableEq

/-- What the front end says beside its operations on the store. -/
inductive Event where
  | received (q : Request)
  | entered (e : Entry)
  | answered (ans : Answer)

abbrev AuthProg := Prog (sig Cell Bytes Event)

/-- An operation of the front end. -/
def liftAct : Act Cell Bytes Answer → Act Cell Bytes Event
  | .get k => .get k
  | .put k v => .put k v
  | .cput k old new => .cput k old new
  | .del k => .del k
  | .answer ans => .answer (.answered ans)

/-- What it returned. -/
def liftRes : (a : Act Cell Bytes Answer) → (liftAct a).Res → a.Res
  | .get _, r => r
  | .put _ _, r => r
  | .cput _ _ _, r => r
  | .del _, r => r
  | .answer _, r => r

/-- Programs of the front end, here. -/
def feHom : Hom (sig Cell Bytes Answer) (sig Cell Bytes Event) where
  act := liftAct
  res := liftRes
  call := fun c => c
  reply := fun r => r

def fe {α : Type} (p : FeProg α) : AuthProg α := p.lift feHom

/-! ## The handlers -/

/-- `validate`. -/
def validate (sid : Bytes) (now : Int) : AuthProg Bytes := do
  match ← fe (Sessions.validateStatus sid now) with
  | .found user => return user
  | _ => return []

/-- What `dispatch` does for a request that needs a user: `get_user`, and the handler. -/
def withUser (sid : Bytes) (now : Int) (handler : Bytes → AuthProg Answer) : AuthProg Answer := do
  let user ← validate sid now
  if user = [] then return .error "Unauthorized"
  answer (.entered ⟨sid, user, now⟩)
  handler user

/-- `handle_login`. -/
def handleLogin (q : Login) : AuthProg Answer := do
  if q.username = [] ∨ q.password = [] then return .error "Missing credentials"
  match ← getStatus (.pwd q.username) with
  | .unavailable => return .error "Storage temporarily unavailable, please try again"
  | .notFound => return .error "Invalid username or password"
  | .found stored =>
      let verdict := Password.verify q.password stored
      if !verdict.ok then return .error "Invalid username or password"
      if verdict.needsRehash then
        let upgraded := Password.hashPassword q.password q.salt
        if upgraded ≠ [] then
          let _ ← put (.pwd q.username) upgraded
      let sid ← fe (Sessions.create q.username q.sid q.now)
      if sid = [] then return .error "Storage temporarily unavailable, please try again"
      return .ok sid []

/-- `handle_change_password`. -/
def handleChangePassword (q : Change) : AuthProg Answer := do
  let user ← validate q.sid q.now
  if user = [] then return .error "Unauthorized"
  if q.newPassword = [] then return .error "New password cannot be empty"
  match ← getStatus (.pwd user) with
  | .unavailable => return .error "Storage temporarily unavailable, please try again"
  | .notFound => return .error "Unauthorized"
  | .found stored =>
      if !(Password.verify q.oldPassword stored).ok then return .error "Wrong current password"
      let newHash := Password.hashPassword q.newPassword q.salt
      if newHash = [] then return .error "Could not securely store password, please try again"
      if !(← put (.pwd user) newHash) then
        return .error "Storage temporarily unavailable, please try again"
      return .ok [] []

/-- `handle_session`. It tells whoever asks the name of the user. -/
def handleSession (sid : Bytes) (now : Int) : AuthProg Answer := do
  match ← fe (Sessions.validateStatus sid now) with
  | .found user =>
      answer (.entered ⟨sid, user, now⟩)
      return .ok user []
  | .unavailable => return .error "storage unavailable"
  | .notFound => return .ok [] []

/-- `handle_logout`, with the thread it starts. -/
def handleLogout (sid : Bytes) : AuthProg Answer := do
  if sid ≠ [] then fe (Sessions.destroyAsync sid)
  return .ok [] []

/-- `dispatch`, as far as users go. -/
def Request.handle : Request → AuthProg Answer
  | .login q => handleLogin q
  | .signup username q => fe (Accounts.handleSignup username q)
  | .change q => withUser q.sid q.asked (fun _ => handleChangePassword q)
  | .session sid now => handleSession sid now
  | .logout sid => handleLogout sid
  | .api sid now => withUser sid now (fun user => return .ok user [])

/-- A request from its arrival to its answer. -/
def Request.main (q : Request) : AuthProg Unit := do
  answer (.received q)
  let ans ← q.handle
  answer (.answered ans)

/-! ## What requests can bring about -/

/-- What a cell may hold. -/
inductive Fact where
  | password (user value : Bytes)
  | session (sid user : Bytes)
  | expiry (sid value : Bytes)

/-- `expiry`, as `create` writes it. -/
def expiryOf (now : Nat) : Bytes := Decimal.text (now + Sessions.sessionTtlSeconds)

section Facts

variable (s₀ : Store Cell Bytes) (reqs : List Request)

/-- From this store, these requests can bring it about. -/
inductive Derives : Fact → Prop where
  | password {user value : Bytes} : s₀ (.pwd user) = some value → Derives (.password user value)
  | session {sid user : Bytes} {row : Nat} : s₀ (.sessionUser sid row) = some user → Derives (.session sid user)
  | expiry {sid value : Bytes} {row : Nat} : s₀ (.sessionExpiry sid row) = some value → Derives (.expiry sid value)
  /-- A sign-up chooses a password. -/
  | chosen {user : Bytes} {q : Accounts.Signup} : .signup user q ∈ reqs → s₀ (.pwd user) = none →
      Derives (.password user (Password.hashPassword q.password q.salt))
  | signedUp {user : Bytes} {q : Accounts.Signup} : .signup user q ∈ reqs → s₀ (.pwd user) = none →
      Derives (.session q.sid user)
  | signedUpUntil {user : Bytes} {q : Accounts.Signup} : .signup user q ∈ reqs → s₀ (.pwd user) = none →
      Derives (.expiry q.sid (expiryOf q.now))
  /-- A login with a password that verifies hashes it anew. -/
  | rehashed {q : Login} {value : Bytes} : .login q ∈ reqs → Derives (.password q.username value) →
      (Password.verify q.password value).ok = true →
      Derives (.password q.username (Password.hashPassword q.password q.salt))
  | loggedIn {q : Login} {value : Bytes} : .login q ∈ reqs → Derives (.password q.username value) →
      (Password.verify q.password value).ok = true → Derives (.session q.sid q.username)
  | loggedInUntil {q : Login} {value : Bytes} : .login q ∈ reqs → Derives (.password q.username value) →
      (Password.verify q.password value).ok = true → Derives (.expiry q.sid (expiryOf q.now))
  /-- Somebody who is in and knows the password replaces it. -/
  | changed {q : Change} {user value : Bytes} : .change q ∈ reqs → Derives (.session q.sid user) →
      Derives (.password user value) → (Password.verify q.oldPassword value).ok = true →
      Derives (.password user (Password.hashPassword q.newPassword q.salt))

/-- It may be in the cell. -/
def Allowed : Cell → Bytes → Prop
  | .pwd user, v => Derives s₀ reqs (.password user v)
  | .sessionUser sid _, v => Derives s₀ reqs (.session sid v)
  | .sessionExpiry sid _, v => Derives s₀ reqs (.expiry sid v)
  | _, _ => True

/-- A session of the user, and not past its time. -/
structure Admits (sid user : Bytes) (now : Int) : Prop where
  session : Derives s₀ reqs (.session sid user)
  inTime : ∃ value exp, Derives s₀ reqs (.expiry sid value) ∧ Decimal.stol value = some exp ∧ now ≤ exp

variable {s₀ reqs} {reqs' : List Request}

/-- More requests can bring about more. -/
theorem Derives.mono (hsub : ∀ q ∈ reqs, q ∈ reqs') {f : Fact} (h : Derives s₀ reqs f) : Derives s₀ reqs' f := by
  induction h with
  | password h => exact .password h
  | session h => exact .session h
  | expiry h => exact .expiry h
  | chosen h hnone => exact .chosen (hsub _ h) hnone
  | signedUp h hnone => exact .signedUp (hsub _ h) hnone
  | signedUpUntil h hnone => exact .signedUpUntil (hsub _ h) hnone
  | rehashed h _ hver ih => exact .rehashed (hsub _ h) ih hver
  | loggedIn h _ hver ih => exact .loggedIn (hsub _ h) ih hver
  | loggedInUntil h _ hver ih => exact .loggedInUntil (hsub _ h) ih hver
  | changed h _ _ hver ihs ihp => exact .changed (hsub _ h) ihs ihp hver

theorem Allowed.mono (hsub : ∀ q ∈ reqs, q ∈ reqs') {k : Cell} {v : Bytes} (h : Allowed s₀ reqs k v) :
    Allowed s₀ reqs' k v := by
  cases k with
  | pwd user => exact Derives.mono hsub h
  | sessionUser sid row => exact Derives.mono hsub h
  | sessionExpiry sid row => exact Derives.mono hsub h
  | _ => trivial

theorem Admits.mono (hsub : ∀ q ∈ reqs, q ∈ reqs') {sid user : Bytes} {now : Int}
    (h : Admits s₀ reqs sid user now) : Admits s₀ reqs' sid user now := by
  obtain ⟨value, exp, hv, hexp, hle⟩ := h.inTime
  exact ⟨h.session.mono hsub, value, exp, hv.mono hsub, hexp, hle⟩

/--
**Strangers.**

A user is registered and has no session. As long as every login for this name comes with a
password that does not verify, the password stays what it is and there is no session,
whatever the other requests are.
-/
theorem Derives.stranger {user value : Bytes} (hreg : s₀ (.pwd user) = some value)
    (hfails : ∀ q : Login, .login q ∈ reqs → q.username = user → (Password.verify q.password value).ok = false)
    (hnone : ∀ sid row, s₀ (.sessionUser sid row) ≠ some user) {f : Fact} (h : Derives s₀ reqs f) :
    (∀ value', f = .password user value' → value' = value) ∧ ∀ sid, f ≠ .session sid user := by
  induction h with
  | password h =>
      refine ⟨fun value' heq => ?_, nofun⟩
      obtain ⟨rfl, rfl⟩ := Fact.password.inj heq
      exact Option.some.inj (h.symm.trans hreg)
  | session h =>
      refine ⟨nofun, fun sid heq => ?_⟩
      obtain ⟨rfl, rfl⟩ := Fact.session.inj heq
      exact hnone _ _ h
  | expiry h => exact ⟨nofun, nofun⟩
  | chosen h hfree =>
      refine ⟨fun value' heq => ?_, nofun⟩
      obtain ⟨rfl, rfl⟩ := Fact.password.inj heq
      exact absurd (hfree.symm.trans hreg) nofun
  | signedUp h hfree =>
      refine ⟨nofun, fun sid heq => ?_⟩
      obtain ⟨rfl, rfl⟩ := Fact.session.inj heq
      exact absurd (hfree.symm.trans hreg) nofun
  | signedUpUntil h hfree => exact ⟨nofun, nofun⟩
  | @rehashed q v h _ hver ih =>
      refine ⟨fun value' heq => ?_, nofun⟩
      obtain ⟨hname, rfl⟩ := Fact.password.inj heq
      obtain rfl := ih.1 v (by rw [hname])
      exact absurd (hver.symm.trans (hfails q h hname)) nofun
  | @loggedIn q v h _ hver ih =>
      refine ⟨nofun, fun sid heq => ?_⟩
      obtain ⟨-, hname⟩ := Fact.session.inj heq
      obtain rfl := ih.1 v (by rw [hname])
      exact absurd (hver.symm.trans (hfails q h hname)) nofun
  | loggedInUntil h _ _ _ => exact ⟨nofun, nofun⟩
  | @changed q u v h _ _ hver ihs ihp =>
      refine ⟨fun value' heq => ?_, nofun⟩
      obtain ⟨rfl, rfl⟩ := Fact.password.inj heq
      exact absurd rfl (ihs.2 q.sid)

end Facts

/-! ## Runs -/

/-- What is known of a run. -/
structure Past where
  reqs : List Request
  entries : List Entry

/-- What is written down. -/
abbrev watch : Watch Cell Bytes Event where
  Past := Past
  note := fun _ a _ _ p =>
    match a with
    | .answer (.received q) => { p with reqs := q :: p.reqs }
    | .answer (.entered e) => { p with entries := e :: p.entries }
    | _ => p

/-- States. -/
abbrev St := Store Cell Bytes × Past

/-- The store holds what the requests can have brought about, and nobody else got in. -/
structure Authentic (s₀ : Store Cell Bytes) (σ : St) : Prop where
  cells : ∀ k v, σ.1 k = some v → Allowed s₀ σ.2.reqs k v
  /-- Nobody loses a password. -/
  registered : ∀ user, s₀ (.pwd user) ≠ none → σ.1 (.pwd user) ≠ none
  entries : ∀ e ∈ σ.2.entries, Admits s₀ σ.2.reqs e.sid e.user e.now

/-- The rules: requests are not forgotten. -/
def rules (s₀ : Store Cell Bytes) : Rules watch where
  Inv := Authentic s₀
  Rely := fun _ σ σ' => ∀ q ∈ σ.2.reqs, q ∈ σ'.2.reqs
  Ok := fun _ _ _ _ => True
  rely_refl := fun _ _ _ h => h
  rely_trans := fun h₁ h₂ q hq => h₂ q (h₁ q hq)

section Safety

variable {s₀ : Store Cell Bytes} {i : Nat} {σ : St} {α : Type} {Q : α → St → Prop}

/-! ### Single operations -/

/-- An operation that writes what the requests can bring about. -/
def Fine (s₀ : Store Cell Bytes) (σ : St) : Act Cell Bytes Event → Prop
  | .get _ => True
  | .put k v => Allowed s₀ σ.2.reqs k v
  | .cput _ _ _ => False
  | .del (.pwd user) => s₀ (.pwd user) = none
  | .del _ => True
  | .answer (.received _) => True
  | .answer (.entered e) => Admits s₀ σ.2.reqs e.sid e.user e.now
  | .answer (.answered _) => True

theorem Fine.mono {σ' : St} (hsub : ∀ q ∈ σ.2.reqs, q ∈ σ'.2.reqs) {a : Act Cell Bytes Event}
    (h : Fine s₀ σ a) : Fine s₀ σ' a := by
  cases a with
  | get k => trivial
  | put k v => exact Allowed.mono hsub h
  | cput k old new => exact h
  | del k =>
      cases k with
      | pwd user => exact h
      | _ => trivial
  | answer e =>
      cases e with
      | received q => trivial
      | entered e => exact Admits.mono hsub h
      | answered ans => trivial

/-- The store after an operation, cell by cell. -/
theorem cell_after {a : Act Cell Bytes Event} {io : Nat} {s : Store Cell Bytes} {k : Cell} {v : Bytes}
    (hcput : ∀ k old new, a ≠ .cput k old new) (h : (exec io s a).2 k = some v) : s k = some v ∨ a = .put k v := by
  cases a with
  | get k' => exact .inl h
  | put k' v' =>
      by_cases hk : k = k'
      · subst hk
        simp only [exec] at h
        split at h
        · exact .inl h
        · rw [Function.update_self] at h
          exact .inr (by rw [Option.some.inj h])
      · exact .inl ((put_of_ne hk).symm.trans h)
  | cput k' old new => exact absurd rfl (hcput k' old new)
  | del k' =>
      simp only [exec] at h
      split at h
      · exact .inl h
      · by_cases hk : k = k'
        · subst hk
          rw [Function.update_self] at h
          exact absurd h (by simp)
        · rw [Function.update_of_ne hk] at h
          exact .inl h
  | answer e => exact .inl h

/-- **An operation that is fine keeps the store authentic.** -/
theorem keeps_of_fine {a : Act Cell Bytes Event} (io : Nat) (h : Authentic s₀ σ) (ha : Fine s₀ σ a) :
    (rules s₀).Keeps i σ (after watch i io a σ) ∧ ∀ q ∈ σ.2.reqs, q ∈ (after watch i io a σ).2.reqs := by
  have hsub : ∀ q ∈ σ.2.reqs, q ∈ (after watch i io a σ).2.reqs := by
    intro q hq
    cases a with
    | answer e =>
        cases e with
        | received q' => exact List.mem_cons_of_mem _ hq
        | _ => exact hq
    | _ => exact hq
  have hcput : ∀ k old new, a ≠ .cput k old new := by
    rintro k old new rfl
    exact ha
  refine ⟨⟨⟨?_, ?_, ?_⟩, fun _ _ => hsub⟩, hsub⟩
  · intro k v hv
    rcases cell_after hcput hv with hold | rfl
    · exact (h.cells k v hold).mono hsub
    · exact Allowed.mono hsub ha
  · intro user hreg hnone
    have hold := h.registered user hreg
    cases a with
    | get k => exact hold hnone
    | put k v =>
        simp only [after, exec] at hnone
        split at hnone
        · exact hold hnone
        · by_cases hk : Cell.pwd user = k
          · rw [hk, Function.update_self] at hnone
            exact absurd hnone (by simp)
          · rw [Function.update_of_ne hk] at hnone
            exact hold hnone
    | cput k old new => exact ha
    | del k =>
        by_cases hk : Cell.pwd user = k
        · subst hk
          exact hreg ha
        · exact hold ((del_of_ne (A := Event) hk).symm.trans hnone)
    | answer e => exact hold hnone
  · intro e he
    cases a with
    | answer ev =>
        cases ev with
        | entered e' =>
            rcases List.mem_cons.mp he with rfl | he
            · exact ha
            · exact (h.entries e he).mono hsub
        | received q => exact (h.entries e he).mono hsub
        | answered ans => exact h.entries e he
    | _ => exact h.entries e he

/-- One operation, and then the rest. -/
theorem safe_fine {a : Act Cell Bytes Event} {f : a.Res → AuthProg α} (ha : Fine s₀ σ a)
    (hf : ∀ r σ', (∀ q ∈ σ.2.reqs, q ∈ σ'.2.reqs) → Authentic s₀ σ' → (rules s₀).Safe Request.main i (f r) Q σ') :
    (rules s₀).Safe Request.main i (act a >>= f) Q σ := by
  refine Rules.safe_act ?_
  intro σ₁ io hr hi _
  obtain ⟨hkeep, hsub⟩ := keeps_of_fine (i := i) io hi (ha.mono hr)
  exact ⟨hkeep, hf _ _ (fun q hq => hsub q (hr q hq)) hkeep.inv⟩

/-- A read: what it finds was in the store. -/
theorem safe_get {k : Cell} {f : Read Bytes → AuthProg α}
    (hf : ∀ r σ', (∀ q ∈ σ.2.reqs, q ∈ σ'.2.reqs) → Authentic s₀ σ' → (∀ v, r = .found v → σ'.1 k = some v) →
      (r = .notFound → σ'.1 k = none) → (rules s₀).Safe Request.main i (f r) Q σ') :
    (rules s₀).Safe Request.main i (getStatus k >>= f) Q σ := by
  refine Rules.safe_act ?_
  intro σ₁ io hr hi _
  obtain ⟨hkeep, hsub⟩ := keeps_of_fine (a := .get k) (i := i) io hi trivial
  exact ⟨hkeep, hf _ _ (fun q hq => hsub q (hr q hq)) hkeep.inv (fun v hv => cell_of_found hv)
    (fun hv => cell_of_notFound hv)⟩

/-- Programs all of whose operations are fine under what stays true. -/
theorem safe_of_fine {P : Act Cell Bytes Event → Prop} {T : List Request → Prop}
    (hT : ∀ {reqs reqs'}, (∀ q ∈ reqs, q ∈ reqs') → T reqs → T reqs')
    (hP : ∀ a σ, P a → T σ.2.reqs → Fine s₀ σ a) {p : AuthProg α} (hp : p.Only P (fun _ => True))
    (h : T σ.2.reqs) : (rules s₀).Safe Request.main i p (fun _ σ' => ∀ q ∈ σ.2.reqs, q ∈ σ'.2.reqs) σ := by
  have hsafe : (rules s₀).Safe Request.main i p (fun _ σ' => T σ'.2.reqs ∧ ∀ q ∈ σ.2.reqs, q ∈ σ'.2.reqs) σ := by
    refine Rules.safe_keep (W := watch) (P := P) ?_ ?_ hp ⟨h, fun _ hq => hq⟩
    · intro σ₁ σ₂ hr hold
      exact ⟨hT hr hold.1, fun q hq => hr q (hold.2 q hq)⟩
    · intro a σ₁ io ha hi _ hold
      obtain ⟨hkeep, hsub⟩ := keeps_of_fine (i := i) io hi (hP a σ₁ ha hold.1)
      exact ⟨hkeep, hT hsub hold.1, fun q hq => hsub q (hold.2 q hq)⟩
  exact hsafe.weaken fun _ _ _ hq => hq.2

/-! ### Sessions -/

/-- Operations on the copies of a session. -/
def Copies (sid user expiry : Bytes) : Act Cell Bytes Answer → Prop
  | .put (.sessionUser sid' _) v => sid' = sid ∧ v = user
  | .put (.sessionExpiry sid' _) v => sid' = sid ∧ v = expiry
  | .del (.sessionUser _ _) => True
  | .del (.sessionExpiry _ _) => True
  | _ => False

theorem only_storeCopies (sid user expiry : Bytes) (rows : List Nat) :
    (Sessions.storeCopies sid user expiry rows).Only (Copies sid user expiry) (fun _ => True) := by
  induction rows with
  | nil => trivial
  | cons row rows ih =>
      refine ⟨⟨rfl, rfl⟩, fun ok => ?_⟩
      cases ok with
      | false => exact ih
      | true =>
          refine ⟨⟨rfl, rfl⟩, fun ok => ?_⟩
          cases ok with
          | false => exact ⟨trivial, fun _ => ⟨trivial, fun _ => ih⟩⟩
          | true =>
              show Prog.Only _ _ (Sessions.storeCopies sid user expiry rows >>= fun n => pure (n + 1))
              exact Prog.Only.bind ih (fun _ => trivial)

theorem only_deleteRows (sid user expiry : Bytes) (rows : List Nat) :
    (Sessions.deleteRows sid rows).Only (Copies sid user expiry) (fun _ => True) := by
  induction rows with
  | nil => trivial
  | cons row rows ih => exact ⟨trivial, fun _ => ⟨trivial, fun _ => ih⟩⟩

theorem only_repairSessionCopies (sid user expiry : Bytes) (rows : List Nat) :
    (Sessions.repairSessionCopies sid user expiry rows).Only (Copies sid user expiry) (fun _ => True) := by
  induction rows with
  | nil => trivial
  | cons row rows ih => exact ⟨⟨rfl, rfl⟩, fun _ => ⟨⟨rfl, rfl⟩, fun _ => ih⟩⟩

/-- Copies of a session that the requests can have brought about may be written. -/
theorem safe_copies {sid user : Bytes} (expiry : Bytes) {p : FeProg α}
    (hp : p.Only (Copies sid user expiry) (fun _ => True)) (hsession : Derives s₀ σ.2.reqs (.session sid user))
    (hexpiry : Derives s₀ σ.2.reqs (.expiry sid expiry)) :
    (rules s₀).Safe Request.main i (fe p) (fun _ σ' => ∀ q ∈ σ.2.reqs, q ∈ σ'.2.reqs) σ := by
  refine safe_of_fine (P := fun a => ∃ a₀, a = liftAct a₀ ∧ Copies sid user expiry a₀)
    (T := fun reqs => Derives s₀ reqs (.session sid user) ∧ Derives s₀ reqs (.expiry sid expiry))
    (fun hsub h => ⟨h.1.mono hsub, h.2.mono hsub⟩) ?_ (hp.lift (fun a ha => ⟨a, rfl, ha⟩) (fun _ _ => trivial))
    ⟨hsession, hexpiry⟩
  rintro _ σ₁ ⟨a, rfl, ha⟩ ⟨hs, he⟩
  cases a with
  | put k v =>
      cases k with
      | sessionUser sid' row =>
          obtain ⟨rfl, rfl⟩ := ha
          exact hs
      | sessionExpiry sid' row =>
          obtain ⟨rfl, rfl⟩ := ha
          exact he
      | _ => exact ha.elim
  | del k =>
      cases k with
      | sessionUser sid' row => trivial
      | sessionExpiry sid' row => trivial
      | _ => exact ha.elim
  | _ => exact ha.elim

/-- Rows are deleted, whosever they are. -/
theorem safe_deleteRows (sid : Bytes) (rows : List Nat) :
    (rules s₀).Safe Request.main i (fe (Sessions.deleteRows sid rows))
      (fun _ σ' => ∀ q ∈ σ.2.reqs, q ∈ σ'.2.reqs) σ := by
  induction rows generalizing σ with
  | nil => exact fun σ₁ hr _ => hr
  | cons row rows ih =>
      refine safe_fine (a := .del _) trivial (fun _ σ₁ hr₁ _ => ?_)
      refine safe_fine (a := .del _) trivial (fun _ σ₂ hr₂ _ => ?_)
      exact ih.weaken fun _ σ₃ _ hr₃ q hq => hr₃ q (hr₂ q (hr₁ q hq))

/-- What is read in the end may be in the cell. -/
theorem safe_retryGetStatus (k : Cell) (attempts : Nat) :
    (rules s₀).Safe Request.main i (fe (Sessions.retryGetStatus k attempts))
      (fun r σ' => (∀ q ∈ σ.2.reqs, q ∈ σ'.2.reqs) ∧ ∀ v, r = .found v → Allowed s₀ σ'.2.reqs k v) σ := by
  induction attempts generalizing σ with
  | zero => exact fun σ₁ hr _ => ⟨hr, fun _ h => absurd h (by simp)⟩
  | succ attempts ih =>
      refine safe_get (fun r σ₁ hr₁ hi₁ hfound _ => ?_)
      cases r with
      | unavailable => exact ih.weaken fun _ σ₂ _ h₂ => ⟨fun q hq => h₂.1 q (hr₁ q hq), h₂.2⟩
      | notFound => exact fun σ₂ hr₂ _ => ⟨fun q hq => hr₂ q (hr₁ q hq), by rintro v ⟨⟩⟩
      | found v =>
          refine fun σ₂ hr₂ _ => ⟨fun q hq => hr₂ q (hr₁ q hq), fun v' hv => ?_⟩
          obtain rfl := Read.found.inj hv
          exact (hi₁.cells k v (hfound v rfl)).mono hr₂

/-- **`validate_status`.** Whom it finds has a session that has not expired. -/
theorem safe_scanRows (sid : Bytes) (now : Int) (saw : Bool) (rows : List Nat) (hi : Authentic s₀ σ) :
    (rules s₀).Safe Request.main i (fe (Sessions.scanRows sid now saw rows))
      (fun r σ' => (∀ q ∈ σ.2.reqs, q ∈ σ'.2.reqs) ∧
        ∀ user, r = .found user → Admits s₀ σ'.2.reqs sid user now) σ := by
  have hnobody : ∀ (r : Read Bytes) (σ₁ : St), (∀ user, r ≠ .found user) →
      (∀ q ∈ σ.2.reqs, q ∈ σ₁.2.reqs) → (∀ q ∈ σ.2.reqs, q ∈ σ₁.2.reqs) ∧
        ∀ user, r = .found user → Admits s₀ σ₁.2.reqs sid user now :=
    fun r σ₁ hne hr => ⟨hr, fun user heq => absurd heq (hne user)⟩
  induction rows generalizing σ saw with
  | nil =>
      intro σ₁ hr _
      refine hnobody _ σ₁ (fun user => ?_) hr
      split <;> simp
  | cons row rows ih =>
      have hrest : ∀ saw σ₁, Authentic s₀ σ₁ → (∀ q ∈ σ.2.reqs, q ∈ σ₁.2.reqs) →
          (rules s₀).Safe Request.main i (fe (Sessions.scanRows sid now saw rows))
            (fun r σ' => (∀ q ∈ σ.2.reqs, q ∈ σ'.2.reqs) ∧
              ∀ user, r = .found user → Admits s₀ σ'.2.reqs sid user now) σ₁ := by
        intro saw σ₁ hi₁ hr₁
        refine (ih saw hi₁ ?_).weaken fun _ σ₂ _ h₂ => ⟨fun q hq => h₂.1 q (hr₁ q hq), h₂.2⟩
        exact fun r σ₂ hne hr => ⟨hr, fun user heq => absurd heq (hne user)⟩
      rw [Sessions.scanRows, fe, Prog.lift_bind]
      refine Logic.Safe.bind ((safe_retryGetStatus (.sessionUser sid row) 6).weaken ?_) hi
      rintro r σ₁ _ ⟨hr₁, hfound₁⟩ hi₁
      cases r with
      | unavailable => exact hrest true σ₁ hi₁ hr₁
      | notFound => exact hrest saw σ₁ hi₁ hr₁
      | found user =>
          have huser : Derives s₀ σ₁.2.reqs (.session sid user) := hfound₁ user rfl
          dsimp only
          rw [Prog.lift_bind]
          refine Logic.Safe.bind ((safe_retryGetStatus (.sessionExpiry sid row) 6).weaken ?_) hi₁
          rintro r σ₂ _ ⟨hr₂, hfound₂⟩ hi₂
          have hr : ∀ q ∈ σ.2.reqs, q ∈ σ₂.2.reqs := fun q hq => hr₂ q (hr₁ q hq)
          cases r with
          | unavailable => exact hrest true σ₂ hi₂ hr
          | notFound => exact hrest saw σ₂ hi₂ hr
          | found expiry =>
              have hexpiry : Derives s₀ σ₂.2.reqs (.expiry sid expiry) := hfound₂ expiry rfl
              dsimp only
              cases hexp : Decimal.stol expiry with
              | none => exact hrest saw σ₂ hi₂ hr
              | some exp =>
                  dsimp only
                  split
                  · rw [Prog.lift_bind]
                    refine Logic.Safe.bind ((safe_deleteRows sid Sessions.sessionRows).weaken ?_) hi₂
                    intro _ σ₃ _ hr₃ _ σ₄ hr₄ _
                    exact hnobody .notFound σ₄ (by simp) fun q hq => hr₄ q (hr₃ q (hr q hq))
                  · rename_i hlate
                    have hadmits : Admits s₀ σ₂.2.reqs sid user now :=
                      ⟨huser.mono hr₂, expiry, exp, hexpiry, hexp, Int.not_lt.mp hlate⟩
                    have hdone : ∀ σ₃, (∀ q ∈ σ₂.2.reqs, q ∈ σ₃.2.reqs) →
                        (rules s₀).Safe Request.main i (fe (pure (Read.found user)))
                          (fun r σ' => (∀ q ∈ σ.2.reqs, q ∈ σ'.2.reqs) ∧
                            ∀ user, r = .found user → Admits s₀ σ'.2.reqs sid user now) σ₃ := by
                      intro σ₃ hr₃ σ₄ hr₄ _
                      refine ⟨fun q hq => hr₄ q (hr₃ q (hr q hq)), fun user' heq => ?_⟩
                      obtain rfl := Read.found.inj heq
                      exact hadmits.mono fun q hq => hr₄ q (hr₃ q hq)
                    split
                    · rw [Prog.lift_bind]
                      refine Logic.Safe.bind ((safe_copies expiry (only_repairSessionCopies sid user expiry _)
                        (huser.mono hr₂) hexpiry).weaken ?_) hi₂
                      intro _ σ₃ _ hr₃ _
                      exact hdone σ₃ hr₃
                    · exact hdone σ₂ fun q hq => hq

theorem safe_validateStatus (sid : Bytes) (now : Int) (hi : Authentic s₀ σ) :
    (rules s₀).Safe Request.main i (fe (Sessions.validateStatus sid now))
      (fun r σ' => (∀ q ∈ σ.2.reqs, q ∈ σ'.2.reqs) ∧
        ∀ user, r = .found user → Admits s₀ σ'.2.reqs sid user now) σ := by
  rw [Sessions.validateStatus]
  split
  · exact fun σ₁ hr _ => ⟨hr, by rintro user ⟨⟩⟩
  · exact safe_scanRows sid now false _ hi

theorem safe_validate (sid : Bytes) (now : Int) (hi : Authentic s₀ σ) :
    (rules s₀).Safe Request.main i (validate sid now)
      (fun user σ' => (∀ q ∈ σ.2.reqs, q ∈ σ'.2.reqs) ∧ (user ≠ [] → Admits s₀ σ'.2.reqs sid user now)) σ := by
  refine Logic.Safe.bind ((safe_validateStatus sid now hi).weaken ?_) hi
  rintro r σ₁ _ ⟨hr₁, hadmits⟩ _
  cases r with
  | found user => exact fun σ₂ hr₂ _ => ⟨fun q hq => hr₂ q (hr₁ q hq), fun _ => (hadmits user rfl).mono hr₂⟩
  | unavailable => exact fun σ₂ hr₂ _ => ⟨fun q hq => hr₂ q (hr₁ q hq), fun h => absurd rfl h⟩
  | notFound => exact fun σ₂ hr₂ _ => ⟨fun q hq => hr₂ q (hr₁ q hq), fun h => absurd rfl h⟩

/-- `create`, for a session that the requests can have brought about. -/
theorem safe_create {user sid : Bytes} {now : Nat} (hsession : Derives s₀ σ.2.reqs (.session sid user))
    (hexpiry : Derives s₀ σ.2.reqs (.expiry sid (expiryOf now))) :
    (rules s₀).Safe Request.main i (fe (Sessions.create user sid now)) (fun _ σ' => ∀ q ∈ σ.2.reqs, q ∈ σ'.2.reqs) σ := by
  refine safe_copies (expiryOf now) ?_ hsession hexpiry
  rw [Sessions.create]
  split
  · trivial
  · exact Prog.Only.bind (only_storeCopies _ _ _ _) (fun _ => trivial)

/-! ### Handlers -/

/-- Nothing is left to do. -/
theorem safe_return (ans : Answer) : (rules s₀).Safe Request.main i (pure ans) (fun _ _ => True) σ :=
  fun _ _ _ => trivial

theorem safe_handleLogin {q : Login} (hq : .login q ∈ σ.2.reqs) :
    (rules s₀).Safe Request.main i (handleLogin q) (fun _ _ => True) σ := by
  unfold handleLogin
  split
  · exact safe_return _
  · refine safe_get (fun r σ₁ hr₁ hi₁ hfound _ => ?_)
    cases r with
    | unavailable => exact safe_return _
    | notFound => exact safe_return _
    | found stored =>
        have hstored : Derives s₀ σ₁.2.reqs (.password q.username stored) := hi₁.cells _ _ (hfound stored rfl)
        have hq₁ := hr₁ _ hq
        dsimp only
        cases hok : (Password.verify q.password stored).ok with
        | false => exact safe_return _
        | true =>
            have hopen : ∀ σ₂ : St, Authentic s₀ σ₂ → (∀ q ∈ σ₁.2.reqs, q ∈ σ₂.2.reqs) →
                (rules s₀).Safe Request.main i (do
                  let sid ← fe (Sessions.create q.username q.sid q.now)
                  if sid = [] then return Answer.error "Storage temporarily unavailable, please try again"
                  return Answer.ok sid []) (fun _ _ => True) σ₂ := by
              intro σ₂ hi₂ hr₂
              have hstored₂ := hstored.mono hr₂
              refine Logic.Safe.bind ((safe_create (.loggedIn (hr₂ _ hq₁) hstored₂ hok)
                (.loggedInUntil (hr₂ _ hq₁) hstored₂ hok)).weaken ?_) hi₂
              intro sid σ₃ _ _ _
              split
              · exact safe_return _
              · exact safe_return _
            simp only [Bool.not_true, Bool.false_eq_true, if_false]
            split
            · split
              · refine safe_fine (a := .put _ _) (.rehashed hq₁ hstored hok) (fun _ σ₂ hr₂ hi₂ => ?_)
                exact hopen σ₂ hi₂ hr₂
              · exact hopen σ₁ hi₁ fun _ h => h
            · exact hopen σ₁ hi₁ fun _ h => h

/-- A sign-up writes a password only where there was none. -/
theorem safe_handleSignup {user : Bytes} {q : Accounts.Signup} (hq : .signup user q ∈ σ.2.reqs) :
    (rules s₀).Safe Request.main i (fe (Accounts.handleSignup user q)) (fun _ _ => True) σ := by
  unfold Accounts.handleSignup
  split
  · exact safe_return _
  · refine safe_get (fun r σ₁ hr₁ hi₁ _ hnone => ?_)
    cases r with
    | unavailable => exact safe_return _
    | found v => exact safe_return _
    | notFound =>
        have hfree : s₀ (.pwd user) = none := by
          by_contra hreg
          exact hi₁.registered user hreg (hnone rfl)
        dsimp only
        split
        · exact safe_return _
        · refine safe_fine (a := .put _ _) (.chosen (hr₁ _ hq) hfree) (fun stored σ₂ hr₂ hi₂ => ?_)
          have hq₂ := hr₂ _ (hr₁ _ hq)
          cases stored with
          | false => exact safe_return _
          | true =>
              show (rules s₀).Safe Request.main i (fe (Sessions.create user q.sid q.now >>= fun sid =>
                if sid = [] then del (.pwd user) >>= fun _ => pure (Answer.error _)
                else pure (Answer.ok sid []))) _ σ₂
              rw [fe, Prog.lift_bind]
              refine Logic.Safe.bind ((safe_create (.signedUp hq₂ hfree) (.signedUpUntil hq₂ hfree)).weaken ?_) hi₂
              intro sid σ₃ _ _ _
              split
              · exact safe_fine (a := .del _) hfree (fun _ _ _ _ => safe_return _)
              · exact safe_return _

theorem safe_handleChangePassword {q : Change} (hq : .change q ∈ σ.2.reqs) (hi : Authentic s₀ σ) :
    (rules s₀).Safe Request.main i (handleChangePassword q) (fun _ _ => True) σ := by
  refine Logic.Safe.bind ((safe_validate q.sid q.now hi).weaken ?_) hi
  rintro user σ₁ _ ⟨hr₁, hadmits⟩ _
  dsimp only
  split
  · exact safe_return _
  · rename_i huser
    split
    · exact safe_return _
    · refine safe_get (fun r σ₂ hr₂ hi₂ hfound _ => ?_)
      cases r with
      | unavailable => exact safe_return _
      | notFound => exact safe_return _
      | found stored =>
          have hstored : Derives s₀ σ₂.2.reqs (.password user stored) := hi₂.cells _ _ (hfound stored rfl)
          dsimp only
          cases hok : (Password.verify q.oldPassword stored).ok with
          | false => exact safe_return _
          | true =>
              simp only [Bool.not_true, Bool.false_eq_true, if_false]
              split
              · exact safe_return _
              · refine safe_fine (a := .put _ _) (.changed (hr₂ _ (hr₁ _ hq)) ((hadmits huser).session.mono hr₂)
                  hstored hok) (fun stored σ₃ _ _ => ?_)
                split
                · exact safe_return _
                · exact safe_return _

/-- Whoever is let in has a session. -/
theorem safe_withUser {sid : Bytes} {now : Int} {handler : Bytes → AuthProg Answer} (hi : Authentic s₀ σ)
    (h : ∀ user σ', (∀ q ∈ σ.2.reqs, q ∈ σ'.2.reqs) → Authentic s₀ σ' →
      (rules s₀).Safe Request.main i (handler user) (fun _ _ => True) σ') :
    (rules s₀).Safe Request.main i (withUser sid now handler) (fun _ _ => True) σ := by
  refine Logic.Safe.bind ((safe_validate sid now hi).weaken ?_) hi
  rintro user σ₁ _ ⟨hr₁, hadmits⟩ _
  dsimp only
  split
  · exact safe_return _
  · rename_i huser
    exact safe_fine (a := .answer _) (hadmits huser)
      (fun _ σ₂ hr₂ hi₂ => h user σ₂ (fun q hq => hr₂ q (hr₁ q hq)) hi₂)

theorem safe_handleSession (sid : Bytes) (now : Int) (hi : Authentic s₀ σ) :
    (rules s₀).Safe Request.main i (handleSession sid now) (fun _ _ => True) σ := by
  refine Logic.Safe.bind ((safe_validateStatus sid now hi).weaken ?_) hi
  rintro r σ₁ _ ⟨_, hadmits⟩ _
  cases r with
  | unavailable => exact safe_return _
  | notFound => exact safe_return _
  | found user => exact safe_fine (a := .answer _) (hadmits user rfl) (fun _ _ _ _ => safe_return _)

theorem safe_handleLogout (sid : Bytes) (hi : Authentic s₀ σ) :
    (rules s₀).Safe Request.main i (handleLogout sid) (fun _ _ => True) σ := by
  unfold handleLogout
  split
  · rw [Sessions.destroyAsync]
    refine Logic.Safe.bind ?_ hi
    split
    · exact fun _ _ _ _ => safe_return _
    · exact (safe_deleteRows sid Sessions.sessionRows).weaken fun _ _ _ _ _ => safe_return _
  · exact safe_return _

/-- **Every request is safe.** -/
theorem safe_main (q : Request) (σ : St) : (rules s₀).Safe Request.main i q.main (fun _ _ => True) σ := by
  refine Rules.safe_act ?_
  intro σ₁ io _ hi _
  obtain ⟨hkeep, -⟩ := keeps_of_fine (a := .answer (.received q)) (i := i) io hi trivial
  refine ⟨hkeep, ?_⟩
  have hq : q ∈ (after watch i io (.answer (.received q)) σ₁).2.reqs := List.mem_cons_self
  have hi₁ := hkeep.inv
  generalize after watch i io (.answer (.received q)) σ₁ = σ₂ at hq hi₁
  have hhandle : (rules s₀).Safe Request.main i q.handle (fun _ _ => True) σ₂ := by
    cases q with
    | login q => exact safe_handleLogin hq
    | signup user q => exact safe_handleSignup hq
    | change q => exact safe_withUser hi₁ fun _ σ' hr hi' => safe_handleChangePassword (hr _ hq) hi'
    | session sid now => exact safe_handleSession sid now hi₁
    | logout sid => exact safe_handleLogout sid hi₁
    | api sid now => exact safe_withUser hi₁ fun _ _ _ _ => safe_return _
  refine Logic.Safe.bind (hhandle.weaken fun ans σ₃ _ _ _ => ?_) hi₁
  exact safe_fine (f := Prog.ret) (a := .answer (.answered ans)) trivial (fun _ _ _ _ _ _ _ => trivial)

/--
**Who gets in.**

In every run of any number of sign-ups, logins, password changes, logouts and other requests,
whichever reads fail and whichever writes get lost, the store holds at any time what the
requests so far can have brought about, and everybody who was let in as a user presented a
session that they can have brought about for this user, and that was not past its time.
-/
theorem authentic_of_reach {c : Config (watched watch Request.main)} (h : Reach (s₀, ⟨[], []⟩) Always c) :
    Authentic s₀ c.st := by
  have hstart : Authentic s₀ (s₀, ⟨[], []⟩) := by
    refine ⟨fun k v hv => ?_, fun _ h => h, fun _ he => absurd he List.not_mem_nil⟩
    cases k with
    | pwd user => exact .password hv
    | sessionUser sid row => exact .session hv
    | sessionExpiry sid row => exact .expiry hv
    | _ => trivial
  have h' : Reach (s₀, ⟨[], []⟩) (When fun i _ io a σ => (rules s₀).Ok i io a σ) c :=
    h.mono (fun c m _ => by cases m <;> simp [When, rules])
  exact Rules.inv_of_reach (R := rules s₀) hstart (fun q i σ _ => safe_main q σ) h'

/-- A user that is registered and has no session stays out of reach for all who do not know
the password, and keeps it. -/
theorem Authentic.stranger {user value : Bytes} (h : Authentic s₀ σ) (hreg : s₀ (.pwd user) = some value)
    (hnone : ∀ sid row, s₀ (.sessionUser sid row) ≠ some user)
    (hfails : ∀ q : Login, .login q ∈ σ.2.reqs → q.username = user → (Password.verify q.password value).ok = false) :
    (∀ e ∈ σ.2.entries, e.user ≠ user) ∧ σ.1 (.pwd user) = some value := by
  refine ⟨fun e he heq => ?_, ?_⟩
  · have hout := ((h.entries e he).session.stranger hreg hfails hnone).2 e.sid
    exact hout (by rw [heq])
  · cases hv : σ.1 (.pwd user) with
    | none => exact absurd hv (h.registered user (by rw [hreg]; simp))
    | some v => rw [((h.cells _ v hv).stranger hreg hfails hnone).1 v rfl]

end Safety

/-! ## A run -/

section Run

/-- Somebody with a password from the days before there were hashes. -/
def registered : Store Cell Bytes := fun k => if k = .pwd (ascii "bob") then some (ascii "pw") else none

/-- Logs in. -/
def bobLogin (password : Bytes) : Login where
  username := ascii "bob"
  password := password
  salt := none
  sid := List.replicate 32 97
  now := 5

/-- One who does not know the password, one who does, and a request with the session of the
latter, while the copies are still being written. -/
def bobsRun : List (Line (watched watch Request.main)) :=
  [.move (.start (.login (bobLogin (ascii "no")))), .drive (fun c => c.elim) 60 0,
   .move (.start (.login (bobLogin (ascii "pw")))), .drive (fun c => c.elim) 5 1,
   .move (.start (.api (List.replicate 32 97) 9)), .drive (fun c => c.elim) 60 2,
   .drive (fun c => c.elim) 60 1]

theorem authentic_of_reach_bobsRun : ∃ c : Config (watched watch Request.main),
    c.st.2.entries = [⟨List.replicate 32 97, ascii "bob", 9⟩] ∧ Authentic registered c.st := by
  obtain ⟨c, hr, hc⟩ := reach_always_of_play (registered, ⟨[], []⟩) bobsRun
    (fun σ => decide (σ.2.entries = [⟨List.replicate 32 97, ascii "bob", 9⟩])) (by decide +kernel)
  exact ⟨c, of_decide_eq_true hc, authentic_of_reach hr⟩

end Run

end Authentication

end NCloud.Frontend
