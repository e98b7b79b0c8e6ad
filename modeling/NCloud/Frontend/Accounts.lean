import NCloud.Frontend.Password
import NCloud.Frontend.Sessions

/-!
# Signing up

`handle_signup` looks whether the name is taken, stores the password, opens a session,
and takes the password back if there is none. The look and the write are two operations
on a store that cannot create a cell only if it is absent, so two requests can both find
the name free.

As long as every password is written into an empty cell (`Meets`), the request that has
written it owns the cell until it answers.
-/

namespace NCloud.Frontend

open Process Wire KeyValue

namespace Accounts

/-- A request for one name, with what the system hands out on the way: the salt and the
session id, where `/dev/urandom` could be read, and the time. -/
structure Signup where
  password : Bytes
  salt : Option Bytes
  sid : Bytes
  now : Nat
  /-- `kSaltBytes` of it. -/
  salt_length : ∀ s, salt = some s → s.length = Password.saltBytes

/-- `handle_signup`. -/
def handleSignup (username : Bytes) (q : Signup) : FeProg Answer := do
  if username = [] ∨ q.password = [] then return .error "Missing fields"
  match ← getStatus (.pwd username) with
  | .unavailable => return .error "Storage temporarily unavailable, please try again"
  | .found _ => return .error "Username already taken"
  | .notFound =>
      let pwdHash := Password.hashPassword q.password q.salt
      if pwdHash = [] then return .error "Could not securely store password, please try again"
      if !(← put (.pwd username) pwdHash) then
        return .error "Storage temporarily unavailable, please try again"
      let sid ← Sessions.create username q.sid q.now
      if sid = [] then
        let _ ← del (.pwd username)
        return .error "Storage temporarily unavailable, please try again"
      return .ok sid []

variable (username : Bytes)

/-- A request answers, and it is written down for which password. -/
def Signup.main (q : Signup) : FeProg Unit := do
  match ← handleSignup username q with
  | .ok _ _ => answer (.done q.password true)
  | _ => answer (.done q.password false)

/-- The request that has stored its password and not answered yet, and the answers. -/
structure Past where
  owner : Option Nat
  answers : List Answer

/-- What is written down. -/
abbrev watch : Watch Cell Bytes Answer where
  Past := Past
  note := fun i a r _ p =>
    match a, r with
    | .put (.pwd _) _, true => { p with owner := some i }
    | .del (.pwd _), _ => { p with owner := none }
    | .answer ans, _ =>
        { owner := if p.owner = some i then none else p.owner, answers := ans :: p.answers }
    | _, _ => p

/-- States. -/
abbrev St := Store Cell Bytes × Past

/-- Every password is written into an empty cell. -/
def Meets (_ _ : Nat) (a : Act Cell Bytes Answer) (σ : St) : Prop :=
  ∀ v, a = .put (.pwd username) v → σ.1 (.pwd username) = none

/-- A request with this password was told that it has the name. -/
def Accepted (password : Bytes) (σ : St) : Prop := Answer.done password true ∈ σ.2.answers

instance (password : Bytes) (σ : St) : Decidable (Accepted password σ) :=
  inferInstanceAs (Decidable (_ ∈ _))

/-- Whether an answer is a success. -/
def isSuccess : Answer → Bool
  | .done _ true => true
  | _ => false

/-- One request at most is accepted, and its password is the one that verifies. -/
structure Exclusive (σ : St) : Prop where
  once : σ.2.answers.countP isSuccess ≤ 1
  verifies : ∀ password, Accepted password σ →
    ∃ v, σ.1 (.pwd username) = some v ∧ Password.verifyPassword password v = true

/-- The invariant. -/
structure Inv (σ : St) : Prop where
  exclusive : Exclusive username σ
  /-- While someone owns the cell, there is something in it and nobody was accepted. -/
  owned : ∀ i, σ.2.owner = some i →
    (∃ v, σ.1 (.pwd username) = some v) ∧ σ.2.answers.countP isSuccess = 0

/-- The rules: the owner's cell is left alone. -/
def rules : Rules watch where
  Inv := Inv username
  Rely := fun i σ σ' => σ.2.owner = some i →
    σ'.2.owner = some i ∧ σ'.1 (.pwd username) = σ.1 (.pwd username)
  Ok := Meets username
  rely_refl := fun _ _ h => ⟨h, rfl⟩
  rely_trans := by
    intro i σ₁ σ₂ σ₃ h₁ h₂ h
    obtain ⟨ho, hc⟩ := h₁ h
    obtain ⟨ho', hc'⟩ := h₂ ho
    exact ⟨ho', hc'.trans hc⟩

variable {username} {i : Nat} {σ : St} {α : Type}

theorem accepted_of_countP (σ : St) {password : Bytes} (h : Accepted password σ) :
    0 < σ.2.answers.countP isSuccess :=
  List.countP_pos_iff.mpr ⟨_, h, rfl⟩

/-! ## Single operations -/

/-- Store and history after a change that leaves the cell and the owner alone. -/
theorem keeps_of_same (h : Inv username σ) {σ' : St} (hp : σ'.2 = σ.2)
    (hs : σ'.1 (.pwd username) = σ.1 (.pwd username)) : (rules username).Keeps i σ σ' := by
  obtain ⟨s, p⟩ := σ'
  subst hp
  refine ⟨⟨⟨h.exclusive.once, ?_⟩, ?_⟩, fun _ _ ho => ⟨ho, hs⟩⟩
  · intro password hacc
    obtain ⟨v, hv, hver⟩ := h.exclusive.verifies password hacc
    exact ⟨v, hs.trans hv, hver⟩
  · intro i ho
    obtain ⟨⟨v, hv⟩, hnone⟩ := h.owned i ho
    exact ⟨⟨v, hs.trans hv⟩, hnone⟩

/-- Operations on cells of a session. -/
def Elsewhere : Act Cell Bytes Answer → Prop
  | .put (.sessionUser _ _) _ => True
  | .put (.sessionExpiry _ _) _ => True
  | .del (.sessionUser _ _) => True
  | .del (.sessionExpiry _ _) => True
  | _ => False

/-- Nothing happens to the password or the owner there. -/
theorem after_elsewhere (username : Bytes) {a : Act Cell Bytes Answer} (ha : Elsewhere a) (i io : Nat) (σ : St) :
    (after watch i io a σ).2 = σ.2 ∧ (after watch i io a σ).1 (.pwd username) = σ.1 (.pwd username) := by
  cases a with
  | put k v =>
      cases k with
      | sessionUser sid copy => exact ⟨rfl, put_of_ne (A := Answer) nofun⟩
      | sessionExpiry sid copy => exact ⟨rfl, put_of_ne (A := Answer) nofun⟩
      | _ => exact ha.elim
  | del k =>
      cases k with
      | sessionUser sid copy => exact ⟨rfl, del_of_ne (A := Answer) nofun⟩
      | sessionExpiry sid copy => exact ⟨rfl, del_of_ne (A := Answer) nofun⟩
      | _ => exact ha.elim
  | _ => exact ha.elim

theorem only_storeCopies (sid username expiry : Bytes) (rows : List Nat) :
    (Sessions.storeCopies sid username expiry rows).Only Elsewhere (fun _ => True) := by
  induction rows with
  | nil => trivial
  | cons row rows ih =>
      refine ⟨trivial, fun ok => ?_⟩
      cases ok with
      | false => exact ih
      | true =>
          refine ⟨trivial, fun ok => ?_⟩
          cases ok with
          | false => exact ⟨trivial, fun _ => ⟨trivial, fun _ => ih⟩⟩
          | true =>
              show Prog.Only _ _ (Sessions.storeCopies sid username expiry rows >>= fun n => pure (n + 1))
              exact Prog.Only.bind ih (fun _ => trivial)

theorem only_create (username sid : Bytes) (now : Nat) :
    (Sessions.create username sid now).Only Elsewhere (fun _ => True) := by
  unfold Sessions.create
  split
  · trivial
  · exact Prog.Only.bind (only_storeCopies _ _ _ _) (fun _ => trivial)

/-- Request `i` owns the cell, and this is in it. -/
def Owns (username : Bytes) (i : Nat) (v : Bytes) (σ : St) : Prop :=
  σ.2.owner = some i ∧ σ.1 (.pwd username) = some v

theorem Owns.mono {v : Bytes} {σ σ' : St} (h : Owns username i v σ)
    (hr : (rules username).Rely i σ σ') : Owns username i v σ' := by
  obtain ⟨ho, hc⟩ := hr h.1
  exact ⟨ho, hc.trans h.2⟩

/-- A request that owns the cell still does after it has opened a session. -/
theorem safe_create {v : Bytes} (h : Owns username i v σ) (sid : Bytes) (now : Nat) :
    (rules username).Safe (Signup.main username) i (Sessions.create username sid now)
      (fun _ σ => Owns username i v σ) σ := by
  refine Rules.safe_keep (W := watch) (fun σ σ' hr h => h.mono hr) ?_ (only_create _ _ _) h
  intro a σ io ha hi _ ho
  obtain ⟨hp, hs⟩ := after_elsewhere username ha i io σ
  exact ⟨keeps_of_same hi hp hs, by rw [hp]; exact ho.1, hs.trans ho.2⟩

/-- The write into an empty cell: nobody owned it, and nobody was accepted before. -/
theorem keeps_put (i io : Nat) (v : Bytes) (h : Inv username σ) (hempty : σ.1 (.pwd username) = none) :
    (rules username).Keeps i σ (after watch i io (.put (.pwd username) v) σ) := by
  have hfree : ∀ j, σ.2.owner ≠ some j := by
    intro j hj
    obtain ⟨⟨v, hv⟩, -⟩ := h.owned j hj
    rw [hempty] at hv
    exact absurd hv (by simp)
  have hnone : σ.2.answers.countP isSuccess = 0 := by
    rw [List.countP_eq_zero]
    intro ans hans hsucc
    cases ans with
    | done password ok =>
        cases ok with
        | true =>
            obtain ⟨v, hv, -⟩ := h.exclusive.verifies password hans
            rw [hempty] at hv
            exact absurd hv (by simp)
        | false => exact absurd hsucc Bool.false_ne_true
    | asks uid source target => exact absurd hsucc Bool.false_ne_true
    | moves uid source target => exact absurd hsucc Bool.false_ne_true
    | mints uid => exact absurd hsucc Bool.false_ne_true
    | ok uid path => exact absurd hsucc Bool.false_ne_true
    | error text => exact absurd hsucc Bool.false_ne_true
  have hans : (after watch i io (.put (.pwd username) v) σ).2.answers = σ.2.answers := by
    show (watch.note i (.put (.pwd username) v) (decide (2 ≤ io)) σ.1 σ.2).answers = σ.2.answers
    cases decide (2 ≤ io) <;> rfl
  refine ⟨⟨⟨?_, ?_⟩, ?_⟩, fun j _ ho => absurd ho (hfree j)⟩
  · rw [hans, hnone]
    exact Nat.zero_le 1
  · intro password hacc
    have hpos := accepted_of_countP _ hacc
    rw [hans, hnone] at hpos
    exact absurd hpos (Nat.lt_irrefl 0)
  · intro j hj
    rw [hans]
    refine ⟨⟨v, ?_⟩, hnone⟩
    -- only a write that was reported makes an owner
    have hio : io ≠ 0 := by
      rintro rfl
      exact hfree j hj
    exact put_self (A := Answer) hio

/-- The owner takes its password back. -/
theorem keeps_del {v : Bytes} {io : Nat} (h : Inv username σ) (ho : Owns username i v σ) :
    (rules username).Keeps i σ (after watch i io (.del (.pwd username)) σ) := by
  obtain ⟨-, hnone⟩ := h.owned i ho.1
  refine ⟨⟨⟨h.exclusive.once, ?_⟩, nofun⟩, ?_⟩
  · intro password hacc
    have hpos := accepted_of_countP _ hacc
    have hans : (after watch i io (.del (.pwd username)) σ).2.answers = σ.2.answers := rfl
    rw [hans, hnone] at hpos
    exact absurd hpos (Nat.lt_irrefl 0)
  · intro j hne hj
    rw [ho.1] at hj
    exact absurd (Option.some.inj hj).symm hne

/-! ## Answers -/

/-- A request is turned down. -/
theorem safe_refuse (password : Bytes) :
    (rules username).Safe (Signup.main username) i (answer (.done password false)) (fun _ _ => True) σ := by
  refine Rules.safe_act (f := fun _ => pure ()) ?_
  intro σ₁ io _ hi _
  have hcount : (Answer.done password false :: σ₁.2.answers).countP isSuccess
      = σ₁.2.answers.countP isSuccess := List.countP_cons_of_neg Bool.false_ne_true
  refine ⟨⟨⟨⟨?_, ?_⟩, ?_⟩, ?_⟩, fun _ _ _ => trivial⟩
  · exact hcount.le.trans hi.exclusive.once
  · intro password' hacc
    rcases List.mem_cons.mp hacc with heq | hacc
    · exact absurd heq (by simp)
    · exact hi.exclusive.verifies password' hacc
  · intro j hj
    have hj : (if σ₁.2.owner = some i then none else σ₁.2.owner) = some j := hj
    split at hj
    · exact absurd hj (by simp)
    · obtain ⟨hv, hnone⟩ := hi.owned j hj
      exact ⟨hv, hcount.trans hnone⟩
  · intro j hne hj
    refine ⟨?_, rfl⟩
    show (if σ₁.2.owner = some i then none else σ₁.2.owner) = some j
    rw [if_neg, hj]
    rw [hj]
    exact fun heq => hne (Option.some.inj heq)

/-- The owner is accepted. -/
theorem safe_accept {password v : Bytes} (h : Owns username i v σ)
    (hv : Password.verifyPassword password v = true) :
    (rules username).Safe (Signup.main username) i (answer (.done password true)) (fun _ _ => True) σ := by
  refine Rules.safe_act (f := fun _ => pure ()) ?_
  intro σ₁ io hr hi _
  have ho := h.mono hr
  obtain ⟨-, hnone⟩ := hi.owned i ho.1
  have hcount : (Answer.done password true :: σ₁.2.answers).countP isSuccess = 1 := by
    rw [List.countP_cons_of_pos rfl, hnone]
  refine ⟨⟨⟨⟨hcount.le, ?_⟩, ?_⟩, ?_⟩, fun _ _ _ => trivial⟩
  · intro password' hacc
    rcases List.mem_cons.mp hacc with heq | hacc
    · obtain ⟨rfl, -⟩ := Answer.done.inj heq
      exact ⟨v, ho.2, hv⟩
    · have hpos := accepted_of_countP σ₁ hacc
      rw [hnone] at hpos
      exact absurd hpos (Nat.lt_irrefl 0)
  · intro j hj
    have hj : (if σ₁.2.owner = some i then none else σ₁.2.owner) = some j := hj
    rw [if_pos ho.1] at hj
    exact absurd hj (by simp)
  · intro j hne hj
    rw [ho.1] at hj
    exact absurd (Option.some.inj hj).symm hne

/-- What a request can say at its end. -/
def Outcome (username : Bytes) (i : Nat) (password : Bytes) (ans : Answer) (σ : St) : Prop :=
  ∀ sid path, ans = .ok sid path → ∃ v, Owns username i v σ ∧ Password.verifyPassword password v = true

theorem outcome_error (password : Bytes) (text : String) :
    (rules username).Safe (Signup.main username) i (pure (Answer.error text))
      (Outcome username i password) σ :=
  fun _ _ _ _ _ h => absurd h (by simp)

/-- The part of a request that comes after its password is stored. -/
theorem safe_stored {password v : Bytes} (h : Owns username i v σ)
    (hv : Password.verifyPassword password v = true) (hi : Inv username σ) (sid : Bytes) (now : Nat)
    (text : String) :
    (rules username).Safe (Signup.main username) i
      (Sessions.create username sid now >>= fun sid =>
        if sid = [] then del (.pwd username) >>= fun _ => pure (Answer.error text)
        else pure (Answer.ok sid []))
      (Outcome username i password) σ := by
  refine Logic.Safe.bind ((safe_create h sid now).weaken ?_) hi
  intro sid' σ₁ _ ho _
  split
  · refine Rules.safe_act ?_
    intro σ₂ io hr hi₂ _
    exact ⟨keeps_del hi₂ (ho.mono hr), outcome_error password text⟩
  · exact fun σ₂ hr _ _ _ _ => ⟨v, ho.mono hr, hv⟩

/-- **A request that succeeds owns the cell, and its password verifies.** -/
theorem safe_handleSignup (q : Signup) :
    (rules username).Safe (Signup.main username) i (handleSignup username q)
      (Outcome username i q.password) σ := by
  unfold handleSignup
  split
  · exact outcome_error q.password _
  · refine Rules.safe_act ?_
    intro σ₁ io _ hi _
    refine ⟨keeps_of_same hi rfl rfl, ?_⟩
    generalize (exec io σ₁.1 (.get (.pwd username) : Act Cell Bytes Answer)).1 = r
    cases r with
    | unavailable => exact outcome_error q.password _
    | found v => exact outcome_error q.password _
    | notFound =>
        show (rules username).Safe (Signup.main username) i (if _ then _ else _) _ _
        split
        · exact outcome_error q.password _
        · rename_i hhash
          -- there is a hash, so there is a salt
          obtain ⟨salt, hsalt⟩ : ∃ salt, q.salt = some salt := by
            cases hsalt : q.salt with
            | none => exact absurd (by rw [hsalt]; rfl) hhash
            | some salt => exact ⟨salt, rfl⟩
          have hne : salt ≠ [] := by
            rintro rfl
            exact absurd (q.salt_length [] hsalt) (by decide)
          have hver : Password.verifyPassword q.password (Password.hashPassword q.password q.salt) = true := by
            rw [hsalt]
            exact Password.verifyPassword_hashPassword q.password hne
          refine Rules.safe_act ?_
          intro σ₂ io₂ _ hi₂ hok₂
          have hkeep := keeps_put i io₂ (Password.hashPassword q.password q.salt) hi₂ (hok₂ _ rfl)
          refine ⟨hkeep, ?_⟩
          show (rules username).Safe (Signup.main username) i
            (if (!decide (2 ≤ io₂)) = true then _ else _) _ _
          split
          · exact outcome_error q.password _
          · rename_i hio
            have hio : 2 ≤ io₂ := by
              rw [Bool.not_eq_true, Bool.not_eq_false'] at hio
              exact of_decide_eq_true hio
            refine safe_stored ⟨?_, put_self (A := Answer) (by omega)⟩ hver hkeep.inv q.sid q.now _
            show (watch.note i (.put (.pwd username) _) (decide (2 ≤ io₂)) σ₂.1 σ₂.2).owner = some i
            rw [decide_eq_true hio]

/-- **Every request is safe.** -/
theorem safe_main (q : Signup) (i : Nat) (hi : Inv username σ) :
    (rules username).Safe (Signup.main username) i (q.main username) (fun _ _ => True) σ := by
  refine Logic.Safe.bind ((safe_handleSignup q).weaken ?_) hi
  intro ans σ₁ _ hans _
  cases ans with
  | ok sid path =>
      obtain ⟨v, ho, hv⟩ := hans sid path rfl
      exact safe_accept ho hv
  | asks uid source target => exact safe_refuse q.password
  | moves uid source target => exact safe_refuse q.password
  | mints uid => exact safe_refuse q.password
  | done item ok => exact safe_refuse q.password
  | error text => exact safe_refuse q.password

/--
**Signing up is exclusive.**

In every run in which passwords are only written into an empty cell, one request at most
is accepted, and the password that verifies afterwards is its own.
-/
theorem exclusive_of_reach {s₀ : Store Cell Bytes} {c : Config (watched watch (Signup.main username))}
    (h : Reach (s₀, ⟨none, []⟩) (When (fun i _ io a σ => Meets username i io a σ)) c) :
    Exclusive username c.st := by
  have hstart : Inv username (s₀, ⟨none, []⟩) :=
    ⟨⟨Nat.zero_le 1, fun _ hacc => absurd hacc List.not_mem_nil⟩, nofun⟩
  exact (Rules.inv_of_reach (R := rules username) hstart (fun q i _ hi => safe_main q i hi) h).exclusive

/-! ## Two requests -/

section Two

/-- A name. -/
def alice : Bytes := ascii "alice"

/-- Someone asks for it with this password. -/
def ask (password : Bytes) : Signup where
  password := password
  salt := some (List.replicate 16 7)
  sid := List.replicate 32 97
  now := 0
  salt_length := by
    rintro s ⟨⟩
    rfl

/-- The condition, tested. -/
def meetsTest (_ : Nat) (_ : Unit) (_ : Nat) (a : Act Cell Bytes Answer) (σ : St) : Bool :=
  match a with
  | .put k _ => decide (k = .pwd alice → σ.1 (.pwd alice) = none)
  | _ => true

theorem meets_of_test (i : Nat) (l : Unit) (io : Nat) (a : Act Cell Bytes Answer) (σ : St)
    (h : meetsTest i l io a σ = true) : Meets alice i io a σ := by
  rintro v rfl
  exact of_decide_eq_true h rfl

/-- Nothing is ever sent. -/
def answers : Empty → Bool := fun c => c.elim

/-- How many requests were accepted. -/
def accepted (σ : St) : Nat := σ.2.answers.countP isSuccess

/-- The second request looks for the name while the first is at work, and is turned away. -/
def oneRefused : List (Line (watched watch (Signup.main alice))) :=
  [.move (.start (ask [112])), .move (.start (ask [113])), .move (.act 0 2), .move (.act 0 2),
   .drive answers 60 1, .drive answers 60 0]

theorem exclusive_of_reach_oneRefused : ∃ c : Config (watched watch (Signup.main alice)),
    (c.st.2.answers.length = 2 ∧ accepted c.st = 1) ∧ Exclusive alice c.st := by
  obtain ⟨c, hr, hc⟩ := reach_of_play (when_of_test meets_of_test) (fun _ => none, ⟨none, []⟩) oneRefused
    (fun σ => decide (σ.2.answers.length = 2 ∧ accepted σ = 1)) (by decide +kernel)
  exact ⟨c, of_decide_eq_true hc, exclusive_of_reach hr⟩

/-- Two requests find the name free, one right after the other. -/
def twoSignups : List (Line (watched watch (Signup.main alice))) :=
  [.move (.start (ask [112])), .move (.start (ask [113])), .move (.act 0 2), .move (.act 1 2),
   .drive answers 60 0, .drive answers 60 1]

/-- **Both get it.** -/
theorem not_exclusive_twoSignups : ¬ ∀ c : Config (watched watch (Signup.main alice)),
    Reach (fun _ => none, ⟨none, []⟩) Always c → c.Quiet → Exclusive alice c.st := by
  intro h
  obtain ⟨c, hr, hquiet, hc⟩ := quiet_always_of_play (fun _ => none, ⟨none, []⟩) twoSignups
    (fun σ => decide (accepted σ = 2)) (by decide +kernel)
  have honce : accepted c.st ≤ 1 := (h c hr hquiet).once
  have htwo : accepted c.st = 2 := of_decide_eq_true hc
  omega

end Two

end Accounts

end NCloud.Frontend
