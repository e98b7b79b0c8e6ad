import Mathlib.Logic.Function.Basic
import Mathlib.Tactic.Common

/-!
# Processes that share state and send requests

Programs are trees: perform an atomic action on the shared state, send a request and
look at what came of it, or return. A request runs its handler as a thread of its own
at the place it is addressed to. The sender may give up waiting at any time, in which
case the request can still arrive, late, and its reply is lost.

Any number of threads interleave (`step`). A place may restart, which kills the
threads that run there and the requests under way to it.

The proof rule is rely/guarantee. A `Logic` says what holds between actions (`Inv`),
what a thread may assume of the others (`Rely`), and what a request or reply carries
(`Req`, `Rep`). `Safe` is the resulting weakest precondition, by recursion on the
program, and `sound` says that if every main program and every handler is safe then
`Inv` holds in every configuration that can be reached.
-/

namespace Process

/-- The actions and requests a program can make. -/
structure Sig where
  /-- Atomic actions on the shared state. -/
  Act : Type
  /-- What an action returns. -/
  Res : Act → Type
  /-- Requests. -/
  Call : Type
  /-- Replies. -/
  Reply : Type

/-- What the sender of a request sees. Only `refused` means that nothing was sent. -/
inductive Outcome (ρ : Type) where
  | refused
  | sendFailed
  | noReply
  | reply (r : ρ)

/-- Programs. -/
inductive Prog (S : Sig) (α : Type) : Type where
  | ret (a : α)
  | act (a : S.Act) (k : S.Res a → Prog S α)
  | call (c : S.Call) (k : Outcome S.Reply → Prog S α)

namespace Prog

variable {S : Sig} {α β : Type}

/-- Sequencing. -/
def bind : Prog S α → (α → Prog S β) → Prog S β
  | .ret a, f => f a
  | .act a k, f => .act a (fun r => bind (k r) f)
  | .call c k, f => .call c (fun o => bind (k o) f)

instance : Monad (Prog S) where
  pure := .ret
  bind := bind

@[simp] theorem pure_bind (a : α) (f : α → Prog S β) : (pure a : Prog S α) >>= f = f a := rfl

@[simp] theorem ret_bind (a : α) (f : α → Prog S β) : (Prog.ret a : Prog S α) >>= f = f a := rfl

@[simp] theorem act_bind (a : S.Act) (k : S.Res a → Prog S α) (f : α → Prog S β) :
    (Prog.act a k) >>= f = .act a (fun r => k r >>= f) := rfl

@[simp] theorem call_bind (c : S.Call) (k : Outcome S.Reply → Prog S α) (f : α → Prog S β) :
    (Prog.call c k) >>= f = .call c (fun o => k o >>= f) := rfl

theorem bind_assoc {γ : Type} (p : Prog S α) (f : α → Prog S β) (g : β → Prog S γ) :
    p >>= f >>= g = p >>= fun a => f a >>= g := by
  induction p with
  | ret a => rfl
  | act a k ih => simp only [act_bind]; exact congrArg _ (funext ih)
  | call c k ih => simp only [call_bind]; exact congrArg _ (funext ih)

end Prog

/-- Do one action. -/
def perform {S : Sig} (a : S.Act) : Prog S (S.Res a) := .act a .ret

/-- Send one request. -/
def request {S : Sig} (c : S.Call) : Prog S (Outcome S.Reply) := .call c .ret

/-- The programs of a system and what their actions do. -/
structure System (S : Sig) where
  /-- Shared state. -/
  St : Type
  /-- Places where threads run. -/
  Loc : Type
  /-- What can be started from outside. -/
  Root : Type
  /-- Where. -/
  place : Root → Loc
  /-- As which program. -/
  main : Root → Prog S Unit
  /-- Where a request goes. -/
  target : S.Call → Loc
  /-- What it runs there. -/
  handler : S.Call → Prog S S.Reply
  /-- An action by thread `i` at a place; the number is how many writes to its disk
  the operating system lets through, and `none` means that the thread has to wait. -/
  exec : (i : Nat) → Loc → Nat → (a : S.Act) → St → Option (S.Res a × St)
  /-- History kept when request `j` is sent. -/
  sent : Nat → S.Call → St → St
  /-- History kept when request `j` is lost. -/
  lost : Nat → St → St
  /-- Whether a place can restart. -/
  mortal : Loc → Bool
  /-- It does. -/
  restart : Loc → St → St

/-- A thread: where it runs, the request it answers, the rest of its program, and the
request it is waiting for. -/
structure Thread {S : Sig} (Y : System S) where
  loc : Y.Loc
  call : Option S.Call
  prog : Prog S (Option S.Reply)
  waiting : Option Nat

/-- Where a request has got to. -/
inductive Msg (ρ : Type) where
  | inFlight
  | handling
  | replied (r : ρ)
  | gone

/-- Everything at one moment. Threads and requests draw their names from one supply,
and the thread that answers request `j` is thread `j`. -/
structure Config {S : Sig} (Y : System S) where
  st : Y.St
  threads : Nat → Option (Thread Y)
  msgs : Nat → Option (S.Call × Msg S.Reply)
  next : Nat

/-- What can happen next. -/
inductive Move {S : Sig} (Y : System S) where
  | start (r : Y.Root)
  | act (i : Nat) (io : Nat)
  | refuse (i : Nat)
  | send (i : Nat)
  /-- The sender stops waiting, because sending failed or no reply came. -/
  | giveUp (i : Nat) (sendFailed : Bool)
  | receive (i : Nat)
  | deliver (j : Nat)
  | lose (j : Nat)
  | finish (i : Nat)
  | restart (l : Y.Loc)

section Step

variable {S : Sig} {Y : System S} [DecidableEq Y.Loc]

/-- Nothing running. -/
def Config.init (st : Y.St) : Config Y :=
  { st := st, threads := fun _ => none, msgs := fun _ => none, next := 0 }

/-- Replace a thread. -/
def Config.setThread (c : Config Y) (i : Nat) (t : Option (Thread Y)) : Config Y :=
  { c with threads := Function.update c.threads i t }

/-- Replace a request. -/
def Config.setMsg (c : Config Y) (j : Nat) (call : S.Call) (m : Msg S.Reply) : Config Y :=
  { c with msgs := Function.update c.msgs j (some (call, m)) }

/-- A request after its target restarts. -/
def dropAt (l : Y.Loc) : S.Call × Msg S.Reply → S.Call × Msg S.Reply
  | (call, .inFlight) => if Y.target call = l then (call, .gone) else (call, .inFlight)
  | (call, .handling) => if Y.target call = l then (call, .gone) else (call, .handling)
  | m => m

/-- One move; `none` when it is not possible. -/
def step (c : Config Y) : Move Y → Option (Config Y)
  | .start r =>
      some { c.setThread c.next (some ⟨Y.place r, none, Y.main r >>= fun _ => .ret none, none⟩) with
        next := c.next + 1 }
  | .act i io =>
      match c.threads i with
      | some ⟨l, call, .act a k, none⟩ =>
          (Y.exec i l io a c.st).map (fun q =>
            { c.setThread i (some ⟨l, call, k q.1, none⟩) with st := q.2 })
      | _ => none
  | .refuse i =>
      match c.threads i with
      | some ⟨l, call, .call _ k, none⟩ => some (c.setThread i (some ⟨l, call, k .refused, none⟩))
      | _ => none
  | .send i =>
      match c.threads i with
      | some ⟨l, call, .call req k, none⟩ =>
          some { (c.setThread i (some ⟨l, call, .call req k, some c.next⟩)).setMsg c.next req .inFlight with
            st := Y.sent c.next req c.st
            next := c.next + 1 }
      | _ => none
  | .giveUp i sendFailed =>
      match c.threads i with
      | some ⟨l, call, .call _ k, some _⟩ =>
          some (c.setThread i (some ⟨l, call, k (if sendFailed then .sendFailed else .noReply), none⟩))
      | _ => none
  | .receive i =>
      match c.threads i with
      | some ⟨l, call, .call _ k, some j⟩ =>
          match c.msgs j with
          | some (req, .replied r) =>
              some ((c.setThread i (some ⟨l, call, k (.reply r), none⟩)).setMsg j req .gone)
          | _ => none
      | _ => none
  | .deliver j =>
      match c.msgs j with
      | some (req, .inFlight) =>
          some ((c.setThread j (some ⟨Y.target req, some req,
            Y.handler req >>= fun r => .ret (some r), none⟩)).setMsg j req .handling)
      | _ => none
  | .lose j =>
      match c.msgs j with
      | some (req, .inFlight) => some { c.setMsg j req .gone with st := Y.lost j c.st }
      | _ => none
  | .finish i =>
      match c.threads i with
      | some ⟨_, some req, .ret (some r), _⟩ => some ((c.setThread i none).setMsg i req (.replied r))
      | some ⟨_, none, .ret _, _⟩ => some (c.setThread i none)
      | _ => none
  | .restart l =>
      if Y.mortal l then
        some { c with
          st := Y.restart l c.st
          threads := fun i => (c.threads i).filter (fun t => t.loc ≠ l)
          msgs := fun j => (c.msgs j).map (dropAt l) }
      else none

/-- Moves whose action, if any, meets its side condition. -/
def When (ok : Nat → Y.Loc → Nat → S.Act → Y.St → Prop) (c : Config Y) : Move Y → Prop
  | .act i io => ∀ l call a k, c.threads i = some ⟨l, call, .act a k, none⟩ → ok i l io a c.st
  | _ => True

/-- The same with a test in place of the condition. -/
def whenTest (test : Nat → Y.Loc → Nat → S.Act → Y.St → Bool) (c : Config Y) : Move Y → Bool
  | .act i io =>
      match c.threads i with
      | some ⟨l, _, .act a _, none⟩ => test i l io a c.st
      | _ => true
  | _ => true

omit [DecidableEq Y.Loc] in
theorem when_of_test {test : Nat → Y.Loc → Nat → S.Act → Y.St → Bool}
    {ok : Nat → Y.Loc → Nat → S.Act → Y.St → Prop}
    (h : ∀ i l io a σ, test i l io a σ = true → ok i l io a σ) (c : Config Y) (m : Move Y)
    (ht : whenTest test c m = true) : When ok c m := by
  cases m with
  | act i io =>
      intro l call a k hi
      simp only [whenTest, hi] at ht
      exact h i l io a c.st ht
  | _ => trivial

/-- The same, with a condition under which a place restarts. -/
def Within (ok : Nat → Y.Loc → Nat → S.Act → Y.St → Prop) (up : Y.Loc → Y.St → Prop) (c : Config Y)
    (m : Move Y) : Prop :=
  When ok c m ∧ ∀ l, m = .restart l → up l c.st

omit [DecidableEq Y.Loc] in
theorem within_of_when {ok : Nat → Y.Loc → Nat → S.Act → Y.St → Prop} {up : Y.Loc → Y.St → Prop}
    (hup : ∀ l σ, up l σ) (c : Config Y) (m : Move Y) (h : When ok c m) : Within ok up c m :=
  ⟨h, fun l _ => hup l c.st⟩

/-- A test for both. -/
def withinTest (test : Nat → Y.Loc → Nat → S.Act → Y.St → Bool) (up : Y.Loc → Y.St → Bool)
    (c : Config Y) (m : Move Y) : Bool :=
  whenTest test c m && match m with
    | .restart l => up l c.st
    | _ => true

omit [DecidableEq Y.Loc] in
theorem within_of_test {test : Nat → Y.Loc → Nat → S.Act → Y.St → Bool} {upTest : Y.Loc → Y.St → Bool}
    {ok : Nat → Y.Loc → Nat → S.Act → Y.St → Prop} {up : Y.Loc → Y.St → Prop}
    (h : ∀ i l io a σ, test i l io a σ = true → ok i l io a σ) (hup : ∀ l σ, upTest l σ = true → up l σ)
    (c : Config Y) (m : Move Y) (ht : withinTest test upTest c m = true) : Within ok up c m := by
  obtain ⟨hwhen, hrestart⟩ := (Bool.and_eq_true _ _).mp ht
  refine ⟨when_of_test h c m hwhen, ?_⟩
  rintro l rfl
  exact hup l c.st hrestart

/-- Any move. -/
def Always (_ : Config Y) (_ : Move Y) : Prop := True

/-- Reached from `st` by moves that satisfy `C`. -/
inductive Reach (st : Y.St) (C : Config Y → Move Y → Prop) : Config Y → Prop where
  | init : Reach st C (Config.init st)
  | step {c c' : Config Y} (m : Move Y) : Reach st C c → C c m → step c m = some c' → Reach st C c'

/-- A weaker condition on the moves. -/
theorem Reach.mono {st : Y.St} {C C' : Config Y → Move Y → Prop} (h : ∀ c m, C c m → C' c m)
    {c : Config Y} (hr : Reach st C c) : Reach st C' c := by
  induction hr with
  | init => exact .init
  | step m _ hc hs ih => exact .step m ih (h _ m hc) hs

/-- What holds in every configuration of a run holds after each of its moves. -/
theorem Reach.keep {st : Y.St} {C : Config Y → Move Y → Prop} {P : Config Y → Prop}
    (hP : ∀ c, Reach st C c → P c) {c : Config Y} (h : Reach st C c) :
    Reach st (fun c m => C c m ∧ ∀ c', Process.step c m = some c' → P c') c := by
  induction h with
  | init => exact .init
  | step m hr hc hs ih => exact .step m ih ⟨hc, fun c' hs' => hP c' (.step m hr hc hs')⟩ hs

omit [DecidableEq Y.Loc] in
theorem When.mono {ok ok' : Nat → Y.Loc → Nat → S.Act → Y.St → Prop}
    (h : ∀ i l io a σ, ok i l io a σ → ok' i l io a σ) (c : Config Y) (m : Move Y) (hw : When ok c m) :
    When ok' c m := by
  cases m with
  | act i io => exact fun l call a k hi => h i l io a c.st (hw l call a k hi)
  | _ => trivial

omit [DecidableEq Y.Loc] in
theorem Within.mono {ok ok' : Nat → Y.Loc → Nat → S.Act → Y.St → Prop} {up up' : Y.Loc → Y.St → Prop}
    (h : ∀ i l io a σ, ok i l io a σ → ok' i l io a σ) (hup : ∀ l σ, up l σ → up' l σ) (c : Config Y)
    (m : Move Y) (hw : Within ok up c m) : Within ok' up' c m :=
  ⟨hw.1.mono h, fun l hl => hup l c.st (hw.2 l hl)⟩

/-- Everything that was started has ended. -/
def Config.Quiet (c : Config Y) : Prop := ∀ i < c.next, (c.threads i).isNone = true

instance (c : Config Y) : Decidable c.Quiet := inferInstanceAs (Decidable (∀ i < c.next, _))

/-! ## Scripted runs -/

section Script

variable (ok : Config Y → Move Y → Bool)

/-- A move that passes a test. -/
def stepIf (c : Config Y) (m : Move Y) : Option (Config Y) := if ok c m then step c m else none

/-- Thread `i` runs for at most `fuel` moves; its requests are answered at once, and
refused where `down` says so. -/
def drive (down : S.Call → Bool) : Nat → Nat → Config Y → Option (Config Y)
  | 0, _, c => some c
  | fuel + 1, i, c =>
      match c.threads i with
      | some ⟨_, _, .act _ _, none⟩ => (stepIf ok c (.act i (fuel + 1))).bind (drive down fuel i)
      | some ⟨_, _, .call req _, none⟩ =>
          if down req then (stepIf ok c (.refuse i)).bind (drive down fuel i)
          else
            (stepIf ok c (.send i)).bind (fun c₁ =>
              (stepIf ok c₁ (.deliver c.next)).bind (fun c₂ =>
                (drive down fuel c.next c₂).bind (fun c₃ =>
                  (stepIf ok c₃ (.receive i)).bind (drive down fuel i))))
      | some ⟨_, _, .ret _, _⟩ => stepIf ok c (.finish i)
      | _ => some c

/-- A line of a script. -/
inductive Line (Y : System S) where
  | move (m : Move Y)
  | drive (down : S.Call → Bool) (fuel i : Nat)

/-- Play a script. -/
def play (c : Config Y) : List (Line Y) → Option (Config Y)
  | [] => some c
  | .move m :: rest => (stepIf ok c m).bind (play · rest)
  | .drive down fuel i :: rest => (drive ok down fuel i c).bind (play · rest)

variable {ok} {st : Y.St} {C : Config Y → Move Y → Prop} (hC : ∀ c m, ok c m = true → C c m)
include hC

theorem Reach.stepIf {c c' : Config Y} {m : Move Y} (hr : Reach st C c)
    (h : stepIf ok c m = some c') : Reach st C c' := by
  unfold Process.stepIf at h
  split at h
  · rename_i hok
    exact .step m hr (hC c m hok) h
  · exact absurd h (by simp)

theorem Reach.drive {down : S.Call → Bool} (fuel i : Nat) {c c' : Config Y} (hr : Reach st C c)
    (h : drive ok down fuel i c = some c') : Reach st C c' := by
  induction fuel generalizing i c c' with
  | zero => obtain rfl := Option.some.inj h; exact hr
  | succ fuel ih =>
      simp only [Process.drive] at h
      split at h
      · obtain ⟨c₁, h₁, h₂⟩ := Option.bind_eq_some_iff.mp h
        exact ih i (hr.stepIf hC h₁) h₂
      · split at h
        · obtain ⟨c₁, h₁, h₂⟩ := Option.bind_eq_some_iff.mp h
          exact ih i (hr.stepIf hC h₁) h₂
        · obtain ⟨c₁, h₁, h⟩ := Option.bind_eq_some_iff.mp h
          obtain ⟨c₂, h₂, h⟩ := Option.bind_eq_some_iff.mp h
          obtain ⟨c₃, h₃, h⟩ := Option.bind_eq_some_iff.mp h
          obtain ⟨c₄, h₄, h⟩ := Option.bind_eq_some_iff.mp h
          have hr₂ := (hr.stepIf hC h₁).stepIf hC h₂
          exact ih i ((ih _ hr₂ h₃).stepIf hC h₄) h
      · exact hr.stepIf hC h
      · obtain rfl := Option.some.inj h; exact hr

/-- A script only makes moves. -/
theorem Reach.play (script : List (Line Y)) {c c' : Config Y} (hr : Reach st C c)
    (h : play ok c script = some c') : Reach st C c' := by
  induction script generalizing c with
  | nil => obtain rfl := Option.some.inj h; exact hr
  | cons line script ih =>
      cases line with
      | move m =>
          obtain ⟨c₁, h₁, h₂⟩ := Option.bind_eq_some_iff.mp h
          exact ih (hr.stepIf hC h₁) h₂
      | drive down fuel i =>
          obtain ⟨c₁, h₁, h₂⟩ := Option.bind_eq_some_iff.mp h
          exact ih (hr.drive hC fuel i h₁) h₂

/-- What a script leads to can be reached. -/
theorem reach_of_play (st : Y.St) (script : List (Line Y)) (P : Y.St → Bool)
    (h : (play ok (Config.init st) script).any (fun c => P c.st) = true) :
    ∃ c, Reach st C c ∧ P c.st = true := by
  cases hc : play ok (Config.init st) script with
  | none => rw [hc] at h; exact absurd h (by simp)
  | some c =>
      rw [hc] at h
      exact ⟨c, Reach.play hC script .init hc, h⟩

/-- The same with nothing left running. -/
theorem quiet_of_play (st : Y.St) (script : List (Line Y)) (P : Y.St → Bool)
    (h : (play ok (Config.init st) script).any (fun c => decide c.Quiet && P c.st) = true) :
    ∃ c, Reach st C c ∧ c.Quiet ∧ P c.st = true := by
  cases hc : play ok (Config.init st) script with
  | none => rw [hc] at h; exact absurd h (by simp)
  | some c =>
      rw [hc] at h
      obtain ⟨hquiet, hP⟩ := (Bool.and_eq_true _ _).mp h
      exact ⟨c, Reach.play hC script .init hc, of_decide_eq_true hquiet, hP⟩

end Script

theorem quiet_always_of_play (st : Y.St) (script : List (Line Y)) (P : Y.St → Bool)
    (h : (play (fun _ _ => true) (Config.init st) script).any
      (fun c => decide c.Quiet && P c.st) = true) :
    ∃ c, Reach st Always c ∧ c.Quiet ∧ P c.st = true :=
  quiet_of_play (fun _ _ _ => trivial) st script P h

theorem reach_always_of_play (st : Y.St) (script : List (Line Y)) (P : Y.St → Bool)
    (h : (play (fun _ _ => true) (Config.init st) script).any (fun c => P c.st) = true) :
    ∃ c, Reach st Always c ∧ P c.st = true :=
  reach_of_play (fun _ _ _ => trivial) st script P h

end Step

/-! ## Histories -/

/-- A history: what an observer who cannot interfere writes down along a run. -/
structure Observer {S : Sig} (Y : System S) where
  Past : Type
  /-- Thread `i` did an action, which took one state to another. -/
  note : (i : Nat) → Y.Loc → (a : S.Act) → S.Res a → Y.St → Y.St → Past → Past
  /-- Request `j` was sent. -/
  sent : Nat → S.Call → Y.St → Past → Past
  /-- It was lost. -/
  lost : Nat → Past → Past
  /-- A place restarted. -/
  restart : Y.Loc → Past → Past

/-- The system with the observer's notes beside its state. -/
def System.observe {S : Sig} (Y : System S) (O : Observer Y) : System S where
  St := Y.St × O.Past
  Loc := Y.Loc
  Root := Y.Root
  place := Y.place
  main := Y.main
  target := Y.target
  handler := Y.handler
  exec := fun i l io a σ =>
    (Y.exec i l io a σ.1).map (fun q => (q.1, q.2, O.note i l a q.1 σ.1 q.2 σ.2))
  sent := fun j c σ => (Y.sent j c σ.1, O.sent j c σ.1 σ.2)
  lost := fun j σ => (Y.lost j σ.1, O.lost j σ.2)
  mortal := Y.mortal
  restart := fun l σ => (Y.restart l σ.1, O.restart l σ.2)

theorem System.exec_observe {S : Sig} {Y : System S} {O : Observer Y} {i : Nat} {l : Y.Loc} {io : Nat}
    {a : S.Act} {σ σ' : Y.St × O.Past} {r : S.Res a}
    (h : (Y.observe O).exec i l io a σ = some (r, σ')) :
    ∃ w, Y.exec i l io a σ.1 = some (r, w) ∧ σ' = (w, O.note i l a r σ.1 w σ.2) := by
  have h : (Y.exec i l io a σ.1).map (fun q => (q.1, q.2, O.note i l a q.1 σ.1 q.2 σ.2)) = some (r, σ') := h
  obtain ⟨⟨r', w⟩, hw, heq⟩ := Option.map_eq_some_iff.mp h
  obtain ⟨rfl, rfl⟩ := Prod.mk.inj heq
  exact ⟨w, hw, rfl⟩

instance {S : Sig} (Y : System S) (O : Observer Y) [DecidableEq Y.Loc] :
    DecidableEq (Y.observe O).Loc :=
  inferInstanceAs (DecidableEq Y.Loc)

/-! ## The logic -/

/-- Assertions for a system, and the laws that make them usable. -/
structure Logic {S : Sig} (Y : System S) where
  /-- What holds between any two actions. -/
  Inv : Y.St → Prop
  /-- What every change of state does. -/
  Step : Y.St → Y.St → Prop
  /-- What thread or request `i` at a place may assume of the changes others make. -/
  Rely : Nat → Y.Loc → Y.St → Y.St → Prop
  /-- The side condition under which an action is taken. -/
  Ok : Nat → Y.Loc → Nat → S.Act → Y.St → Prop
  /-- The side condition under which a place restarts. -/
  Up : Y.Loc → Y.St → Prop := fun _ _ => True
  /-- What request `j` carries while it is under way. -/
  Req : Nat → S.Call → Y.St → Prop
  /-- What a reply carries. -/
  Rep : S.Call → S.Reply → Y.St → Prop
  step_refl : ∀ σ, Step σ σ
  rely_step : ∀ {i l σ σ'}, Rely i l σ σ' → Step σ σ'
  rely_refl : ∀ i l σ, Rely i l σ σ
  rely_trans : ∀ {i l σ₁ σ₂ σ₃}, Rely i l σ₁ σ₂ → Rely i l σ₂ σ₃ → Rely i l σ₁ σ₃
  req_stable : ∀ {j c σ σ'}, Rely j (Y.target c) σ σ' → Req j c σ → Req j c σ'
  rep_stable : ∀ {c r σ σ'}, Step σ σ' → Rep c r σ → Rep c r σ'
  sent_ok : ∀ {j c σ}, Inv σ → Inv (Y.sent j c σ) ∧ Step σ (Y.sent j c σ) ∧
    ∀ i l, i ≠ j → Rely i l σ (Y.sent j c σ)
  lost_ok : ∀ {j σ}, Inv σ → Inv (Y.lost j σ) ∧ Step σ (Y.lost j σ) ∧
    ∀ i l, i ≠ j → Rely i l σ (Y.lost j σ)
  restart_ok : ∀ {l σ}, Inv σ → Up l σ → Inv (Y.restart l σ) ∧ Step σ (Y.restart l σ) ∧
    ∀ i l', l' ≠ l → Rely i l' σ (Y.restart l σ)

namespace Logic

variable {S : Sig} {Y : System S} (L : Logic Y) {α β : Type}

/-- A change of state made by thread `i`. -/
structure Change (i : Nat) (σ σ' : Y.St) : Prop where
  inv : L.Inv σ'
  step : L.Step σ σ'
  rely : ∀ i' l, i' ≠ i → L.Rely i' l σ σ'

/-- Thread `i` at `l` can run the program from `σ`, whatever the others do meanwhile,
and returns something that satisfies `Q`. -/
def Safe (i : Nat) (l : Y.Loc) : Prog S α → (α → Y.St → Prop) → Y.St → Prop
  | .ret a, Q, σ => ∀ σ', L.Rely i l σ σ' → L.Inv σ' → Q a σ'
  | .act a k, Q, σ => ∀ σ' io r σ'', L.Rely i l σ σ' → L.Inv σ' → L.Ok i l io a σ' →
      Y.exec i l io a σ' = some (r, σ'') → L.Change i σ' σ'' ∧ Safe i l (k r) Q σ''
  | .call c k, Q, σ =>
      (∀ σ' j, L.Rely i l σ σ' → L.Inv σ' → i ≠ j → L.Req j c (Y.sent j c σ')) ∧
      ∀ o σ', L.Rely i l σ σ' → L.Inv σ' → (∀ r, o = .reply r → L.Rep c r σ') →
        Safe i l (k o) Q σ'

variable {L} {i : Nat} {l : Y.Loc} {σ σ' : Y.St}

/-- What others do in between does not matter. -/
theorem Safe.mono {p : Prog S α} {Q : α → Y.St → Prop} (h : L.Safe i l p Q σ)
    (hr : L.Rely i l σ σ') : L.Safe i l p Q σ' := by
  cases p with
  | ret a => exact fun σ₁ h₁ => h σ₁ (L.rely_trans hr h₁)
  | act a k => exact fun σ₁ io r σ₂ h₁ => h σ₁ io r σ₂ (L.rely_trans hr h₁)
  | call c k =>
      exact ⟨fun σ₁ j h₁ => h.1 σ₁ j (L.rely_trans hr h₁),
        fun o σ₁ h₁ => h.2 o σ₁ (L.rely_trans hr h₁)⟩

/-- Programs compose. -/
theorem Safe.bind {p : Prog S α} {f : α → Prog S β} {Q : β → Y.St → Prop}
    (h : L.Safe i l p (fun a σ => L.Inv σ → L.Safe i l (f a) Q σ) σ) (hi : L.Inv σ) :
    L.Safe i l (p >>= f) Q σ := by
  induction p generalizing σ with
  | ret a => exact h σ (L.rely_refl i l σ) hi hi
  | act a k ih =>
      intro σ₁ io r σ₂ h₁ h₂ h₃ h₄
      obtain ⟨hc, hk⟩ := h σ₁ io r σ₂ h₁ h₂ h₃ h₄
      exact ⟨hc, ih r hk hc.inv⟩
  | call c k ih =>
      refine ⟨h.1, ?_⟩
      intro o σ₁ h₁ h₂ h₃
      exact ih o (h.2 o σ₁ h₁ h₂ h₃) h₂

/-- One action, and then the rest. -/
theorem Safe.perform {a : S.Act} {f : S.Res a → Prog S β} {Q : β → Y.St → Prop}
    (h : ∀ σ' io r σ'', L.Rely i l σ σ' → L.Inv σ' → L.Ok i l io a σ' →
      Y.exec i l io a σ' = some (r, σ'') → L.Change i σ' σ'' ∧ L.Safe i l (f r) Q σ'') :
    L.Safe i l (perform a >>= f) Q σ := h

/-- One request, and then the rest. -/
theorem Safe.request {c : S.Call} {f : Outcome S.Reply → Prog S β} {Q : β → Y.St → Prop}
    (hreq : ∀ σ' j, L.Rely i l σ σ' → L.Inv σ' → i ≠ j → L.Req j c (Y.sent j c σ'))
    (hf : ∀ o σ', L.Rely i l σ σ' → L.Inv σ' → (∀ r, o = .reply r → L.Rep c r σ') →
      L.Safe i l (f o) Q σ') : L.Safe i l (request c >>= f) Q σ :=
  ⟨hreq, hf⟩

/-- Nothing left to do. -/
theorem Safe.pure {a : α} {Q : α → Y.St → Prop} (h : ∀ σ', L.Rely i l σ σ' → L.Inv σ' → Q a σ') :
    L.Safe i l (pure a) Q σ := h

theorem Safe.weaken {p : Prog S α} {Q Q' : α → Y.St → Prop} (h : L.Safe i l p Q σ)
    (hQ : ∀ a σ, L.Inv σ → Q a σ → Q' a σ) : L.Safe i l p Q' σ := by
  induction p generalizing σ with
  | ret a => exact fun σ₁ h₁ h₂ => hQ a σ₁ h₂ (h σ₁ h₁ h₂)
  | act a k ih =>
      intro σ₁ io r σ₂ h₁ h₂ h₃ h₄
      obtain ⟨hc, hk⟩ := h σ₁ io r σ₂ h₁ h₂ h₃ h₄
      exact ⟨hc, ih r hk⟩
  | call c k ih => exact ⟨h.1, fun o σ₁ h₁ h₂ h₃ => ih o (h.2 o σ₁ h₁ h₂ h₃)⟩

/-- What no step undoes still holds at the end. -/
theorem Safe.persist {p : Prog S α} {Q : α → Y.St → Prop} {R : Y.St → Prop}
    (hR : ∀ {σ σ'}, L.Step σ σ' → R σ → R σ') (h : L.Safe i l p Q σ) (hr : R σ) :
    L.Safe i l p (fun a σ => R σ ∧ Q a σ) σ := by
  induction p generalizing σ with
  | ret a => exact fun σ₁ h₁ h₂ => ⟨hR (L.rely_step h₁) hr, h σ₁ h₁ h₂⟩
  | act a k ih =>
      intro σ₁ io r σ₂ h₁ h₂ h₃ h₄
      obtain ⟨hc, hk⟩ := h σ₁ io r σ₂ h₁ h₂ h₃ h₄
      exact ⟨hc, ih r hk (hR hc.step (hR (L.rely_step h₁) hr))⟩
  | call c k ih =>
      exact ⟨h.1, fun o σ₁ h₁ h₂ h₃ => ih o (h.2 o σ₁ h₁ h₂ h₃) (hR (L.rely_step h₁) hr)⟩

/-! ## Soundness -/

/-- What a thread's last value has to satisfy. -/
def post (L : Logic Y) (call : Option S.Call) (r : Option S.Reply) (σ : Y.St) : Prop :=
  ∀ c v, call = some c → r = some v → L.Rep c v σ

/-- A thread and the requests it knows about. -/
structure ThreadOk (L : Logic Y) (c : Config Y) (i : Nat) (t : Thread Y) : Prop where
  safe : L.Safe i t.loc t.prog (L.post t.call) c.st
  waits : ∀ j, t.waiting = some j → ∃ req k m, t.prog = .call req k ∧ c.msgs j = some (req, m)
  answers : ∀ req, t.call = some req → c.msgs i = some (req, .handling) ∧ t.loc = Y.target req
  isRoot : t.call = none → c.msgs i = none
  old : i < c.next

/-- The global invariant. -/
structure Holds (L : Logic Y) (c : Config Y) : Prop where
  inv : L.Inv c.st
  thread : ∀ i t, c.threads i = some t → L.ThreadOk c i t
  req : ∀ j req, c.msgs j = some (req, .inFlight) → L.Req j req c.st
  rep : ∀ j req r, c.msgs j = some (req, .replied r) → L.Rep req r c.st
  old : ∀ j q, c.msgs j = some q → j < c.next

theorem holds_init {σ : Y.St} (h : L.Inv σ) : L.Holds (Config.init σ) :=
  ⟨h, nofun, nofun, nofun, nofun⟩

/-- A thread does not mind moves by others. -/
theorem ThreadOk.mono {c c' : Config Y} {t : Thread Y} (h : L.ThreadOk c i t)
    (hr : L.Rely i t.loc c.st c'.st)
    (hm : ∀ j req m, c.msgs j = some (req, m) → ∃ m', c'.msgs j = some (req, m'))
    (hi : c'.msgs i = c.msgs i) (hn : c.next ≤ c'.next) : L.ThreadOk c' i t where
  safe := h.safe.mono hr
  waits := by
    intro j hj
    obtain ⟨req, k, m, hp, hmsg⟩ := h.waits j hj
    obtain ⟨m', hm'⟩ := hm j req m hmsg
    exact ⟨req, k, m', hp, hm'⟩
  answers := fun req hreq => hi ▸ h.answers req hreq
  isRoot := fun hroot => hi ▸ h.isRoot hroot
  old := Nat.lt_of_lt_of_le h.old hn

/-- A thread's name is not that of a request under way. -/
theorem Holds.ne_of_inFlight {c : Config Y} (h : L.Holds c) {t : Thread Y}
    (ht : c.threads i = some t) {j : Nat} {req : S.Call} (hj : c.msgs j = some (req, .inFlight)) :
    j ≠ i := by
  rintro rfl
  have hok := h.thread j t ht
  cases hc : t.call with
  | none => rw [hok.isRoot hc] at hj; exact absurd hj (by simp)
  | some req' => rw [(hok.answers req' hc).1] at hj; exact absurd hj (by simp)

/-- Thread `i` changes the state and goes on. -/
theorem Holds.change {c : Config Y} (h : L.Holds c) {t t' : Thread Y} (ht : c.threads i = some t)
    {σ' : Y.St} (hc : L.Change i c.st σ') (hloc : t'.loc = t.loc) (hcall : t'.call = t.call)
    (hw : t'.waiting = none) (hs : L.Safe i t.loc t'.prog (L.post t.call) σ') :
    L.Holds { c.setThread i (some t') with st := σ' } := by
  have hok := h.thread i t ht
  refine ⟨hc.inv, ?_, ?_, ?_, h.old⟩
  · intro i' t'' ht''
    by_cases hi : i' = i
    · subst hi
      obtain rfl : t' = t'' := by simpa [Config.setThread] using ht''
      exact { safe := by rw [hloc, hcall]; exact hs
              waits := fun j hj => absurd hj (by rw [hw]; simp)
              answers := by rw [hcall, hloc]; exact hok.answers
              isRoot := by rw [hcall]; exact hok.isRoot
              old := hok.old }
    · have hold : c.threads i' = some t'' := by
        simpa [Config.setThread, Function.update_of_ne hi] using ht''
      exact (h.thread i' t'' hold).mono (hc.rely i' _ hi) (fun _ _ m hm => ⟨m, hm⟩) rfl (Nat.le_refl _)
  · intro j req hj
    exact L.req_stable (hc.rely j _ (h.ne_of_inFlight ht hj)) (h.req j req hj)
  · intro j req r hj
    exact L.rep_stable hc.step (h.rep j req r hj)

/-- Thread `i` goes on without a change of state. -/
theorem Holds.proceed {c : Config Y} (h : L.Holds c) {t t' : Thread Y} (ht : c.threads i = some t)
    (hloc : t'.loc = t.loc) (hcall : t'.call = t.call) (hw : t'.waiting = none)
    (hs : L.Safe i t.loc t'.prog (L.post t.call) c.st) : L.Holds (c.setThread i (some t')) :=
  h.change ht ⟨h.inv, L.step_refl _, fun _ _ _ => L.rely_refl _ _ _⟩ hloc hcall hw hs

/-- A request changes its status, the state staying what it is. -/
theorem Holds.setMsg {c : Config Y} (h : L.Holds c) {j : Nat} {req : S.Call} {m m' : Msg S.Reply}
    (hj : c.msgs j = some (req, m)) (hfree : c.threads j = none)
    (hreq : m' = .inFlight → L.Req j req c.st)
    (hrep : ∀ r, m' = .replied r → L.Rep req r c.st) : L.Holds (c.setMsg j req m') := by
  refine ⟨h.inv, ?_, ?_, ?_, ?_⟩
  · intro i t ht
    have hij : i ≠ j := by
      rintro rfl
      rw [show c.threads i = some t from ht] at hfree
      exact absurd hfree (by simp)
    refine (h.thread i t ht).mono (L.rely_refl _ _ _) ?_ ?_ (Nat.le_refl _)
    · intro j' req' m₁ hm₁
      by_cases hj' : j' = j
      · subst hj'
        rw [hj] at hm₁
        obtain ⟨rfl, -⟩ := Prod.mk.inj (Option.some.inj hm₁)
        exact ⟨m', by simp [Config.setMsg]⟩
      · exact ⟨m₁, by simpa [Config.setMsg, Function.update_of_ne hj'] using hm₁⟩
    · simp [Config.setMsg, Function.update_of_ne hij]
  · intro j' req' hj'
    by_cases hjj : j' = j
    · subst hjj
      simp only [Config.setMsg, Function.update_self, Option.some.injEq, Prod.mk.injEq] at hj'
      obtain ⟨rfl, hm⟩ := hj'
      exact hreq hm
    · exact h.req j' req' (by simpa [Config.setMsg, Function.update_of_ne hjj] using hj')
  · intro j' req' r hj'
    by_cases hjj : j' = j
    · subst hjj
      simp only [Config.setMsg, Function.update_self, Option.some.injEq, Prod.mk.injEq] at hj'
      obtain ⟨rfl, hm⟩ := hj'
      exact hrep r hm
    · exact h.rep j' req' r (by simpa [Config.setMsg, Function.update_of_ne hjj] using hj')
  · intro j' q hq
    by_cases hjj : j' = j
    · subst hjj
      exact h.old j' _ hj
    · exact h.old j' q (by simpa [Config.setMsg, Function.update_of_ne hjj] using hq)

/-- A thread ends. -/
theorem Holds.endThread {c : Config Y} (h : L.Holds c) (i : Nat) : L.Holds (c.setThread i none) := by
  refine ⟨h.inv, ?_, h.req, h.rep, h.old⟩
  intro i' t ht
  by_cases hi : i' = i
  · subst hi
    exact absurd ht (by simp [Config.setThread])
  · have hold : c.threads i' = some t := by
      simpa [Config.setThread, Function.update_of_ne hi] using ht
    exact (h.thread i' t hold).mono (L.rely_refl _ _ _) (fun _ _ m hm => ⟨m, hm⟩) rfl (Nat.le_refl _)

/-- A request is sent under a fresh name. -/
theorem Holds.send {c : Config Y} (h : L.Holds c) {l : Y.Loc} {call : Option S.Call} {req : S.Call}
    {k : Outcome S.Reply → Prog S (Option S.Reply)}
    (ht : c.threads i = some ⟨l, call, .call req k, none⟩) :
    L.Holds { (c.setThread i (some ⟨l, call, .call req k, some c.next⟩)).setMsg c.next req .inFlight with
      st := Y.sent c.next req c.st
      next := c.next + 1 } := by
  have hok := h.thread i _ ht
  have hne : i ≠ c.next := Nat.ne_of_lt hok.old
  have hnone : c.msgs c.next = none := by
    cases hm : c.msgs c.next with
    | none => rfl
    | some q => exact absurd (h.old _ q hm) (Nat.lt_irrefl _)
  obtain ⟨hinv, hstep, hrely⟩ := L.sent_ok (j := c.next) (c := req) h.inv
  refine ⟨hinv, ?_, ?_, ?_, ?_⟩
  · intro i' t' ht'
    by_cases hi : i' = i
    · subst hi
      obtain rfl : (⟨l, call, .call req k, some c.next⟩ : Thread Y) = t' := by
        simpa [Config.setMsg, Config.setThread] using ht'
      refine ⟨hok.safe.mono (hrely i' l hne), ?_, ?_, ?_, Nat.lt_succ_of_lt hok.old⟩
      · intro j hj
        obtain rfl := Option.some.inj hj
        exact ⟨req, k, .inFlight, rfl, by simp [Config.setMsg]⟩
      · intro req' hreq'
        simpa [Config.setMsg, Config.setThread, Function.update_of_ne hne] using hok.answers req' hreq'
      · intro hroot
        simpa [Config.setMsg, Config.setThread, Function.update_of_ne hne] using hok.isRoot hroot
    · have hold : c.threads i' = some t' := by
        simpa [Config.setMsg, Config.setThread, Function.update_of_ne hi] using ht'
      have hok' := h.thread i' t' hold
      have hne' : i' ≠ c.next := Nat.ne_of_lt hok'.old
      refine hok'.mono (hrely i' _ hne') ?_ ?_ (Nat.le_succ _)
      · intro j req' m hm
        have hj : j ≠ c.next := by rintro rfl; rw [hnone] at hm; exact absurd hm (by simp)
        exact ⟨m, by simpa [Config.setMsg, Config.setThread, Function.update_of_ne hj] using hm⟩
      · simp [Config.setMsg, Config.setThread, Function.update_of_ne hne']
  · intro j req' hj
    by_cases hjn : j = c.next
    · subst hjn
      obtain rfl : req = req' := by simpa [Config.setMsg] using hj
      exact hok.safe.1 c.st c.next (L.rely_refl _ _ _) h.inv hne
    · have hold : c.msgs j = some (req', .inFlight) := by
        simpa [Config.setMsg, Config.setThread, Function.update_of_ne hjn] using hj
      exact L.req_stable (hrely j _ hjn) (h.req j req' hold)
  · intro j req' r hj
    have hjn : j ≠ c.next := by rintro rfl; simp [Config.setMsg] at hj
    have hold : c.msgs j = some (req', .replied r) := by
      simpa [Config.setMsg, Config.setThread, Function.update_of_ne hjn] using hj
    exact L.rep_stable hstep (h.rep j req' r hold)
  · intro j q hq
    by_cases hjn : j = c.next
    · subst hjn; exact Nat.lt_succ_self _
    · exact Nat.lt_succ_of_lt (h.old j q (by
        simpa [Config.setMsg, Config.setThread, Function.update_of_ne hjn] using hq))

/-- A request reaches its target and its handler starts. -/
theorem Holds.deliver {c : Config Y} (h : L.Holds c)
    (hh : ∀ j req σ, L.Inv σ → L.Req j req σ →
      L.Safe j (Y.target req) (Y.handler req) (fun r σ => L.Rep req r σ) σ)
    {j : Nat} {req : S.Call} (hj : c.msgs j = some (req, .inFlight)) :
    L.Holds ((c.setThread j (some ⟨Y.target req, some req,
      Y.handler req >>= fun r => .ret (some r), none⟩)).setMsg j req .handling) := by
  refine ⟨h.inv, ?_, ?_, ?_, ?_⟩
  · intro i' t' ht'
    by_cases hi : i' = j
    · subst hi
      obtain rfl := Option.some.inj (show some _ = some t' by
        simpa [Config.setMsg, Config.setThread] using ht')
      refine ⟨?_, nofun, ?_, nofun, h.old i' _ hj⟩
      · refine Safe.bind (((hh i' req c.st h.inv (h.req i' req hj))).weaken ?_) h.inv
        intro r σ _ hr _ σ₁ h₁ _ c' v hc hv
        obtain rfl := Option.some.inj hc
        obtain rfl := Option.some.inj hv
        exact L.rep_stable (L.rely_step h₁) hr
      · intro req' hreq'
        obtain rfl := Option.some.inj hreq'
        exact ⟨by simp [Config.setMsg], rfl⟩
    · have hold : c.threads i' = some t' := by
        simpa [Config.setMsg, Config.setThread, Function.update_of_ne hi] using ht'
      refine (h.thread i' t' hold).mono (L.rely_refl _ _ _) ?_ ?_ (Nat.le_refl _)
      · intro j' req' m hm
        by_cases hjj : j' = j
        · subst hjj
          rw [hj] at hm
          obtain ⟨rfl, -⟩ := Prod.mk.inj (Option.some.inj hm)
          exact ⟨.handling, by simp [Config.setMsg]⟩
        · exact ⟨m, by simpa [Config.setMsg, Config.setThread, Function.update_of_ne hjj] using hm⟩
      · simp [Config.setMsg, Config.setThread, Function.update_of_ne hi]
  · intro j' req' hj'
    have hjj : j' ≠ j := by rintro rfl; simp [Config.setMsg] at hj'
    exact h.req j' req' (by
      simpa [Config.setMsg, Config.setThread, Function.update_of_ne hjj] using hj')
  · intro j' req' r hj'
    have hjj : j' ≠ j := by rintro rfl; simp [Config.setMsg] at hj'
    exact h.rep j' req' r (by
      simpa [Config.setMsg, Config.setThread, Function.update_of_ne hjj] using hj')
  · intro j' q hq
    by_cases hjj : j' = j
    · subst hjj; exact h.old j' _ hj
    · exact h.old j' q (by
        simpa [Config.setMsg, Config.setThread, Function.update_of_ne hjj] using hq)

/-- A request is lost. -/
theorem Holds.lose {c : Config Y} (h : L.Holds c) {j : Nat} {req : S.Call}
    (hj : c.msgs j = some (req, .inFlight)) :
    L.Holds { c.setMsg j req .gone with st := Y.lost j c.st } := by
  obtain ⟨hinv, hstep, hrely⟩ := L.lost_ok (j := j) h.inv
  have hfree : c.threads j = none := by
    cases ht : c.threads j with
    | none => rfl
    | some t => exact absurd rfl (h.ne_of_inFlight ht hj)
  have h' : L.Holds (c.setMsg j req .gone) := h.setMsg hj hfree nofun nofun
  refine ⟨hinv, ?_, ?_, ?_, h'.old⟩
  · intro i t ht
    have hij : i ≠ j := by
      rintro rfl
      rw [show c.threads i = some t from ht] at hfree
      exact absurd hfree (by simp)
    exact (h'.thread i t ht).mono (hrely i _ hij) (fun _ _ m hm => ⟨m, hm⟩) rfl (Nat.le_refl _)
  · intro j' req' hj'
    have hjj : j' ≠ j := by rintro rfl; simp [Config.setMsg] at hj'
    exact L.req_stable (hrely j' _ hjj) (h'.req j' req' hj')
  · intro j' req' r hj'
    exact L.rep_stable hstep (h'.rep j' req' r hj')

theorem dropAt_inFlight [DecidableEq Y.Loc] {l : Y.Loc} {q : S.Call × Msg S.Reply} {req : S.Call}
    (h : dropAt l q = (req, .inFlight)) : q = (req, .inFlight) ∧ Y.target req ≠ l := by
  obtain ⟨call, m⟩ := q
  cases m with
  | inFlight =>
      simp only [dropAt] at h
      split at h
      · exact absurd (congrArg Prod.snd h) (by simp)
      · rename_i hne
        obtain ⟨rfl, -⟩ := Prod.mk.inj h
        exact ⟨rfl, hne⟩
  | handling =>
      simp only [dropAt] at h
      split at h <;> exact absurd (congrArg Prod.snd h) (by simp)
  | replied r => exact absurd (congrArg Prod.snd h) (by simp [dropAt])
  | gone => exact absurd (congrArg Prod.snd h) (by simp [dropAt])

theorem dropAt_replied [DecidableEq Y.Loc] {l : Y.Loc} {q : S.Call × Msg S.Reply} {req : S.Call}
    {r : S.Reply} (h : dropAt l q = (req, .replied r)) : q = (req, .replied r) := by
  obtain ⟨call, m⟩ := q
  cases m with
  | inFlight =>
      simp only [dropAt] at h
      split at h <;> exact absurd (congrArg Prod.snd h) (by simp)
  | handling =>
      simp only [dropAt] at h
      split at h <;> exact absurd (congrArg Prod.snd h) (by simp)
  | replied r' => exact h
  | gone => exact absurd (congrArg Prod.snd h) (by simp [dropAt])

theorem dropAt_fst [DecidableEq Y.Loc] (l : Y.Loc) (q : S.Call × Msg S.Reply) :
    (dropAt l q).1 = q.1 := by
  obtain ⟨call, m⟩ := q
  cases m <;> simp only [dropAt] <;> split <;> rfl

/-- A place restarts; what ran there and what was under way to it is gone. -/
theorem Holds.restart [DecidableEq Y.Loc] {c : Config Y} (h : L.Holds c) (l : Y.Loc) (hup : L.Up l c.st) :
    L.Holds { c with
      st := Y.restart l c.st
      threads := fun i => (c.threads i).filter (fun t => t.loc ≠ l)
      msgs := fun j => (c.msgs j).map (dropAt l) } := by
  obtain ⟨hinv, hstep, hrely⟩ := L.restart_ok (l := l) h.inv hup
  refine ⟨hinv, ?_, ?_, ?_, ?_⟩
  · intro i t ht
    obtain ⟨hold, hl⟩ := Option.filter_eq_some_iff.mp ht
    have hl : t.loc ≠ l := by simpa using hl
    have hok := h.thread i t hold
    refine ⟨hok.safe.mono (hrely i _ hl), ?_, ?_, ?_, hok.old⟩
    · intro j hj
      obtain ⟨req, k, m, hp, hm⟩ := hok.waits j hj
      refine ⟨req, k, (dropAt l (req, m)).2, hp, ?_⟩
      show (c.msgs j).map (dropAt l) = _
      rw [hm, Option.map_some]
      exact congrArg some (Prod.ext (dropAt_fst l (req, m)) rfl)
    · intro req hreq
      obtain ⟨hm, htgt⟩ := hok.answers req hreq
      refine ⟨?_, htgt⟩
      show (c.msgs i).map (dropAt l) = _
      rw [hm, Option.map_some]
      simp [dropAt, ← htgt, hl]
    · intro hroot
      show (c.msgs i).map (dropAt l) = _
      rw [hok.isRoot hroot]; rfl
  · intro j req hj
    obtain ⟨q, hq, hd⟩ := Option.map_eq_some_iff.mp hj
    obtain ⟨rfl, hl⟩ := dropAt_inFlight hd
    exact L.req_stable (hrely j _ hl) (h.req j req hq)
  · intro j req r hj
    obtain ⟨q, hq, hd⟩ := Option.map_eq_some_iff.mp hj
    obtain rfl := dropAt_replied hd
    exact L.rep_stable hstep (h.rep j req r hq)
  · intro j q hq
    obtain ⟨q', hq', -⟩ := Option.map_eq_some_iff.mp hq
    exact h.old j q' hq'

/-- Something is started from outside. -/
theorem Holds.start {c : Config Y} (h : L.Holds c) (r : Y.Root)
    (hs : L.Safe c.next (Y.place r) (Y.main r) (fun _ _ => True) c.st) :
    L.Holds { c.setThread c.next (some ⟨Y.place r, none, Y.main r >>= fun _ => .ret none, none⟩) with
      next := c.next + 1 } := by
  have hnone : c.msgs c.next = none := by
    cases hm : c.msgs c.next with
    | none => rfl
    | some q => exact absurd (h.old _ q hm) (Nat.lt_irrefl _)
  refine ⟨h.inv, ?_, h.req, h.rep, fun j q hq => Nat.lt_succ_of_lt (h.old j q hq)⟩
  intro i t ht
  by_cases hi : i = c.next
  · subst hi
    obtain rfl := Option.some.inj (show some _ = some t by simpa [Config.setThread] using ht)
    refine ⟨?_, nofun, nofun, fun _ => hnone, Nat.lt_succ_self _⟩
    refine Safe.bind (hs.weaken ?_) h.inv
    intro _ σ _ _ _ σ₁ _ _ c' v hc
    exact absurd hc (by simp)
  · have hold : c.threads i = some t := by
      simpa [Config.setThread, Function.update_of_ne hi] using ht
    exact (h.thread i t hold).mono (L.rely_refl _ _ _) (fun _ _ m hm => ⟨m, hm⟩) rfl (Nat.le_succ _)

/-- **One move keeps the invariant.** -/
theorem holds_step [DecidableEq Y.Loc] {c c' : Config Y} {m : Move Y}
    (hroot : ∀ r, L.Safe c.next (Y.place r) (Y.main r) (fun _ _ => True) c.st)
    (hh : ∀ j req σ, L.Inv σ → L.Req j req σ →
      L.Safe j (Y.target req) (Y.handler req) (fun r σ => L.Rep req r σ) σ)
    (h : L.Holds c) (ha : Within L.Ok L.Up c m) (hs : step c m = some c') : L.Holds c' := by
  cases m with
  | start r =>
      obtain rfl := Option.some.inj hs
      exact h.start r (hroot r)
  | act i io =>
      simp only [step] at hs
      split at hs
      · rename_i l call a k ht
        obtain ⟨⟨r, σ'⟩, he, rfl⟩ := Option.map_eq_some_iff.mp hs
        obtain ⟨hc, hk⟩ := (h.thread i _ ht).safe c.st io r σ' (L.rely_refl _ _ _) h.inv
          (ha.1 l call a k ht) he
        exact h.change ht hc rfl rfl rfl hk
      · exact absurd hs (by simp)
  | refuse i =>
      simp only [step] at hs
      split at hs
      · rename_i l call req k ht
        obtain rfl := Option.some.inj hs
        exact h.proceed ht rfl rfl rfl
          ((h.thread i _ ht).safe.2 .refused c.st (L.rely_refl _ _ _) h.inv nofun)
      · exact absurd hs (by simp)
  | send i =>
      simp only [step] at hs
      split at hs
      · rename_i l call req k ht
        obtain rfl := Option.some.inj hs
        exact h.send ht
      · exact absurd hs (by simp)
  | giveUp i sendFailed =>
      simp only [step] at hs
      split at hs
      · rename_i l call req k j ht
        obtain rfl := Option.some.inj hs
        refine h.proceed ht rfl rfl rfl
          ((h.thread i _ ht).safe.2 _ c.st (L.rely_refl _ _ _) h.inv ?_)
        intro r hr
        cases sendFailed <;> exact absurd hr (by simp)
      · exact absurd hs (by simp)
  | receive i =>
      simp only [step] at hs
      split at hs
      · rename_i l call req k j ht
        split at hs
        · rename_i req' r hj
          obtain rfl := Option.some.inj hs
          have hok := h.thread i _ ht
          -- the reply is to the request this thread is waiting for
          obtain ⟨req₁, k₁, m, hp, hm⟩ := hok.waits j rfl
          obtain ⟨rfl, -⟩ := Prog.call.inj hp
          rw [hj] at hm
          obtain ⟨rfl, -⟩ := Prod.mk.inj (Option.some.inj hm)
          have hrep := h.rep j req' r hj
          have hfree : c.threads j = none := by
            cases htj : c.threads j with
            | none => rfl
            | some t =>
                have hokj := h.thread j t htj
                cases hcall : t.call with
                | none => rw [hokj.isRoot hcall] at hj; exact absurd hj (by simp)
                | some req₂ => rw [(hokj.answers req₂ hcall).1] at hj; exact absurd hj (by simp)
          have hij : j ≠ i := by rintro rfl; rw [ht] at hfree; exact absurd hfree (by simp)
          have h' : L.Holds (c.setThread i (some ⟨l, call, k (.reply r), none⟩)) :=
            h.proceed ht rfl rfl rfl
              (hok.safe.2 (.reply r) c.st (L.rely_refl _ _ _) h.inv (by rintro r' ⟨⟩; exact hrep))
          refine h'.setMsg (m := .replied r) hj ?_ nofun nofun
          simpa [Config.setThread, Function.update_of_ne hij] using hfree
        · exact absurd hs (by simp)
      · exact absurd hs (by simp)
  | deliver j =>
      simp only [step] at hs
      split at hs
      · rename_i req hj
        obtain rfl := Option.some.inj hs
        exact h.deliver hh hj
      · exact absurd hs (by simp)
  | lose j =>
      simp only [step] at hs
      split at hs
      · rename_i req hj
        obtain rfl := Option.some.inj hs
        exact h.lose hj
      · exact absurd hs (by simp)
  | finish i =>
      simp only [step] at hs
      split at hs
      · rename_i l req r w ht
        obtain rfl := Option.some.inj hs
        have hok := h.thread i _ ht
        refine (h.endThread i).setMsg (m := .handling) (hok.answers req rfl).1
          (by simp [Config.setThread]) nofun ?_
        rintro r' ⟨⟩
        exact hok.safe c.st (L.rely_refl _ _ _) h.inv req r rfl rfl
      · obtain rfl := Option.some.inj hs
        exact h.endThread i
      · exact absurd hs (by simp)
  | restart l =>
      simp only [step] at hs
      split at hs
      · obtain rfl := Option.some.inj hs
        exact h.restart l (ha.2 l rfl)
      · exact absurd hs (by simp)

/--
**Soundness.**

If every main program and every handler is safe, `Inv` holds in every configuration
that moves meeting the side conditions can reach.
-/
theorem sound_within [DecidableEq Y.Loc] {σ : Y.St} (h0 : L.Inv σ)
    (hroot : ∀ r i σ, L.Inv σ → L.Safe i (Y.place r) (Y.main r) (fun _ _ => True) σ)
    (hh : ∀ j req σ, L.Inv σ → L.Req j req σ →
      L.Safe j (Y.target req) (Y.handler req) (fun r σ => L.Rep req r σ) σ)
    {c : Config Y} (h : Reach σ (Within L.Ok L.Up) c) : L.Holds c := by
  induction h with
  | init => exact holds_init h0
  | step m _ hc hs ih => exact holds_step (fun r => hroot r _ _ ih.inv) hh ih hc hs

/-- The same where a restart is always fine. -/
theorem sound [DecidableEq Y.Loc] (hup : ∀ l σ, L.Up l σ) {σ : Y.St} (h0 : L.Inv σ)
    (hroot : ∀ r i σ, L.Inv σ → L.Safe i (Y.place r) (Y.main r) (fun _ _ => True) σ)
    (hh : ∀ j req σ, L.Inv σ → L.Req j req σ →
      L.Safe j (Y.target req) (Y.handler req) (fun r σ => L.Rep req r σ) σ)
    {c : Config Y} (h : Reach σ (When L.Ok) c) : L.Holds c :=
  sound_within h0 hroot hh (h.mono (within_of_when hup))

/-- What others cannot change of a name stays as it is until somebody has that name. -/
theorem new_step [DecidableEq Y.Loc] {New : Nat → Y.St → Prop}
    (hkeep : ∀ {i l σ σ'}, L.Rely i l σ σ' → New i σ → New i σ')
    (hrestart : ∀ {i l σ}, New i σ → New i (Y.restart l σ)) {c c' : Config Y} {m : Move Y}
    (h : L.Holds c) (ha : Within L.Ok L.Up c m) (hs : step c m = some c') (hn : ∀ i, c.next ≤ i → New i c.st) :
    ∀ i, c'.next ≤ i → New i c'.st := by
  intro i hi
  cases m with
  | start r =>
      obtain rfl := Option.some.inj hs
      exact hn i (Nat.le_of_succ_le hi)
  | act j io =>
      simp only [step] at hs
      split at hs
      · rename_i l call a k ht
        obtain ⟨⟨r, σ'⟩, he, rfl⟩ := Option.map_eq_some_iff.mp hs
        have hok := h.thread j _ ht
        obtain ⟨hc, -⟩ := hok.safe c.st io r σ' (L.rely_refl _ _ _) h.inv (ha.1 l call a k ht) he
        have hne : i ≠ j := Nat.ne_of_gt (Nat.lt_of_lt_of_le hok.old hi)
        exact hkeep (hc.rely i l hne) (hn i hi)
      · exact absurd hs (by simp)
  | send j =>
      simp only [step] at hs
      split at hs
      · rename_i l call req k ht
        obtain rfl := Option.some.inj hs
        have hlt : c.next < i := hi
        obtain ⟨-, -, hrely⟩ := L.sent_ok (j := c.next) (c := req) h.inv
        exact hkeep (hrely i l (Nat.ne_of_gt hlt)) (hn i (Nat.le_of_lt hlt))
      · exact absurd hs (by simp)
  | lose j =>
      simp only [step] at hs
      split at hs
      · rename_i req hj
        obtain rfl := Option.some.inj hs
        obtain ⟨-, -, hrely⟩ := L.lost_ok (j := j) h.inv
        have hne : i ≠ j := Nat.ne_of_gt (Nat.lt_of_lt_of_le (h.old j _ hj) hi)
        exact hkeep (hrely i (Y.target req) hne) (hn i hi)
      · exact absurd hs (by simp)
  | restart l =>
      simp only [step] at hs
      split at hs
      · obtain rfl := Option.some.inj hs
        exact hrestart (hn i hi)
      · exact absurd hs (by simp)
  | refuse j | giveUp j b | receive j | deliver j | finish j =>
      -- nothing happens to the state
      simp only [step] at hs
      repeat' split at hs
      all_goals first
        | (obtain rfl := Option.some.inj hs; exact hn i hi)
        | exact absurd hs (by simp)

/-- Soundness where a program that starts may count on a fact about its name. -/
theorem sound_new [DecidableEq Y.Loc] (hup : ∀ l σ, L.Up l σ) (New : Nat → Y.St → Prop)
    (hkeep : ∀ {i l σ σ'}, L.Rely i l σ σ' → New i σ → New i σ')
    (hrestart : ∀ {i l σ}, New i σ → New i (Y.restart l σ)) {σ : Y.St} (h0 : L.Inv σ)
    (hnew : ∀ i, New i σ)
    (hroot : ∀ r i σ, L.Inv σ → New i σ → L.Safe i (Y.place r) (Y.main r) (fun _ _ => True) σ)
    (hh : ∀ j req σ, L.Inv σ → L.Req j req σ →
      L.Safe j (Y.target req) (Y.handler req) (fun r σ => L.Rep req r σ) σ)
    {c : Config Y} (h : Reach σ (When L.Ok) c) : L.Holds c ∧ ∀ i, c.next ≤ i → New i c.st := by
  induction h with
  | init => exact ⟨holds_init h0, fun i _ => hnew i⟩
  | step m _ hc hs ih =>
      obtain ⟨hholds, hn⟩ := ih
      have hc := within_of_when hup _ _ hc
      exact ⟨holds_step (fun r => hroot r _ _ hholds.inv (hn _ (Nat.le_refl _))) hh hholds hc hs,
        new_step hkeep hrestart hholds hc hs hn⟩

/-! ## Watched systems -/

/-- A logic does not mind being watched. -/
def observe (L : Logic Y) (O : Observer Y) : Logic (Y.observe O) where
  Inv := fun σ => L.Inv σ.1
  Step := fun σ σ' => L.Step σ.1 σ'.1
  Rely := fun i l σ σ' => L.Rely i l σ.1 σ'.1
  Ok := fun i l io a σ => L.Ok i l io a σ.1
  Up := fun l σ => L.Up l σ.1
  Req := fun j c σ => L.Req j c σ.1
  Rep := fun c r σ => L.Rep c r σ.1
  step_refl := fun σ => L.step_refl σ.1
  rely_step := fun h => L.rely_step h
  rely_refl := fun i l σ => L.rely_refl i l σ.1
  rely_trans := fun h₁ h₂ => L.rely_trans h₁ h₂
  req_stable := fun hr hc => L.req_stable hr hc
  rep_stable := fun hs hr => L.rep_stable hs hr
  sent_ok := fun h =>
    have hsent := L.sent_ok h
    ⟨hsent.1, hsent.2.1, hsent.2.2⟩
  lost_ok := fun h =>
    have hlost := L.lost_ok h
    ⟨hlost.1, hlost.2.1, hlost.2.2⟩
  restart_ok := fun h hup =>
    have hrestart := L.restart_ok h hup
    ⟨hrestart.1, hrestart.2.1, hrestart.2.2⟩

/-- What is safe stays safe. -/
theorem Safe.observe (O : Observer Y) {i : Nat} {l : Y.Loc} {p : Prog S α}
    {Q : α → Y.St → Prop} {σ : (Y.observe O).St} (h : L.Safe i l p Q σ.1) :
    (L.observe O).Safe i l p (fun a σ => Q a σ.1) σ := by
  induction p generalizing σ with
  | ret a => exact fun σ₁ hr hi => h σ₁.1 hr hi
  | act a k ih =>
      intro σ₁ io r σ₂ hr hi hok he
      obtain ⟨w, hw, rfl⟩ := System.exec_observe he
      obtain ⟨hc, hk⟩ := h σ₁.1 io r w hr hi hok hw
      exact ⟨⟨hc.inv, hc.step, hc.rely⟩, ih r hk⟩
  | call c k ih =>
      exact ⟨fun σ₁ j hr hi hij => h.1 σ₁.1 j hr hi hij,
        fun o σ₁ hr hi ho => ih o (h.2 o σ₁.1 hr hi ho)⟩

/-- **Soundness for the watched system.** -/
theorem sound_observe [DecidableEq Y.Loc] {L : Logic Y} (O : Observer Y) {σ : (Y.observe O).St}
    (h0 : L.Inv σ.1)
    (hroot : ∀ r i σ, L.Inv σ → L.Safe i (Y.place r) (Y.main r) (fun _ _ => True) σ)
    (hh : ∀ j req σ, L.Inv σ → L.Req j req σ →
      L.Safe j (Y.target req) (Y.handler req) (fun r σ => L.Rep req r σ) σ)
    {c : Config (Y.observe O)} (h : Reach σ (Within (L.observe O).Ok (L.observe O).Up) c) : L.Inv c.st.1 :=
  (sound_within (L := L.observe O) h0 (fun r i σ hi => (hroot r i σ.1 hi).observe O)
    (fun j req σ hi hr => (hh j req σ.1 hi hr).observe O) h).inv

end Logic

/-! ## Programs over a smaller signature -/

/-- One signature inside another. -/
structure Hom (S T : Sig) where
  act : S.Act → T.Act
  res : ∀ a, T.Res (act a) → S.Res a
  call : S.Call → T.Call
  reply : T.Reply → S.Reply

/-- What the smaller one sees. -/
def Outcome.map {ρ ρ' : Type} (f : ρ → ρ') : Outcome ρ → Outcome ρ'
  | .refused => .refused
  | .sendFailed => .sendFailed
  | .noReply => .noReply
  | .reply r => .reply (f r)

namespace Prog

variable {S T : Sig} {α β : Type}

/-- A program of the smaller signature in the larger one. -/
def lift (f : Hom S T) : Prog S α → Prog T α
  | .ret a => .ret a
  | .act a k => .act (f.act a) (fun r => lift f (k (f.res a r)))
  | .call c k => .call (f.call c) (fun o => lift f (k (o.map f.reply)))

/-- Whatever happens, the program makes only these actions and requests. -/
def Only (A : S.Act → Prop) (C : S.Call → Prop) : Prog S α → Prop
  | .ret _ => True
  | .act a k => A a ∧ ∀ r, Only A C (k r)
  | .call c k => C c ∧ ∀ o, Only A C (k o)

variable {A : S.Act → Prop} {C : S.Call → Prop}

theorem Only.bind {p : Prog S α} {f : α → Prog S β} (hp : p.Only A C) (hf : ∀ a, (f a).Only A C) :
    (p >>= f).Only A C := by
  induction p with
  | ret a => exact hf a
  | act a k ih => exact ⟨hp.1, fun r => ih r (hp.2 r)⟩
  | call c k ih => exact ⟨hp.1, fun o => ih o (hp.2 o)⟩

theorem Only.mono {A' : S.Act → Prop} {C' : S.Call → Prop} (hA : ∀ a, A a → A' a)
    (hC : ∀ c, C c → C' c) {p : Prog S α} (hp : p.Only A C) : p.Only A' C' := by
  induction p with
  | ret a => trivial
  | act a k ih => exact ⟨hA a hp.1, fun r => ih r (hp.2 r)⟩
  | call c k ih => exact ⟨hC c hp.1, fun o => ih o (hp.2 o)⟩

/-- Lifting keeps the order of things. -/
theorem lift_bind (f : Hom S T) (p : Prog S α) (g : α → Prog S β) :
    (p >>= g).lift f = p.lift f >>= fun a => (g a).lift f := by
  induction p with
  | ret a => rfl
  | act a k ih => exact congrArg (Prog.act (f.act a)) (funext fun r => ih (f.res a r))
  | call c k ih => exact congrArg (Prog.call (f.call c)) (funext fun o => ih (o.map f.reply))

/-- What a program keeps to, lifted. -/
theorem Only.lift {f : Hom S T} {A' : T.Act → Prop} {C' : T.Call → Prop} (hA : ∀ a, A a → A' (f.act a))
    (hC : ∀ c, C c → C' (f.call c)) {p : Prog S α} (hp : p.Only A C) : (p.lift f).Only A' C' := by
  induction p with
  | ret a => trivial
  | act a k ih => exact ⟨hA a hp.1, fun r => ih _ (hp.2 _)⟩
  | call c k ih => exact ⟨hC c hp.1, fun o => ih _ (hp.2 _)⟩

/-- A lifted program keeps to the smaller signature. -/
theorem only_lift {A : T.Act → Prop} {C : T.Call → Prop} (f : Hom S T) (ha : ∀ a, A (f.act a))
    (hc : ∀ c, C (f.call c)) (p : Prog S α) : (p.lift f).Only A C := by
  induction p with
  | ret a => trivial
  | act a k ih => exact ⟨ha a, fun r => ih _⟩
  | call c k ih => exact ⟨hc c, fun o => ih _⟩

end Prog

/-- What neither the others nor the actions of the program change stays. -/
theorem Logic.Safe.keep {S : Sig} {Y : System S} {L : Logic Y} {α : Type} {A : S.Act → Prop}
    {C : S.Call → Prop} {i : Nat} {l : Y.Loc} {p : Prog S α} {Q : α → Y.St → Prop} {R : Y.St → Prop}
    (hp : p.Only A C) (hR : ∀ {σ σ'}, L.Rely i l σ σ' → R σ → R σ')
    (hA : ∀ {a io σ r σ'}, A a → Y.exec i l io a σ = some (r, σ') → R σ → R σ') {σ : Y.St}
    (h : L.Safe i l p Q σ) (hr : R σ) : L.Safe i l p (fun a σ => R σ ∧ Q a σ) σ := by
  induction p generalizing σ with
  | ret a => exact fun σ₁ h₁ h₂ => ⟨hR h₁ hr, h σ₁ h₁ h₂⟩
  | act a k ih =>
      intro σ₁ io r σ₂ h₁ h₂ h₃ h₄
      obtain ⟨hc, hk⟩ := h σ₁ io r σ₂ h₁ h₂ h₃ h₄
      exact ⟨hc, ih r (hp.2 r) hk (hA hp.1 h₄ (hR h₁ hr))⟩
  | call c k ih =>
      exact ⟨h.1, fun o σ₁ h₁ h₂ h₃ => ih o (hp.2 o) (h.2 o σ₁ h₁ h₂ h₃) (hR h₁ hr)⟩

/-- **A program is safe when its actions and requests are, each by itself.** -/
theorem Logic.safe_of_only {S : Sig} {Y : System S} {L : Logic Y} {α : Type} {A : S.Act → Prop}
    {C : S.Call → Prop} {i : Nat} {l : Y.Loc}
    (hact : ∀ a io σ r σ', A a → L.Inv σ → L.Ok i l io a σ → Y.exec i l io a σ = some (r, σ') →
      L.Change i σ σ')
    (hcall : ∀ c j σ, C c → L.Inv σ → L.Req j c (Y.sent j c σ))
    {p : Prog S α} (hp : p.Only A C) (σ : Y.St) : L.Safe i l p (fun _ _ => True) σ := by
  induction p generalizing σ with
  | ret a => exact fun _ _ _ => trivial
  | act a k ih =>
      intro σ₁ io r σ₂ _ h₂ h₃ h₄
      exact ⟨hact a io σ₁ r σ₂ hp.1 h₂ h₃ h₄, ih r (hp.2 r) σ₂⟩
  | call c k ih =>
      exact ⟨fun σ₁ j _ h₂ _ => hcall c j σ₁ hp.1 h₂, fun o σ₁ _ _ _ => ih o (hp.2 o) σ₁⟩

end Process
