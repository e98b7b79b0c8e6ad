import NCloud.Lib.Process

/-!
# One program at a time

The programs of `Process` with nothing running beside them. A request is handled on
the spot, by a run of its handler to the end, or it fails; which of the two can happen
is up to a `Net`. A run may stop half way, which is what a crash of its place looks
like.

`runs` is the relation between the state before and after. `Wp` is the weakest
precondition that goes with it: an invariant at every stop and a postcondition at the
end. `eval` runs a program when every choice is settled beforehand.
-/

namespace Process

/-- What can come of a request. -/
structure Net (S : Sig) where
  /-- The sender may be left without an answer. -/
  fails : S.Call → Prop
  /-- The request may be handled. -/
  arrives : S.Call → Prop

variable {S : Sig} (Y : System S) (i : Nat) {α β : Type}

/-- The sender has no answer. -/
def Outcome.IsFailure {ρ : Type} (o : Outcome ρ) : Prop := ∀ r, o ≠ .reply r

section Runs

/-- Runs of a program, given what comes of its requests. The result is `none` when the
run has stopped before the end. -/
def runsWith (send : S.Call → Y.St → Outcome S.Reply → Y.St → Prop) (l : Y.Loc) :
    Prog S α → Y.St → Option α → Y.St → Prop
  | .ret a, σ, r, σ' => r = some a ∧ σ' = σ
  | .act a k, σ, r, σ' =>
      (r = none ∧ σ' = σ) ∨
        ∃ io x σ₁, Y.exec i l io a σ = some (x, σ₁) ∧ runsWith send l (k x) σ₁ r σ'
  | .call c k, σ, r, σ' =>
      (r = none ∧ σ' = σ) ∨ ∃ o σ₁, send c σ o σ₁ ∧ runsWith send l (k o) σ₁ r σ'

/-- What comes of a request whose handler makes requests `depth` deep at most. -/
def sends (net : Net S) : (depth : Nat) → S.Call → Y.St → Outcome S.Reply → Y.St → Prop
  | 0, c, σ, o, σ' => net.fails c ∧ o.IsFailure ∧ σ' = σ
  | depth + 1, c, σ, o, σ' =>
      (net.fails c ∧ o.IsFailure ∧ σ' = σ) ∨
        (net.arrives c ∧ ∃ r,
          runsWith Y i (sends net depth) (Y.target c) (Y.handler c) σ (some r) σ'
            ∧ (o = .reply r ∨ net.fails c ∧ o.IsFailure))

/-- Runs of a program on a net. -/
def runs (net : Net S) (depth : Nat) (l : Y.Loc) (p : Prog S α) : Y.St → Option α → Y.St → Prop :=
  runsWith Y i (sends Y i net depth) l p

end Runs

/-- Runs compose. -/
theorem runsWith_bind {send : S.Call → Y.St → Outcome S.Reply → Y.St → Prop} {l : Y.Loc}
    {p : Prog S α} {f : α → Prog S β} {a : α} {σ σ₁ σ' : Y.St} {r : Option β}
    (hp : runsWith Y i send l p σ (some a) σ₁) (hf : runsWith Y i send l (f a) σ₁ r σ') :
    runsWith Y i send l (p >>= f) σ r σ' := by
  induction p generalizing σ with
  | ret b =>
      obtain ⟨h, rfl⟩ := hp
      obtain rfl := Option.some.inj h
      exact hf
  | act b k ih =>
      rcases hp with ⟨h, -⟩ | ⟨io, x, σ₂, he, hk⟩
      · exact absurd h (by simp)
      · exact .inr ⟨io, x, σ₂, he, ih x hk⟩
  | call c k ih =>
      rcases hp with ⟨h, -⟩ | ⟨o, σ₂, hs, hk⟩
      · exact absurd h (by simp)
      · exact .inr ⟨o, σ₂, hs, ih o hk⟩

/-! ## Weakest preconditions -/

section Wp

variable (net : Net S) (I : Y.St → Prop) (depth : Nat) (l : Y.Loc)

/-- Every run from here is in `I` wherever it stops and in `Q` if it gets to the end. -/
def Wp : Prog S α → (α → Y.St → Prop) → Y.St → Prop
  | .ret a, Q, σ => Q a σ
  | .act a k, Q, σ => I σ ∧ ∀ io x σ₁, Y.exec i l io a σ = some (x, σ₁) → Wp (k x) Q σ₁
  | .call c k, Q, σ => I σ ∧ ∀ o σ₁, sends Y i net depth c σ o σ₁ → Wp (k o) Q σ₁

variable {Y i net I depth l} {Q Q' : α → Y.St → Prop} {σ σ' : Y.St}

theorem Wp.mono {p : Prog S α} (h : Wp Y i net I depth l p Q σ) (hQ : ∀ a σ, Q a σ → Q' a σ) :
    Wp Y i net I depth l p Q' σ := by
  induction p generalizing σ with
  | ret a => exact hQ a σ h
  | act a k ih => exact ⟨h.1, fun io x σ₁ he => ih x (h.2 io x σ₁ he)⟩
  | call c k ih => exact ⟨h.1, fun o σ₁ hs => ih o (h.2 o σ₁ hs)⟩

theorem Wp.bind {p : Prog S α} {f : α → Prog S β} {R : β → Y.St → Prop}
    (h : Wp Y i net I depth l p (fun a σ => Wp Y i net I depth l (f a) R σ) σ) :
    Wp Y i net I depth l (p >>= f) R σ := by
  induction p generalizing σ with
  | ret a => exact h
  | act a k ih => exact ⟨h.1, fun io x σ₁ he => ih x (h.2 io x σ₁ he)⟩
  | call c k ih => exact ⟨h.1, fun o σ₁ hs => ih o (h.2 o σ₁ hs)⟩

/-- **Soundness.** -/
theorem Wp.sound {p : Prog S α} (h : Wp Y i net I depth l p Q σ) {r : Option α}
    (hr : runs Y i net depth l p σ r σ') : (∀ a, r = some a → Q a σ') ∧ (r = none → I σ') := by
  induction p generalizing σ with
  | ret a =>
      obtain ⟨rfl, rfl⟩ := hr
      refine ⟨?_, fun h => absurd h (by simp)⟩
      rintro a' ⟨⟩
      exact h
  | act a k ih =>
      rcases hr with ⟨rfl, rfl⟩ | ⟨io, x, σ₁, he, hk⟩
      · exact ⟨fun a h => absurd h (by simp), fun _ => h.1⟩
      · exact ih x (h.2 io x σ₁ he) hk
  | call c k ih =>
      rcases hr with ⟨rfl, rfl⟩ | ⟨o, σ₁, hs, hk⟩
      · exact ⟨fun a h => absurd h (by simp), fun _ => h.1⟩
      · exact ih o (h.2 o σ₁ hs) hk

/-- One action. -/
theorem Wp.perform {a : S.Act} {f : S.Res a → Prog S α} (hI : I σ)
    (h : ∀ io x σ₁, Y.exec i l io a σ = some (x, σ₁) → Wp Y i net I depth l (f x) Q σ₁) :
    Wp Y i net I depth l (Process.perform a >>= f) Q σ :=
  ⟨hI, h⟩

/-- One request: it fails, or its handler runs and the answer may still be lost. -/
theorem Wp.request {c : S.Call} {f : Outcome S.Reply → Prog S α} (hI : I σ)
    (hfail : net.fails c → ∀ o, o.IsFailure → Wp Y i net I (depth + 1) l (f o) Q σ)
    (hrun : net.arrives c → Wp Y i net (fun _ => True) depth (Y.target c) (Y.handler c)
      (fun r σ' => Wp Y i net I (depth + 1) l (f (.reply r)) Q σ' ∧
        (net.fails c → ∀ o, o.IsFailure → Wp Y i net I (depth + 1) l (f o) Q σ')) σ) :
    Wp Y i net I (depth + 1) l (Process.request c >>= f) Q σ := by
  refine ⟨hI, ?_⟩
  rintro o σ₁ (⟨hf, ho, rfl⟩ | ⟨ha, r, hr, ho⟩)
  · exact hfail hf o ho
  · obtain ⟨hreply, hlost⟩ := ((hrun ha).sound hr).1 r rfl
    rcases ho with rfl | ⟨hf, ho⟩
    · exact hreply
    · exact hlost hf o ho

/-- One request of a program that keeps `J`, whatever becomes of it and however deep
its handler goes. -/
theorem Wp.ask {J : Y.St → Prop} {R : S.Reply → Prop} {c : S.Call} {f : Outcome S.Reply → Prog S α}
    (hI : I σ) (hJ : J σ)
    (hrun : ∀ d, Wp Y i net (fun _ => True) d (Y.target c) (Y.handler c) (fun r σ' => J σ' ∧ R r) σ)
    (hf : ∀ o σ', J σ' → (∀ r, o = .reply r → R r) → Wp Y i net I depth l (f o) Q σ') :
    Wp Y i net I depth l (Process.request c >>= f) Q σ := by
  have hlost : ∀ o : Outcome S.Reply, o.IsFailure → ∀ r, o = .reply r → R r :=
    fun o ho r hr => absurd hr (ho r)
  refine ⟨hI, fun o σ₁ hs => ?_⟩
  cases depth with
  | zero =>
      obtain ⟨-, ho, rfl⟩ := hs
      exact hf o σ₁ hJ (hlost o ho)
  | succ d =>
      rcases hs with ⟨-, ho, rfl⟩ | ⟨-, r, hr, ho⟩
      · exact hf o σ₁ hJ (hlost o ho)
      · obtain ⟨hJ₁, hR⟩ := ((hrun d).sound hr).1 r rfl
        refine hf o σ₁ hJ₁ ?_
        rcases ho with rfl | ⟨-, ho⟩
        · rintro r' ⟨⟩
          exact hR
        · exact hlost o ho

/-- The same with a postcondition that depends on what the handler has done. -/
theorem Wp.exchange {c : S.Call} {f : Outcome S.Reply → Prog S α} (hI : I σ)
    (hfail : net.fails c → ∀ o, o.IsFailure → Wp Y i net I depth l (f o) Q σ)
    (hrun : ∀ d, Wp Y i net (fun _ => True) d (Y.target c) (Y.handler c)
      (fun r σ' => Wp Y i net I depth l (f (.reply r)) Q σ' ∧
        (net.fails c → ∀ o, o.IsFailure → Wp Y i net I depth l (f o) Q σ')) σ) :
    Wp Y i net I depth l (Process.request c >>= f) Q σ := by
  refine ⟨hI, fun o σ₁ hs => ?_⟩
  cases depth with
  | zero =>
      obtain ⟨hf, ho, rfl⟩ := hs
      exact hfail hf o ho
  | succ d =>
      rcases hs with ⟨hf, ho, rfl⟩ | ⟨-, r, hr, ho⟩
      · exact hfail hf o ho
      · obtain ⟨hreply, hlost⟩ := ((hrun d).sound hr).1 r rfl
        rcases ho with rfl | ⟨hf, ho⟩
        · exact hreply
        · exact hlost hf o ho

end Wp

/-! ## Evaluation -/

section Eval

/-- Run a program with room for `io` writes in every action. -/
def evalWith (io : Nat) (send : S.Call → Y.St → Option (Outcome S.Reply × Y.St)) (l : Y.Loc) :
    Prog S α → Y.St → Option (α × Y.St)
  | .ret a, σ => some (a, σ)
  | .act a k, σ => (Y.exec i l io a σ).bind (fun q => evalWith io send l (k q.1) q.2)
  | .call c k, σ => (send c σ).bind (fun q => evalWith io send l (k q.1) q.2)

/-- A request is refused where `down` says so, and otherwise handled and answered. -/
def evalSend (io : Nat) (down : S.Call → Bool) : (depth : Nat) → S.Call → Y.St →
    Option (Outcome S.Reply × Y.St)
  | 0, c, σ => if down c then some (.refused, σ) else none
  | depth + 1, c, σ =>
      if down c then some (.refused, σ)
      else (evalWith Y i io (evalSend io down depth) (Y.target c) (Y.handler c) σ).map
        (fun q => (.reply q.1, q.2))

/-- Run a program where requests are refused or answered. -/
def eval (io : Nat) (down : S.Call → Bool) (depth : Nat) (l : Y.Loc) (p : Prog S α) (σ : Y.St) :
    Option (α × Y.St) :=
  evalWith Y i io (evalSend Y i io down depth) l p σ

variable {Y i} {io : Nat} {l : Y.Loc} {σ σ' : Y.St}

theorem runsWith_of_evalWith {send : S.Call → Y.St → Option (Outcome S.Reply × Y.St)}
    {sends : S.Call → Y.St → Outcome S.Reply → Y.St → Prop}
    (hs : ∀ c σ o σ', send c σ = some (o, σ') → sends c σ o σ') {p : Prog S α} {a : α}
    (h : evalWith Y i io send l p σ = some (a, σ')) : runsWith Y i sends l p σ (some a) σ' := by
  induction p generalizing σ with
  | ret b =>
      obtain ⟨rfl, rfl⟩ := Prod.mk.inj (Option.some.inj h)
      exact ⟨rfl, rfl⟩
  | act b k ih =>
      obtain ⟨⟨x, σ₁⟩, he, hk⟩ := Option.bind_eq_some_iff.mp h
      exact .inr ⟨io, x, σ₁, he, ih x hk⟩
  | call c k ih =>
      obtain ⟨⟨o, σ₁⟩, he, hk⟩ := Option.bind_eq_some_iff.mp h
      exact .inr ⟨o, σ₁, hs c σ o σ₁ he, ih o hk⟩

variable {net : Net S} {down : S.Call → Bool} (hdown : ∀ c, down c = true → net.fails c)
  (hup : ∀ c, down c = false → net.arrives c)
include hdown hup

theorem sends_of_evalSend (depth : Nat) (c : S.Call) (σ : Y.St) (o : Outcome S.Reply) (σ' : Y.St)
    (h : evalSend Y i io down depth c σ = some (o, σ')) : sends Y i net depth c σ o σ' := by
  induction depth generalizing c σ o σ' with
  | zero =>
      rw [evalSend] at h
      split at h
      · rename_i hd
        obtain ⟨rfl, rfl⟩ := Prod.mk.inj (Option.some.inj h)
        exact ⟨hdown c hd, nofun, rfl⟩
      · exact absurd h (by simp)
  | succ depth ih =>
      rw [evalSend] at h
      split at h
      · rename_i hd
        obtain ⟨rfl, rfl⟩ := Prod.mk.inj (Option.some.inj h)
        exact .inl ⟨hdown c hd, nofun, rfl⟩
      · rename_i hd
        obtain ⟨⟨r, σ₁⟩, he, heq⟩ := Option.map_eq_some_iff.mp h
        obtain ⟨rfl, rfl⟩ := Prod.mk.inj heq
        exact .inr ⟨hup c (by simpa using hd), r, runsWith_of_evalWith ih he, .inl rfl⟩

/-- **An evaluation is a run.** -/
theorem runs_of_eval {depth : Nat} {p : Prog S α} {a : α}
    (h : eval Y i io down depth l p σ = some (a, σ')) : runs Y i net depth l p σ (some a) σ' :=
  runsWith_of_evalWith (sends_of_evalSend hdown hup depth) h

end Eval

end Process
