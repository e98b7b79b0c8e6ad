import NCloud.Lib.Process

/-!
# One program and what it is told

A program with nothing running beside it, whose requests are answered from outside in
any way whatever. What came of its requests, one after the other, is a `Trace`, and a
trace settles the run: `replay` follows it to the end.

`Leads` is the weakest precondition that goes with this. Its postcondition sees the
trace as well as the state, since what a sender has heard is all it knows of others.
-/

namespace Process

/-- A request and what came of it. -/
structure Exchange (S : Sig) where
  call : S.Call
  heard : Outcome S.Reply
  /-- It was carried out although the sender has heard nothing. -/
  silent : Bool

/-- What came of the requests of a run. -/
abbrev Trace (S : Sig) := List (Exchange S)

variable {S : Sig} {σ α β : Type} (exec : (a : S.Act) → σ → S.Res a × σ)

/-- The run that belongs to a trace; `none` if the program asks for something else. -/
def replay [DecidableEq S.Call] : Prog S α → Trace S → σ → Option (α × σ)
  | .ret a, [], s => some (a, s)
  | .ret _, _ :: _, _ => none
  | .act a k, tr, s => replay (k (exec a s).1) tr (exec a s).2
  | .call _ _, [], _ => none
  | .call c k, e :: tr, s => if e.call = c then replay (k e.heard) tr s else none

/-- Every run from here ends in `Q`; `tr` is what came of the requests before. -/
def Leads : Prog S α → (α → Trace S → σ → Prop) → Trace S → σ → Prop
  | .ret a, Q, tr, s => Q a tr s
  | .act a k, Q, tr, s => Leads (k (exec a s).1) Q tr (exec a s).2
  | .call c k, Q, tr, s => ∀ o silent, Leads (k o) Q (tr ++ [⟨c, o, silent⟩]) s

variable {exec} {p : Prog S α} {f : α → Prog S β} {Q Q' : α → Trace S → σ → Prop}
  {R : β → Trace S → σ → Prop} {tr : Trace S} {s : σ}

theorem Leads.mono (h : Leads exec p Q tr s) (hQ : ∀ a tr s, Q a tr s → Q' a tr s) :
    Leads exec p Q' tr s := by
  induction p generalizing tr s with
  | ret a => exact hQ a tr s h
  | act a k ih => exact ih _ h
  | call c k ih => exact fun o silent => ih o (h o silent)

theorem Leads.bind (h : Leads exec p (fun a tr s => Leads exec (f a) R tr s) tr s) :
    Leads exec (p >>= f) R tr s := by
  induction p generalizing tr s with
  | ret a => exact h
  | act a k ih => exact ih _ h
  | call c k ih => exact fun o silent => ih o (h o silent)

theorem leads_perform {a : S.Act} {f : S.Res a → Prog S β} :
    Leads exec (perform a >>= f) R tr s ↔ Leads exec (f (exec a s).1) R tr (exec a s).2 :=
  Iff.rfl

/-- **Soundness.** -/
theorem Leads.sound [DecidableEq S.Call] (h : Leads exec p Q tr s) {tr' : Trace S} {a : α} {s' : σ}
    (hrun : replay exec p tr' s = some (a, s')) : Q a (tr ++ tr') s' := by
  induction p generalizing tr tr' s with
  | ret b =>
      cases tr' with
      | nil =>
          obtain ⟨rfl, rfl⟩ := Prod.mk.inj (Option.some.inj hrun)
          rw [List.append_nil]
          exact h
      | cons e tr' => exact absurd hrun (by simp [replay])
  | act b k ih => exact ih _ h (by rw [replay] at hrun; exact hrun)
  | call c k ih =>
      cases tr' with
      | nil => exact absurd hrun (by simp [replay])
      | cons e tr' =>
          rw [replay] at hrun
          split at hrun
          · rename_i hcall
            subst hcall
            have hrest := ih e.heard (h e.heard e.silent) hrun
            rwa [List.append_assoc] at hrest
          · exact absurd hrun (by simp)

/-- What has come of a request stays so. -/
theorem Leads.of_trace {T : Trace S → Prop} (hT : ∀ tr e, T tr → T (tr ++ [e])) (h : T tr) :
    Leads exec p (fun _ tr _ => T tr) tr s := by
  induction p generalizing tr s with
  | ret a => exact h
  | act a k ih => exact ih _ h
  | call c k ih => exact fun o silent => ih o (hT tr _ h)

/-- What every step of a program keeps, the program keeps. -/
theorem Leads.of_only {P : S.Act → Prop} {C : S.Call → Prop} {T : Trace S → σ → Prop}
    (hact : ∀ a tr s, P a → T tr s → T tr (exec a s).2)
    (hcall : ∀ c o silent tr s, C c → T tr s → T (tr ++ [⟨c, o, silent⟩]) s)
    (hp : p.Only P C) (h : T tr s) : Leads exec p (fun _ tr s => T tr s) tr s := by
  induction p generalizing tr s with
  | ret a => exact h
  | act a k ih => exact ih _ (hp.2 _) (hact a tr s hp.1 h)
  | call c k ih => exact fun o silent => ih o (hp.2 o) (hcall c o silent tr s hp.1 h)

/-! ## Parts of a run -/

section Parts

variable [DecidableEq S.Call] {s' : σ}

theorem replay_pure {a b : α} (h : replay exec (pure a) tr s = some (b, s')) : tr = [] ∧ b = a ∧ s' = s := by
  cases tr with
  | nil =>
      obtain ⟨rfl, rfl⟩ := Prod.mk.inj (Option.some.inj h)
      exact ⟨rfl, rfl, rfl⟩
  | cons e tr => exact absurd h (by simp [pure, replay])

theorem replay_request {c : S.Call} {o : Outcome S.Reply}
    (h : replay exec (request (S := S) c) tr s = some (o, s')) : ∃ silent, tr = [⟨c, o, silent⟩] ∧ s' = s := by
  cases tr with
  | nil => exact absurd h (by simp [request, replay])
  | cons e tr =>
      rw [request, replay] at h
      split at h
      · rename_i hcall
        obtain ⟨rfl, rfl, rfl⟩ := replay_pure h
        exact ⟨e.silent, by rw [← hcall], rfl⟩
      · exact absurd h (by simp)

theorem replay_perform {a : S.Act} {f : S.Res a → Prog S β} :
    replay exec (perform a >>= f) tr s = replay exec (f (exec a s).1) tr (exec a s).2 :=
  rfl

/-- A run of two programs in sequence is a run of each. -/
theorem replay_bind {p : Prog S α} {f : α → Prog S β} {b : β}
    (h : replay exec (p >>= f) tr s = some (b, s')) :
    ∃ tr₁ tr₂ a s₁, tr = tr₁ ++ tr₂ ∧ replay exec p tr₁ s = some (a, s₁) ∧
      replay exec (f a) tr₂ s₁ = some (b, s') := by
  induction p generalizing tr s with
  | ret a => exact ⟨[], tr, a, s, rfl, rfl, h⟩
  | act a k ih =>
      obtain ⟨tr₁, tr₂, x, s₁, htr, h₁, h₂⟩ := ih _ h
      exact ⟨tr₁, tr₂, x, s₁, htr, by rw [replay]; exact h₁, h₂⟩
  | call c k ih =>
      cases tr with
      | nil => exact absurd h (by simp [Bind.bind, Prog.bind, replay])
      | cons e tr =>
          change (if e.call = c then replay exec (k e.heard >>= f) tr s else none) = _ at h
          split at h
          · rename_i hcall
            obtain ⟨tr₁, tr₂, x, s₁, rfl, h₁, h₂⟩ := ih e.heard h
            exact ⟨e :: tr₁, tr₂, x, s₁, rfl, by rw [replay, if_pos hcall]; exact h₁, h₂⟩
          · exact absurd h (by simp)

/-- A program looks at as much of a trace as it needs, and no further. -/
theorem replay_unique {p : Prog S α} {tr₁ tr₂ rest₁ rest₂ : Trace S} {a₁ a₂ : α} {s₁ s₂ : σ}
    (h₁ : replay exec p tr₁ s = some (a₁, s₁)) (h₂ : replay exec p tr₂ s = some (a₂, s₂))
    (htr : tr₁ ++ rest₁ = tr₂ ++ rest₂) : tr₁ = tr₂ ∧ a₁ = a₂ ∧ s₁ = s₂ := by
  induction p generalizing tr₁ tr₂ s with
  | ret x =>
      obtain ⟨rfl, hx₁, hs₁⟩ := replay_pure (show replay exec (pure x) tr₁ s = _ from h₁)
      obtain ⟨rfl, hx₂, hs₂⟩ := replay_pure (show replay exec (pure x) tr₂ s = _ from h₂)
      exact ⟨rfl, hx₁.trans hx₂.symm, hs₁.trans hs₂.symm⟩
  | act x k ih =>
      rw [replay] at h₁ h₂
      exact ih _ h₁ h₂ htr
  | call c k ih =>
      cases tr₁ with
      | nil => exact absurd h₁ (by simp [replay])
      | cons e tr₁ =>
          cases tr₂ with
          | nil => exact absurd h₂ (by simp [replay])
          | cons e' tr₂ =>
              obtain ⟨rfl, hrest⟩ := List.cons.inj htr
              rw [replay] at h₁ h₂
              split at h₁
              · rename_i hcall
                rw [if_pos hcall] at h₂
                obtain ⟨rfl, heq⟩ := ih e.heard h₁ h₂ hrest
                exact ⟨rfl, heq⟩
              · exact absurd h₁ (by simp)

/-- And two runs make one. -/
theorem replay_bind_of {p : Prog S α} {f : α → Prog S β} {tr₁ tr₂ : Trace S} {a : α} {b : β} {s₁ : σ}
    (h₁ : replay exec p tr₁ s = some (a, s₁)) (h₂ : replay exec (f a) tr₂ s₁ = some (b, s')) :
    replay exec (p >>= f) (tr₁ ++ tr₂) s = some (b, s') := by
  induction p generalizing tr₁ s with
  | ret x =>
      obtain ⟨rfl, rfl, rfl⟩ := replay_pure (show replay exec (pure x) tr₁ s = _ from h₁)
      exact h₂
  | act x k ih =>
      show replay exec (k (exec x s).1 >>= f) (tr₁ ++ tr₂) (exec x s).2 = _
      exact ih _ (by rw [replay] at h₁; exact h₁)
  | call c k ih =>
      cases tr₁ with
      | nil => exact absurd h₁ (by simp [replay])
      | cons e tr₁ =>
          show (if e.call = c then replay exec (k e.heard >>= f) (tr₁ ++ tr₂) s else none) = _
          rw [replay] at h₁
          split at h₁
          · rename_i hcall
            rw [if_pos hcall]
            exact ih e.heard h₁
          · exact absurd h₁ (by simp)

end Parts

end Process
