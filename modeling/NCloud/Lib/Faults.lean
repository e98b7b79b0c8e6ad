import NCloud.Lib.KeyValue

/-!
# Runs in which operations fail

A client by itself, or beside others that change the store between its operations, when
reads may be unavailable and writes may fail or be reported as failed. `play` is one run,
given how every operation goes; `Leads` speaks of all runs, and of the operations that
were done in them, so that a condition on how they went can be stated.
-/

namespace KeyValue

open Process

variable {K V A : Type} {α β : Type}

/-- How an operation goes, and what others do to the store before it. -/
structure Turn (K V : Type) where
  io : Nat
  others : Store K V → Store K V

/-- Nobody else does anything. -/
def Turn.alone (io : Nat) : Turn K V := ⟨io, id⟩

/-- An operation that was done: how it went, and on which store. -/
structure Event (K V A : Type) where
  act : Act K V A
  io : Nat
  store : Store K V

/-- What a run comes to. -/
structure Played (K V A α : Type) where
  value : α
  store : Store K V
  events : List (Event K V A)

variable [DecidableEq K] [DecidableEq V]

/-- Run a program. Operations for which no turn is given succeed. -/
def play : Prog (sig K V A) α → List (Turn K V) → Store K V → Played K V A α
  | .ret a, _, s => ⟨a, s, []⟩
  | .act a k, turns, s =>
      let turn := turns.headD (.alone 2)
      let s₁ := turn.others s
      let o := play (k (exec turn.io s₁ a).1) turns.tail (exec turn.io s₁ a).2
      ⟨o.value, o.store, ⟨a, turn.io, s₁⟩ :: o.events⟩
  | .call c _, _, _ => c.elim

/-- However the operations go, and whatever others do within `R` before each, the program
ends in `Q`, which speaks of what it returns, the store and the operations. -/
def Leads (R : Store K V → Store K V → Prop) :
    Prog (sig K V A) α → (α → Store K V → List (Event K V A) → Prop) → Store K V → Prop
  | .ret a, Q, s => Q a s []
  | .act a k, Q, s => ∀ io s₁, R s s₁ →
      Leads R (k (exec io s₁ a).1) (fun b s₂ evs => Q b s₂ (⟨a, io, s₁⟩ :: evs)) (exec io s₁ a).2
  | .call c _, _, _ => c.elim

/-- Nobody else does anything. -/
def Alone (s s₁ : Store K V) : Prop := s = s₁

section Rules

variable {R : Store K V → Store K V → Prop} {p : Prog (sig K V A) α} {f : α → Prog (sig K V A) β}
  {s : Store K V}

theorem Leads.mono {Q Q' : α → Store K V → List (Event K V A) → Prop} (h : Leads R p Q s)
    (hQ : ∀ a s evs, Q a s evs → Q' a s evs) : Leads R p Q' s := by
  induction p generalizing Q Q' s with
  | ret a => exact hQ a s [] h
  | act a k ih =>
      intro io s₁ hr
      exact ih _ (h io s₁ hr) (fun b s₂ evs => hQ b s₂ _)
  | call c k => exact c.elim

/-- One program after another. -/
theorem Leads.bind {Q : β → Store K V → List (Event K V A) → Prop}
    (h : Leads R p (fun a s₁ evs => Leads R (f a) (fun b s₂ evs' => Q b s₂ (evs ++ evs')) s₁) s) :
    Leads R (p >>= f) Q s := by
  induction p generalizing Q s with
  | ret a => exact h
  | act a k ih =>
      intro io s₁ hr
      exact ih _ (h io s₁ hr)
  | call c k => exact c.elim

/-- One operation, and then the rest. -/
theorem leads_act {a : Act K V A} {f : a.Res → Prog (sig K V A) β}
    {Q : β → Store K V → List (Event K V A) → Prop}
    (h : ∀ io s₁, R s s₁ →
      Leads R (f (exec io s₁ a).1) (fun b s₂ evs => Q b s₂ (⟨a, io, s₁⟩ :: evs)) (exec io s₁ a).2) :
    Leads R (act a >>= f) Q s :=
  h

theorem leads_getStatus {k : K} {f : Read V → Prog (sig K V A) β}
    {Q : β → Store K V → List (Event K V A) → Prop}
    (h : ∀ io s₁, R s s₁ → Leads R (f (if io = 0 then .unavailable else Read.ofCell (s₁ k)))
      (fun b s₂ evs => Q b s₂ (⟨.get k, io, s₁⟩ :: evs)) s₁) :
    Leads R (getStatus k >>= f) Q s :=
  h

theorem leads_getStr [Inhabited V] {k : K} {f : V → Prog (sig K V A) β}
    {Q : β → Store K V → List (Event K V A) → Prop}
    (h : ∀ io s₁, R s s₁ → Leads R (f (if io = 0 then default else (s₁ k).getD default))
      (fun b s₂ evs => Q b s₂ (⟨.get k, io, s₁⟩ :: evs)) s₁) :
    Leads R (getStr k >>= f) Q s := by
  rw [getStr, Prog.bind_assoc]
  refine leads_getStatus ?_
  intro io s₁ hr
  have hrest := h io s₁ hr
  by_cases hio : io = 0
  · rw [if_pos hio] at hrest ⊢
    exact hrest
  · rw [if_neg hio] at hrest ⊢
    cases hk : s₁ k with
    | none =>
        rw [hk] at hrest
        exact hrest
    | some v =>
        rw [hk] at hrest
        exact hrest

theorem Leads.and {Q Q' : α → Store K V → List (Event K V A) → Prop} (h : Leads R p Q s) (h' : Leads R p Q' s) :
    Leads R p (fun a s evs => Q a s evs ∧ Q' a s evs) s := by
  induction p generalizing Q Q' s with
  | ret a => exact ⟨h, h'⟩
  | act a k ih =>
      intro io s₁ hr
      exact ih _ (h io s₁ hr) (h' io s₁ hr)
  | call c k => exact c.elim

/-- What is done with the result changes nothing else. -/
theorem play_map (g : α → β) (p : Prog (sig K V A) α) (turns : List (Turn K V)) (s : Store K V) :
    KeyValue.play (p >>= fun a => pure (g a)) turns s = ⟨g (KeyValue.play p turns s).value,
      (KeyValue.play p turns s).store, (KeyValue.play p turns s).events⟩ := by
  induction p generalizing turns s with
  | ret a => rfl
  | act a k ih =>
      have hrest := ih (exec (turns.headD (.alone 2)).io ((turns.headD (.alone 2)).others s) a).1 turns.tail
        (exec (turns.headD (.alone 2)).io ((turns.headD (.alone 2)).others s) a).2
      exact congrArg (fun o : Played K V A β =>
        Played.mk o.value o.store (⟨a, _, (turns.headD (.alone 2)).others s⟩ :: o.events)) hrest
  | call c k => exact c.elim

/-- What every operation keeps if it goes as `C` says, a run of such operations keeps. -/
theorem leads_keep {P : Act K V A → Prop} {C : Event K V A → Prop} {T : Store K V → Prop}
    (hothers : ∀ s s', R s s' → T s → T s')
    (hact : ∀ a io s, P a → C ⟨a, io, s⟩ → T s → T (exec io s a).2) (hp : p.Only P (fun _ => True)) (h : T s) :
    Leads R p (fun _ s' evs => (∀ e ∈ evs, C e) → T s') s := by
  -- by induction on the program; once an operation has not gone so, nothing is claimed
  have hgen : ∀ {q : Prog (sig K V A) α} {s : Store K V}, q.Only P (fun _ => True) → ∀ {D : Prop}, (D → T s) →
      Leads R q (fun _ s' evs => D → (∀ e ∈ evs, C e) → T s') s := by
    intro q
    induction q with
    | ret a =>
        intro s _ D hT hd _
        exact hT hd
    | act a k ih =>
        intro s hq D hT io s₁ hr
        refine (ih _ (hq.2 _) (D := D ∧ C ⟨a, io, s₁⟩) ?_).mono ?_
        · rintro ⟨hd, hc⟩
          exact hact a io s₁ hq.1 hc (hothers s s₁ hr (hT hd))
        · intro b s₂ evs hall hd hevs
          exact hall ⟨hd, hevs _ List.mem_cons_self⟩ (fun e he => hevs e (List.mem_cons_of_mem _ he))
    | call c k => exact c.elim
  exact (hgen hp (D := True) (fun _ => h)).mono (fun _ _ _ hall => hall trivial)

/-- The operations of a run are operations of the program. -/
theorem leads_only {P : Act K V A → Prop} (hp : p.Only P (fun _ => True)) :
    Leads R p (fun _ _ evs => ∀ e ∈ evs, P e.act) s := by
  induction p generalizing s with
  | ret a => exact fun e he => absurd he List.not_mem_nil
  | act a k ih =>
      intro io s₁ _
      refine (ih _ (hp.2 _)).mono ?_
      intro b s₂ evs hevs e he
      rcases List.mem_cons.mp he with rfl | he
      · exact hp.1
      · exact hevs e he
  | call c k => exact c.elim

/-- What a program returns, whatever it is told. -/
def Returns (Q : α → Prop) : Prog (sig K V A) α → Prop
  | .ret a => Q a
  | .act _ k => ∀ r, Returns Q (k r)
  | .call c _ => c.elim

omit [DecidableEq K] [DecidableEq V] in
theorem Returns.bind {P : α → Prop} {Q : β → Prop} (hp : Returns P p) (hf : ∀ a, P a → Returns Q (f a)) :
    Returns Q (p >>= f) := by
  induction p with
  | ret a => exact hf a hp
  | act a k ih => exact fun r => ih r (hp r)
  | call c k => exact c.elim

omit [DecidableEq K] [DecidableEq V] in
theorem returns_any (p : Prog (sig K V A) α) : Returns (fun _ => True) p := by
  induction p with
  | ret a => trivial
  | act a k ih => exact ih
  | call c k => exact c.elim

theorem leads_returns {Q : α → Prop} (hp : Returns Q p) : Leads R p (fun a _ _ => Q a) s := by
  induction p generalizing s with
  | ret a => exact hp
  | act a k ih =>
      intro io s₁ _
      exact ih _ (hp _)
  | call c k => exact c.elim

/-- A client by itself that only reads. -/
theorem leads_gets {P : K → Prop} (hp : p.Only (Gets P) (fun _ => True)) :
    Leads Alone p (fun _ s' evs => s = s' ∧ ∀ e ∈ evs, Gets P e.act) s := by
  have hkeep := leads_keep (R := Alone) (C := fun _ => True) (T := fun s' => s = s') (s := s)
    (fun s₁ s₂ hr hs => hs.trans hr) (fun a io s₁ ha _ hs => ?_) hp rfl
  · exact (hkeep.mono (fun _ _ _ h => h (fun _ _ => trivial))).and (leads_only hp)
  · cases a with
    | get k => exact hs
    | _ => exact ha.elim

/-- What holds of all runs holds of each. -/
theorem Leads.play {Q : α → Store K V → List (Event K V A) → Prop} (h : Leads R p Q s)
    {turns : List (Turn K V)} (hrefl : ∀ s, R s s) (hothers : ∀ t ∈ turns, ∀ s, R s (t.others s)) :
    Q (play p turns s).value (play p turns s).store (play p turns s).events := by
  induction p generalizing Q s turns with
  | ret a => exact h
  | act a k ih =>
      cases turns with
      | nil => exact ih _ (h 2 s (hrefl s)) (fun t ht => absurd ht List.not_mem_nil)
      | cons t turns =>
          exact ih _ (h t.io (t.others s) (hothers t List.mem_cons_self s))
            (fun t' ht' => hothers t' (List.mem_cons_of_mem _ ht'))
  | call c k => exact c.elim

/-- A client by itself. -/
theorem Leads.play_alone {Q : α → Store K V → List (Event K V A) → Prop} (h : Leads Alone p Q s)
    (outcomes : List Nat) :
    Q (KeyValue.play p (outcomes.map .alone) s).value (KeyValue.play p (outcomes.map .alone) s).store
      (KeyValue.play p (outcomes.map .alone) s).events := by
  refine h.play (fun _ => rfl) (fun t ht s => ?_)
  obtain ⟨io, -, rfl⟩ := List.mem_map.mp ht
  exact rfl

/-! ## Runs that go as is assumed -/

/-- Of the runs whose operations all go as `C` says. -/
def LeadsIf (C : Event K V A → Prop) (R : Store K V → Store K V → Prop) (p : Prog (sig K V A) α)
    (Q : α → Store K V → List (Event K V A) → Prop) (s : Store K V) : Prop :=
  Leads R p (fun a s' evs => (∀ e ∈ evs, C e) → Q a s' evs) s

section Assumed

variable {C : Event K V A → Prop}

theorem leads_of_forall {Q : α → Store K V → List (Event K V A) → Prop} (hQ : ∀ a s evs, Q a s evs) :
    Leads R p Q s := by
  induction p generalizing Q s with
  | ret a => exact hQ a s []
  | act a k ih =>
      intro io s₁ _
      exact ih _ (fun b s₂ evs => hQ b s₂ _)
  | call c k => exact c.elim

theorem Leads.when {Q : α → Store K V → List (Event K V A) → Prop} (h : Leads R p Q s) : LeadsIf C R p Q s :=
  Leads.mono h (fun _ _ _ hq _ => hq)

theorem LeadsIf.mono {Q Q' : α → Store K V → List (Event K V A) → Prop} (h : LeadsIf C R p Q s)
    (hQ : ∀ a s evs, (∀ e ∈ evs, C e) → Q a s evs → Q' a s evs) : LeadsIf C R p Q' s :=
  Leads.mono h (fun a s evs hq hevs => hQ a s evs hevs (hq hevs))

theorem LeadsIf.and {Q Q' : α → Store K V → List (Event K V A) → Prop} (h : LeadsIf C R p Q s)
    (h' : LeadsIf C R p Q' s) : LeadsIf C R p (fun a s evs => Q a s evs ∧ Q' a s evs) s :=
  (Leads.and h h').mono (fun _ _ _ hboth hevs => ⟨hboth.1 hevs, hboth.2 hevs⟩)

theorem leadsIf_pure {Q : α → Store K V → List (Event K V A) → Prop} {a : α} (h : Q a s []) :
    LeadsIf C R (pure a : Prog (sig K V A) α) Q s :=
  fun _ => h

theorem LeadsIf.bind {Q : β → Store K V → List (Event K V A) → Prop}
    (h : LeadsIf C R p (fun a s₁ evs => LeadsIf C R (f a) (fun b s₂ evs' => Q b s₂ (evs ++ evs')) s₁) s) :
    LeadsIf C R (p >>= f) Q s := by
  refine Leads.bind (Leads.mono h ?_)
  intro a s₁ evs hrest
  by_cases hevs : ∀ e ∈ evs, C e
  · refine Leads.mono (hrest hevs) (fun b s₂ evs' hq hall => hq (fun e he => ?_))
    exact hall e (List.mem_append_right _ he)
  · refine leads_of_forall (fun b s₂ evs' hall => absurd (fun e he => ?_) hevs)
    exact hall e (List.mem_append_left _ he)

theorem leadsIf_act {a : Act K V A} {f : a.Res → Prog (sig K V A) β}
    {Q : β → Store K V → List (Event K V A) → Prop}
    (h : ∀ io s₁, R s s₁ → C ⟨a, io, s₁⟩ →
      LeadsIf C R (f (exec io s₁ a).1) (fun b s₂ evs => Q b s₂ (⟨a, io, s₁⟩ :: evs)) (exec io s₁ a).2) :
    LeadsIf C R (act a >>= f) Q s := by
  intro io s₁ hr
  by_cases hc : C ⟨a, io, s₁⟩
  · refine Leads.mono (h io s₁ hr hc) (fun b s₂ evs hq hall => hq (fun e he => ?_))
    exact hall e (List.mem_cons_of_mem _ he)
  · exact leads_of_forall (fun b s₂ evs hall => absurd (hall _ List.mem_cons_self) hc)

theorem leadsIf_getStr [Inhabited V] {k : K} {f : V → Prog (sig K V A) β}
    {Q : β → Store K V → List (Event K V A) → Prop}
    (h : ∀ io s₁, R s s₁ → C ⟨.get k, io, s₁⟩ → LeadsIf C R (f (if io = 0 then default else (s₁ k).getD default))
      (fun b s₂ evs => Q b s₂ (⟨.get k, io, s₁⟩ :: evs)) s₁) :
    LeadsIf C R (getStr k >>= f) Q s := by
  refine leads_getStr (fun io s₁ hr => ?_)
  by_cases hc : C ⟨.get k, io, s₁⟩
  · refine Leads.mono (h io s₁ hr hc) (fun b s₂ evs hq hall => hq (fun e he => ?_))
    exact hall e (List.mem_cons_of_mem _ he)
  · exact leads_of_forall (fun b s₂ evs hall => absurd (hall _ List.mem_cons_self) hc)

/-- Where all operations go as if nothing failed, the run is the sequential one. -/
theorem leadsIf_of_ends {P : Act K V A → Prop} {Q : α → Store K V → Prop}
    (hC : ∀ a io s, P a → C ⟨a, io, s⟩ → exec io s a = exec 2 s a) (hp : p.Only P (fun _ => True))
    (h : Ends p Q s) : LeadsIf C Alone p (fun a s' _ => Q a s') s := by
  induction p generalizing s with
  | ret a => exact fun _ => h
  | act a k ih =>
      refine leadsIf_act ?_
      rintro io _ rfl hc
      rw [hC a io s hp.1 hc]
      exact ih _ (hp.2 _) h
  | call c k => exact c.elim

end Assumed

/-! ## Looking -/

/-- However they go, the operations are reads, and what is returned is in `Q`. -/
def Looks (p : Prog (sig K V A) α) (Q : α → Prop) (s : Store K V) : Prop :=
  Leads Alone p (fun a s' evs => s = s' ∧ (∀ e ∈ evs, ∃ k, e.act = .get k) ∧ Q a) s

theorem looks_pure {Q : α → Prop} {a : α} (h : Q a) : Looks (pure a : Prog (sig K V A) α) Q s :=
  ⟨rfl, fun _ he => absurd he List.not_mem_nil, h⟩

theorem Looks.bind {Q : α → Prop} {Q' : β → Prop} (hp : Looks p Q s) (hf : ∀ a, Q a → Looks (f a) Q' s) :
    Looks (p >>= f) Q' s := by
  refine Leads.bind (Leads.mono hp ?_)
  rintro a _ evs ⟨rfl, hevs, ha⟩
  refine Leads.mono (hf a ha) ?_
  rintro b _ evs' ⟨rfl, hevs', hb⟩
  refine ⟨rfl, fun e he => ?_, hb⟩
  rcases List.mem_append.mp he with he | he
  · exact hevs e he
  · exact hevs' e he

/-- Two ways to a value, and then the rest. -/
theorem looks_ite_bind {c : Prop} [Decidable c] {q : Prog (sig K V A) α} {Q : α → Prop} {Q' : β → Prop}
    (hp : Looks p Q s) (hq : Looks q Q s) (hf : ∀ a, Q a → Looks (f a) Q' s) :
    Looks (if c then p >>= f else q >>= f) Q' s := by
  split
  · exact hp.bind hf
  · exact hq.bind hf

theorem looks_getStatus (k : K) :
    Looks (getStatus k : Prog (sig K V A) (Read V)) (fun r => r = .unavailable ∨ r = Read.ofCell (s k)) s := by
  rintro io _ rfl
  refine ⟨rfl, fun e he => ?_, ?_⟩
  · obtain rfl := List.mem_singleton.mp he
    exact ⟨k, rfl⟩
  · show (if io = 0 then Read.unavailable else Read.ofCell (s k)) = .unavailable ∨
      (if io = 0 then Read.unavailable else Read.ofCell (s k)) = Read.ofCell (s k)
    split
    · exact .inl rfl
    · exact .inr rfl

theorem looks_getStr [Inhabited V] (k : K) :
    Looks (getStr k : Prog (sig K V A) V) (fun v => v = default ∨ v = (s k).getD default) s := by
  refine (looks_getStatus k).bind ?_
  rintro r (rfl | rfl)
  · exact looks_pure (.inl rfl)
  · cases s k with
    | none => exact looks_pure (.inl rfl)
    | some v => exact looks_pure (.inr rfl)

theorem looks_of_gets {P : K → Prop} (hp : p.Only (Gets P) (fun _ => True)) : Looks p (fun _ => True) s := by
  refine (leads_gets hp).mono ?_
  rintro a s' evs ⟨hs, hevs⟩
  refine ⟨hs, fun e he => ?_, trivial⟩
  have hget := hevs e he
  cases hact : e.act with
  | get k => exact ⟨k, rfl⟩
  | _ =>
      rw [hact] at hget
      exact hget.elim

end Rules

end KeyValue
