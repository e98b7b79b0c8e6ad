import NCloud.Lib.Process

/-!
# Clients of a key-value store

Programs whose only actions are single operations on a store of cells: read, write,
compare and swap, delete, and saying what they have to say to whoever called them. Any
number of them run side by side, and there is nothing else they share.

An operation may fail. A read then says so; a write that reports failure may or may not
have happened.
-/

namespace KeyValue

open Process

/-- What a read tells. -/
inductive Read (V : Type) where
  | found (v : V)
  | notFound
  | unavailable

/-- Operations on cells `K` with contents `V`, and answers `A`. -/
inductive Act (K V A : Type) where
  | get (k : K)
  | put (k : K) (v : V)
  | cput (k : K) (old new : V)
  | del (k : K)
  | answer (a : A)

/-- What they return. -/
def Act.Res {K V A : Type} : Act K V A → Type
  | get _ => Read V
  | put _ _ => Bool
  | cput _ _ _ => Bool
  | del _ => Bool
  | answer _ => Unit

/-- The signature of clients. They send nothing to each other. -/
def sig (K V A : Type) : Sig where
  Act := Act K V A
  Res := Act.Res
  Call := Empty
  Reply := Empty

/-- The contents of all cells. -/
abbrev Store (K V : Type) := K → Option V

variable {K V A : Type}

/-- What a read finds. -/
def Read.ofCell : Option V → Read V
  | some v => .found v
  | none => .notFound

section Exec

variable [DecidableEq K] [DecidableEq V]

/-- One operation. The number says how it goes: at 0 it fails and does nothing, at 1 a
write happens and is reported as failed, and from 2 on it succeeds. -/
def exec (io : Nat) (s : Store K V) : (a : Act K V A) → a.Res × Store K V
  | .get k => (if io = 0 then .unavailable else Read.ofCell (s k), s)
  | .put k v => (decide (2 ≤ io), if io = 0 then s else Function.update s k (some v))
  | .cput k old new =>
      (decide (2 ≤ io ∧ s k = some old),
        if io ≠ 0 ∧ s k = some old then Function.update s k (some new) else s)
  | .del k => (decide (2 ≤ io), if io = 0 then s else Function.update s k none)
  | .answer _ => ((), s)

section Results

variable {io : Nat} {s : Store K V} {k k' : K} {v old new : V}

theorem cell_of_found (h : (exec io s (.get k : Act K V A)).1 = Read.found v) : s k = some v := by
  have h : (if io = 0 then Read.unavailable else Read.ofCell (s k)) = Read.found v := h
  split at h
  · exact absurd h (by simp)
  · cases hk : s k with
    | none => rw [hk] at h; exact absurd h (by simp [Read.ofCell])
    | some w =>
        rw [hk] at h
        exact congrArg some (Read.found.inj h)

theorem cell_of_notFound (h : (exec io s (.get k : Act K V A)).1 = Read.notFound) : s k = none := by
  have h : (if io = 0 then Read.unavailable else Read.ofCell (s k)) = Read.notFound := h
  split at h
  · exact absurd h (by simp)
  · cases hk : s k with
    | none => rfl
    | some w => rw [hk] at h; exact absurd h (by simp [Read.ofCell])

/-- A read that is answered. -/
theorem exec_get (hio : io ≠ 0) : (exec io s (.get k : Act K V A)).1 = Read.ofCell (s k) := if_neg hio

/-- A write leaves other cells alone. -/
theorem put_of_ne (h : k' ≠ k) : (exec io s (.put k v : Act K V A)).2 k' = s k' := by
  show (if io = 0 then s else Function.update s k (some v)) k' = s k'
  split
  · rfl
  · exact Function.update_of_ne h ..

theorem put_self (hio : io ≠ 0) : (exec io s (.put k v : Act K V A)).2 k = some v := by
  show (if io = 0 then s else Function.update s k (some v)) k = some v
  rw [if_neg hio, Function.update_self]

theorem cput_of_ne (h : k' ≠ k) : (exec io s (.cput k old new : Act K V A)).2 k' = s k' := by
  show (if io ≠ 0 ∧ s k = some old then Function.update s k (some new) else s) k' = s k'
  split
  · exact Function.update_of_ne h ..
  · rfl

/-- A swap happens on the value it expects, or not at all. -/
theorem cput_self (io : Nat) (s : Store K V) (k : K) (old new : V) :
    (exec io s (.cput k old new : Act K V A)).2 k = s k ∨
      (s k = some old ∧ (exec io s (.cput k old new : Act K V A)).2 k = some new) := by
  show (if io ≠ 0 ∧ s k = some old then Function.update s k (some new) else s) k = s k ∨
    (s k = some old ∧ (if io ≠ 0 ∧ s k = some old then Function.update s k (some new) else s) k = some new)
  split
  · rename_i h
    exact .inr ⟨h.2, Function.update_self ..⟩
  · exact .inl rfl

/-- One that reports success has happened. -/
theorem cput_of_true (h : (exec io s (.cput k old new : Act K V A)).1 = true) :
    s k = some old ∧ (exec io s (.cput k old new : Act K V A)).2 k = some new := by
  obtain ⟨hio, hold⟩ := of_decide_eq_true h
  refine ⟨hold, ?_⟩
  show (if io ≠ 0 ∧ s k = some old then Function.update s k (some new) else s) k = some new
  rw [if_pos ⟨by omega, hold⟩, Function.update_self]

theorem del_of_ne (h : k' ≠ k) : (exec io s (.del k : Act K V A)).2 k' = s k' := by
  show (if io = 0 then s else Function.update s k none) k' = s k'
  split
  · rfl
  · exact Function.update_of_ne h ..

theorem del_self (hio : io ≠ 0) : (exec io s (.del k : Act K V A)).2 k = none := by
  show (if io = 0 then s else Function.update s k none) k = none
  rw [if_neg hio, Function.update_self]

end Results

/-- Clients side by side. -/
def system (Root : Type) (main : Root → Prog (sig K V A) Unit) : System (sig K V A) where
  St := Store K V
  Loc := Unit
  Root := Root
  place := fun _ => ()
  main := main
  target := fun _ => ()
  handler := fun c => c.elim
  exec := fun _ _ io a s => some (exec io s a)
  sent := fun _ _ s => s
  lost := fun _ s => s
  mortal := fun _ => false
  restart := fun _ s => s

instance (Root : Type) (main : Root → Prog (sig K V A) Unit) : DecidableEq (system Root main).Loc :=
  inferInstanceAs (DecidableEq Unit)

end Exec

/-! ## Programs -/

/-- One operation. -/
def act (a : Act K V A) : Prog (sig K V A) a.Res := perform (S := sig K V A) a

/-- A program whose first operation is allowed. -/
theorem only_act {α : Type} {P : Act K V A → Prop} {C : Empty → Prop} {a : Act K V A}
    {f : a.Res → Prog (sig K V A) α} (ha : P a) (hf : ∀ r, (f r).Only P C) : (act a >>= f).Only P C :=
  ⟨ha, hf⟩

/-- Read a cell. -/
def getStatus (k : K) : Prog (sig K V A) (Read V) := act (.get k)

/-- What a read finds, or a default. -/
def getStr [Inhabited V] (k : K) : Prog (sig K V A) V := do
  match ← getStatus k with
  | .found v => return v
  | _ => return default

/-- Write a cell. -/
def put (k : K) (v : V) : Prog (sig K V A) Bool := act (.put k v)

/-- Write a cell if it holds `old`. -/
def cput (k : K) (old new : V) : Prog (sig K V A) Bool := act (.cput k old new)

/-- Empty a cell. -/
def del (k : K) : Prog (sig K V A) Bool := act (.del k)

/-- The end of a request. -/
def answer (a : A) : Prog (sig K V A) Unit := act (.answer a)

/-! ## One after another -/

section Run

variable [DecidableEq K] [DecidableEq V] {α β : Type}

/-- Run a program with nothing beside it on a store whose operations succeed. -/
def run : Prog (sig K V A) α → Store K V → α × Store K V
  | .ret a, s => (a, s)
  | .act a k, s => run (k (exec 2 s a).1) (exec 2 s a).2
  | .call c _, _ => c.elim

theorem run_bind (p : Prog (sig K V A) α) (f : α → Prog (sig K V A) β) (s : Store K V) :
    run (p >>= f) s = run (f (run p s).1) (run p s).2 := by
  induction p generalizing s with
  | ret a => rfl
  | act a k ih => exact ih (exec 2 s a).1 (exec 2 s a).2
  | call c k => exact c.elim

@[simp] theorem run_pure (a : α) (s : Store K V) : run (pure a : Prog (sig K V A) α) s = (a, s) := rfl

@[simp] theorem run_getStatus (k : K) (s : Store K V) :
    run (getStatus k : Prog (sig K V A) (Read V)) s = (Read.ofCell (s k), s) := rfl

@[simp] theorem run_put (k : K) (v : V) (s : Store K V) :
    run (put k v : Prog (sig K V A) Bool) s = (true, Function.update s k (some v)) := rfl

@[simp] theorem run_del (k : K) (s : Store K V) :
    run (del k : Prog (sig K V A) Bool) s = (true, Function.update s k none) := rfl

@[simp] theorem run_cput (k : K) (old new : V) (s : Store K V) :
    run (cput k old new : Prog (sig K V A) Bool) s =
      (decide (s k = some old), if s k = some old then Function.update s k (some new) else s) := by
  show ((decide (2 ≤ 2 ∧ s k = some old) : Bool),
    if 2 ≠ 0 ∧ s k = some old then Function.update s k (some new) else s) = _
  simp

@[simp] theorem run_getStr [Inhabited V] (k : K) (s : Store K V) :
    run (getStr k : Prog (sig K V A) V) s = ((s k).getD default, s) := by
  rw [getStr, run_bind, run_getStatus]
  cases s k with
  | none => rfl
  | some v => rfl

/-- A program run from here ends in `Q`. -/
def Ends (p : Prog (sig K V A) α) (Q : α → Store K V → Prop) (s : Store K V) : Prop :=
  Q (run p s).1 (run p s).2

variable {p : Prog (sig K V A) α} {f : α → Prog (sig K V A) β} {Q : α → Store K V → Prop}
  {R : β → Store K V → Prop} {s : Store K V}

theorem Ends.mono {Q' : α → Store K V → Prop} (h : Ends p Q s) (hQ : ∀ a s, Q a s → Q' a s) :
    Ends p Q' s :=
  hQ _ _ h

theorem Ends.bind (h : Ends p (fun a s => Ends (f a) R s) s) : Ends (p >>= f) R s := by
  rw [Ends, run_bind]
  exact h

theorem Ends.and {Q' : α → Store K V → Prop} (h : Ends p Q s) (h' : Ends p Q' s) :
    Ends p (fun a s => Q a s ∧ Q' a s) s :=
  ⟨h, h'⟩

/-- What every operation of a program keeps, the program keeps. -/
theorem Ends.of_only {P : Act K V A → Prop} {T : Store K V → Prop}
    (hact : ∀ a s, P a → T s → T (exec 2 s a).2) (hp : p.Only P (fun _ => True)) (h : T s) :
    Ends p (fun _ s => T s) s := by
  induction p generalizing s with
  | ret a => exact h
  | act a k ih => exact ih (exec 2 s a).1 (hp.2 _) (hact a s hp.1 h)
  | call c k => exact c.elim

end Run

/-! ## Reading -/

section Reads

variable [DecidableEq K] [DecidableEq V] {α β : Type} {P : K → Prop} {s s' : Store K V}

/-- A read of a cell in `P`. -/
def Gets (P : K → Prop) : Act K V A → Prop
  | .get k => P k
  | _ => False

/-- A program reads cells in `P` and nothing else, and on these contents it returns `b`. -/
def Reads (P : K → Prop) (s : Store K V) : Prog (sig K V A) α → α → Prop
  | .ret a, b => a = b
  | .act a k, b => Gets P a ∧ Reads P s (k (exec 2 s a).1) b
  | .call c _, _ => c.elim

theorem Reads.bind {p : Prog (sig K V A) α} {f : α → Prog (sig K V A) β} {a : α} {b : β}
    (hp : Reads P s p a) (hf : Reads P s (f a) b) : Reads P s (p >>= f) b := by
  induction p with
  | ret c =>
      obtain rfl : c = a := hp
      exact hf
  | act c k ih => exact ⟨hp.1, ih _ hp.2⟩
  | call c k => exact c.elim

theorem reads_getStr [Inhabited V] {k : K} (hk : P k) :
    Reads P s (getStr k : Prog (sig K V A) V) ((s k).getD default) := by
  refine ⟨hk, ?_⟩
  show Reads P s (match Read.ofCell (s k) with | .found v => _ | _ => _) _
  cases s k with
  | none => rfl
  | some v => rfl

/-- The store is as it was. -/
theorem Reads.run_eq {p : Prog (sig K V A) α} {a : α} (hp : Reads P s p a) : run p s = (a, s) := by
  induction p with
  | ret c => exact congrArg (·, s) hp
  | act c k ih =>
      cases c with
      | get k' => exact ih _ hp.2
      | _ => exact hp.1.elim
  | call c k => exact c.elim

/-- Whatever they read, such programs return something. -/
theorem exists_reads {p : Prog (sig K V A) α} (hp : p.Only (Gets P) (fun _ => True)) (s : Store K V) :
    ∃ a, Reads P s p a := by
  induction p with
  | ret c => exact ⟨c, rfl⟩
  | act c k ih =>
      obtain ⟨a, ha⟩ := ih (exec 2 s c).1 (hp.2 _)
      exact ⟨a, hp.1, ha⟩
  | call c k => exact c.elim

end Reads

/-! ## Histories -/

/-- What is written down about the operations of clients. -/
structure Watch (K V A : Type) where
  Past : Type
  /-- Client `i` did an operation on a store. -/
  note : (i : Nat) → (a : Act K V A) → a.Res → Store K V → Past → Past

section Watch

variable [DecidableEq K] [DecidableEq V] (W : Watch K V A) {Root : Type}
  (main : Root → Prog (sig K V A) Unit)

/-- Clients with their history. -/
abbrev watched : System (sig K V A) :=
  (system Root main).observe
    { Past := W.Past
      note := fun i _ a r s _ p => W.note i a r s p
      sent := fun _ _ _ p => p
      lost := fun _ p => p
      restart := fun _ p => p }

/-- What one operation does to store and history. -/
def after (i io : Nat) (a : Act K V A) (σ : Store K V × W.Past) : Store K V × W.Past :=
  ((exec io σ.1 a).2, W.note i a (exec io σ.1 a).1 σ.1 σ.2)

variable {W}

theorem exec_watched {i io : Nat} {l : Unit} {a : Act K V A} {r : a.Res}
    {σ σ' : Store K V × W.Past} (h : (watched W main).exec i l io a σ = some (r, σ')) :
    r = (exec io σ.1 a).1 ∧ σ' = after W i io a σ := by
  obtain ⟨s, hs, rfl⟩ := System.exec_observe h
  obtain ⟨rfl, rfl⟩ := Prod.mk.inj (Option.some.inj hs)
  exact ⟨rfl, rfl⟩

end Watch

/-! ## Rules for clients -/

/-- An invariant, what a client may count on, and the side condition of operations. -/
structure Rules (W : Watch K V A) where
  Inv : Store K V × W.Past → Prop
  Rely : Nat → Store K V × W.Past → Store K V × W.Past → Prop
  Ok : Nat → Nat → Act K V A → Store K V × W.Past → Prop
  rely_refl : ∀ i σ, Rely i σ σ
  rely_trans : ∀ {i σ₁ σ₂ σ₃}, Rely i σ₁ σ₂ → Rely i σ₂ σ₃ → Rely i σ₁ σ₃

namespace Rules

variable [DecidableEq K] [DecidableEq V] {W : Watch K V A} {Root : Type} (R : Rules W)
  (main : Root → Prog (sig K V A) Unit)

/-- The logic of these rules. Nothing is ever sent, and nothing restarts. -/
def logic : Logic (watched W main) where
  Inv := R.Inv
  Step := fun _ _ => True
  Rely := fun i _ σ σ' => R.Rely i σ σ'
  Ok := fun i _ io a σ => R.Ok i io a σ
  Req := fun _ _ _ => True
  Rep := fun _ _ _ => True
  step_refl := fun _ => trivial
  rely_step := fun _ => trivial
  rely_refl := fun i _ σ => R.rely_refl i σ
  rely_trans := R.rely_trans
  req_stable := fun _ _ => trivial
  rep_stable := fun _ _ => trivial
  sent_ok := fun h => ⟨h, trivial, fun i _ _ => R.rely_refl i _⟩
  lost_ok := fun h => ⟨h, trivial, fun i _ _ => R.rely_refl i _⟩
  restart_ok := fun h _ => ⟨h, trivial, fun i _ _ => R.rely_refl i _⟩

/-- What an operation by client `i` has to keep. -/
structure Keeps (i : Nat) (σ σ' : Store K V × W.Past) : Prop where
  inv : R.Inv σ'
  rely : ∀ i', i' ≠ i → R.Rely i' σ σ'

variable {α β : Type} {i : Nat} {σ σ' : Store K V × W.Past}

/-- Client `i` can run the program from here and ends in `Q`. -/
abbrev Safe (i : Nat) (p : Prog (sig K V A) α) (Q : α → Store K V × W.Past → Prop)
    (σ : Store K V × W.Past) : Prop :=
  (R.logic main).Safe i () p Q σ

variable {R main}

/-- One operation, and then the rest. -/
theorem safe_act {a : Act K V A} {f : a.Res → Prog (sig K V A) α}
    {Q : α → Store K V × W.Past → Prop}
    (h : ∀ σ₁ io, R.Rely i σ σ₁ → R.Inv σ₁ → R.Ok i io a σ₁ →
      R.Keeps i σ₁ (after W i io a σ₁) ∧ R.Safe main i (f (exec io σ₁.1 a).1) Q (after W i io a σ₁)) :
    R.Safe main i (act a >>= f) Q σ := by
  intro σ₁ io r σ₂ hr hi hok he
  obtain ⟨rfl, rfl⟩ := exec_watched main he
  obtain ⟨hk, hs⟩ := h σ₁ io hr hi hok
  exact ⟨⟨hk.inv, trivial, fun i' _ hne => hk.rely i' hne⟩, hs⟩

/-- Programs whose operations are each fine wherever they happen. -/
theorem safe_of_only {P : Act K V A → Prop}
    (hact : ∀ a σ io, P a → R.Inv σ → R.Ok i io a σ → R.Keeps i σ (after W i io a σ))
    {p : Prog (sig K V A) α} (hp : p.Only P (fun _ => True)) (σ : Store K V × W.Past) :
    R.Safe main i p (fun _ _ => True) σ := by
  refine Logic.safe_of_only (L := R.logic main) ?_ (fun c => c.elim) hp σ
  intro a io σ r σ' ha hi hok he
  obtain ⟨rfl, rfl⟩ := exec_watched main he
  obtain ⟨hinv, hrely⟩ := hact a σ io ha hi hok
  exact ⟨hinv, trivial, fun i' _ hne => hrely i' hne⟩

/-- The same under an assumption that nobody else undoes. -/
theorem safe_keep {P : Act K V A → Prop} {T : Store K V × W.Past → Prop}
    (hstable : ∀ σ σ', R.Rely i σ σ' → T σ → T σ')
    (hact : ∀ a σ io, P a → R.Inv σ → R.Ok i io a σ → T σ →
      R.Keeps i σ (after W i io a σ) ∧ T (after W i io a σ))
    {p : Prog (sig K V A) α} (hp : p.Only P (fun _ => True)) (h : T σ) :
    R.Safe main i p (fun _ σ => T σ) σ := by
  induction p generalizing σ with
  | ret a => exact fun σ₁ hr _ => hstable σ σ₁ hr h
  | act a k ih =>
      intro σ₁ io r σ₂ hr hi hok he
      obtain ⟨rfl, rfl⟩ := exec_watched main he
      obtain ⟨hkeep, hT⟩ := hact a σ₁ io hp.1 hi hok (hstable σ σ₁ hr h)
      exact ⟨⟨hkeep.inv, trivial, fun i' _ hne => hkeep.rely i' hne⟩, ih _ (hp.2 _) hT⟩
  | call c k => exact c.elim

/-- **Soundness.** -/
theorem inv_of_reach (h0 : R.Inv σ)
    (hmain : ∀ r i σ, R.Inv σ → R.Safe main i (main r) (fun _ _ => True) σ)
    {c : Config (watched W main)} (h : Reach σ (When (fun i _ io a σ => R.Ok i io a σ)) c) :
    R.Inv c.st := by
  have hall : (R.logic main).Holds c := Logic.sound (fun _ _ => trivial) h0 hmain (fun _ (c : Empty) => c.elim) h
  exact hall.inv

end Rules

end KeyValue
