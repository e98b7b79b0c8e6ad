import NCloud.Lib.Process
import NCloud.Lib.Reader

/-!
# Which node a read asks

All threads of the front end share one `KVClient`, and it has one target. A call looks
up its row, installs the node it is told, and then takes the pool that happens to be
installed: another call may have put its own node there in between, and a lookup that
fails leaves whatever node was there before.

The observer writes down which nodes the lookups of a call have named, and whether the
target is still the one the call has installed. A read taken then (`Settled`) asks a
node that was named for its row.
-/

namespace NCloud.Targets

open Process Wire

/-- `NodeInfo`; `alive` is never looked at. -/
structure NodeInfo where
  host : Bytes
  port : Nat
  deriving DecidableEq

/-- `KVReadStatus`, with the value. -/
inductive KVReadStatus where
  | found (val : Bytes)
  | notFound
  | unavailable
  deriving DecidableEq

/-- What a call does in one piece: its critical sections, and its exchanges with other
processes. -/
inductive Act where
  /-- `lookup_primary`. -/
  | lookupPrimary (row : Bytes)
  /-- The first section of `install_target`: whether the target is another one. -/
  | targetChanged (node : NodeInfo)
  /-- The second: replace it, if it still is. -/
  | setTarget (node : NodeInfo)
  /-- `snapshot_pool`; the flag tells `get_status` from the others. -/
  | snapshotPool (reading : Bool)
  /-- `borrow`. -/
  | borrow (pool : NodeInfo)
  /-- `do_get_once`. -/
  | getOnce (pool : NodeInfo) (row col : Bytes)
  /-- The first section of `rebuild_current_pool`. -/
  | currentTarget
  /-- The second. -/
  | setPool (target : NodeInfo)
  /-- What `exec_row` and `exec_row_write` are called for: whether they are done. -/
  | writeOnce (pool : NodeInfo) (row : Bytes)
  /-- The exchange of `ping`. -/
  | pingOnce (pool : NodeInfo)
  /-- `get_status` returns `Found` or `NotFound`. -/
  | returnRead (row : Bytes) (pool : NodeInfo) (status : KVReadStatus)
  /-- The loop of `install_target` goes on. -/
  | spin

/-- What it returns. -/
def Act.Res : Act → Type
  | lookupPrimary _ => Option NodeInfo
  | targetChanged _ => Bool
  | setTarget _ => Bool
  | snapshotPool _ => Option NodeInfo
  | borrow _ => Bool
  | getOnce _ _ _ => KVReadStatus
  | currentTarget => NodeInfo
  | writeOnce _ _ => Bool
  | pingOnce _ => Bool
  | _ => Unit

/-- The signature of a client. What it exchanges with other processes is answered from
outside. -/
def sig : Sig where
  Act := Act
  Res := Act.Res
  Call := Empty
  Reply := Empty

abbrev ClientProg := Prog sig

/-- One step. -/
def act (a : Act) : ClientProg a.Res := perform (S := sig) a

/-! ## The client -/

/-- `install_target`. The loop ends when the target is the node; `rounds` is how often
it may go round. -/
def installTarget (node : NodeInfo) : (rounds : Nat) → ClientProg Unit
  | 0 => act .spin
  | rounds + 1 => do
      let changed : Bool ← act (.targetChanged node)
      if !changed then return ()
      let replaced : Bool ← act (.setTarget node)
      if replaced then return ()
      installTarget node rounds

variable (rounds : Nat)

/-- `if (lookup_primary(row, primary_node)) install_target(primary_node, false)`. -/
def lookupAndInstall (row : Bytes) : ClientProg Unit := do
  let primary : Option NodeInfo ← act (.lookupPrimary row)
  match primary with
  | some node => installTarget node rounds
  | none => return ()

/-- `rebuild_current_pool`. -/
def rebuildCurrentPool : ClientProg Unit := do
  let target : NodeInfo ← act .currentTarget
  act (.setPool target)

/-- The loop of `get_status`. -/
def getLoop (row col : Bytes) : (left : Nat) → ClientProg KVReadStatus
  | 0 => return .unavailable
  | left + 1 => do
      let pool : Option NodeInfo ← act (.snapshotPool true)
      match pool with
      | none =>
          lookupAndInstall rounds row
          getLoop row col left
      | some pool =>
          let connected : Bool ← act (.borrow pool)
          if !connected then
            lookupAndInstall rounds row
            getLoop row col left
          else
            let status : KVReadStatus ← act (.getOnce pool row col)
            if status = .unavailable then
              rebuildCurrentPool
              lookupAndInstall rounds row
              getLoop row col left
            else
              act (.returnRead row pool status)
              return status

/-- `get_status`. -/
def getStatus (row col : Bytes) : ClientProg KVReadStatus := do
  lookupAndInstall rounds row
  getLoop rounds row col 8

/-- The loop of `refresh_target_for_row`. -/
def refreshLoop (row : Bytes) : (left : Nat) → ClientProg Bool
  | 0 => return false
  | left + 1 => do
      let primary : Option NodeInfo ← act (.lookupPrimary row)
      match primary with
      | some node =>
          installTarget node rounds
          return true
      | none => refreshLoop row left

/-- `refresh_target_for_row`. -/
def refreshTargetForRow (row : Bytes) : ClientProg Bool := refreshLoop rounds row 8

/-- The loop of `exec_row` and `exec_row_write`. -/
def execLoop (row : Bytes) : (left : Nat) → ClientProg Unit
  | 0 => return ()
  | left + 1 => do
      let pool : Option NodeInfo ← act (.snapshotPool false)
      let done ← match pool with
        | none => pure false
        | some pool => do
            let connected : Bool ← act (.borrow pool)
            if !connected then pure false
            else
              let done : Bool ← act (.writeOnce pool row)
              if done then pure true
              else
                rebuildCurrentPool
                pure false
      if done then return ()
      let _ ← refreshTargetForRow rounds row
      execLoop row left

/-- `exec_row` and `exec_row_write`. -/
def execRow (row : Bytes) : ClientProg Unit := do
  if ← refreshTargetForRow rounds row then execLoop rounds row 8

/-- `ping`. -/
def ping : ClientProg Unit := do
  let pool : Option NodeInfo ← act (.snapshotPool false)
  match pool with
  | none => return ()
  | some pool =>
      let connected : Bool ← act (.borrow pool)
      if !connected then return ()
      let ok : Bool ← act (.pingOnce pool)
      if !ok then rebuildCurrentPool

/-! ## The system -/

/-- The target and the node of its pool. -/
structure State where
  current : NodeInfo
  pool : Option NodeInfo

/-- What the other processes answer; the number tells one occasion from another. -/
structure Env where
  lookup : Nat → Bytes → Option NodeInfo
  connects : Nat → NodeInfo → Bool
  get : Nat → NodeInfo → Bytes → Bytes → KVReadStatus
  write : Nat → NodeInfo → Bytes → Bool
  ping : Nat → NodeInfo → Bool

/-- Whether `install_target` finds another target. -/
def State.changed (s : State) (node : NodeInfo) : Bool :=
  decide (s.pool = none ∨ node ≠ s.current)

/-- One step. -/
def exec (env : Env) (io : Nat) (s : State) : (a : Act) → Option (a.Res × State)
  | .lookupPrimary row => some (env.lookup io row, s)
  | .targetChanged node => some (s.changed node, s)
  | .setTarget node =>
      if s.changed node then some (true, { current := node, pool := some node })
      else some (false, s)
  | .snapshotPool _ => some (s.pool, s)
  | .borrow pool => some (env.connects io pool, s)
  | .getOnce pool row col => some (env.get io pool row col, s)
  | .currentTarget => some (s.current, s)
  | .setPool target =>
      some ((), if s.current = target then { s with pool := some target } else s)
  | .writeOnce pool row => some (env.write io pool row, s)
  | .pingOnce pool => some (env.ping io pool, s)
  | .returnRead _ _ _ => some ((), s)
  | .spin => none

/-- The calls of the front end. -/
inductive Call where
  | get (row col : Bytes)
  | write (row : Bytes)
  | ping

/-- What they run. -/
def Call.main : Call → ClientProg Unit
  | .get row col => getStatus rounds row col >>= fun _ => pure ()
  | .write row => execRow rounds row
  | .ping => Targets.ping

/-- Any number of calls on one client. -/
def system (env : Env) : System sig where
  St := State
  Loc := Unit
  Root := Call
  place := fun _ => ()
  main := Call.main rounds
  target := fun _ => ()
  handler := fun c => c.elim
  exec := fun _ _ io a s => exec env io s a
  sent := fun _ _ s => s
  lost := fun _ s => s
  mortal := fun _ => false
  restart := fun _ s => s

instance (env : Env) : DecidableEq (system rounds env).Loc := inferInstanceAs (DecidableEq Unit)

/-! ## The history -/

/-- What is known of a call: its row, what its lookups have named, and whether the
target has been its own since it installed one. -/
structure Visit where
  row : Bytes
  named : List (Bytes × NodeInfo)
  settled : Bool

/-- A `get_status` that has returned `Found` or `NotFound`. -/
structure Read where
  row : Bytes
  node : NodeInfo
  named : List (Bytes × NodeInfo)

/-- What the observer knows. -/
structure Past where
  visit : Nat → Option Visit
  reads : List Read

namespace Past

def init : Past := { visit := fun _ => none, reads := [] }

/-- A call has looked up a row. -/
def addNamed (row : Bytes) (answer : Option NodeInfo) : Option Visit → Visit
  | some v =>
      if v.row = row then { v with named := answer.toList.map (fun node => (row, node)) ++ v.named }
      else ⟨row, answer.toList.map (fun node => (row, node)), false⟩
  | none => ⟨row, answer.toList.map (fun node => (row, node)), false⟩

/-- Call `i` has looked up a row. -/
def looked (p : Past) (i : Nat) (row : Bytes) (answer : Option NodeInfo) : Past :=
  { p with visit := Function.update p.visit i (some (addNamed row answer (p.visit i))) }

/-- Call `i` has found its node installed. -/
def installed (p : Past) (i : Nat) : Past :=
  { p with visit := Function.update p.visit i ((p.visit i).map (fun v => { v with settled := true })) }

/-- Call `i` has replaced the target. -/
def replaced (p : Past) (i : Nat) : Past :=
  { p with visit := fun j => (p.visit j).map (fun v => { v with settled := decide (j = i) }) }

/-- Call `i` returns. -/
def returned (p : Past) (i : Nat) (row : Bytes) (node : NodeInfo) : Past :=
  { p with reads := ⟨row, node, ((p.visit i).map Visit.named).getD []⟩ :: p.reads }

/-- Call `i` has done a step. -/
def note (p : Past) (i : Nat) : (a : Act) → a.Res → Past
  | .lookupPrimary row, answer => p.looked i row answer
  | .targetChanged _, (false : Bool) => p.installed i
  | .setTarget _, (true : Bool) => p.replaced i
  | .returnRead row node _, _ => p.returned i row node
  | _, _ => p

end Past

/-- The observer. -/
def observer (env : Env) : Observer (system rounds env) where
  Past := Past
  note := fun i _ a r _ _ p => p.note i a r
  sent := fun _ _ _ p => p
  lost := fun _ p => p
  restart := fun _ p => p

/-- The client with its history. -/
abbrev watched (env : Env) : System sig := (system rounds env).observe (observer rounds env)

/-- The answer came from a node that a lookup for the row had named in the call. -/
def Read.Honest (r : Read) : Prop := (r.row, r.node) ∈ r.named

/-- A read takes its pool while the target is still the one its call has installed. -/
def Settled (i : Nat) (_ : Unit) (_ : Nat) (a : Act) (σ : State × Past) : Prop :=
  match a with
  | .snapshotPool true => ∃ v, σ.2.visit i = some v ∧ v.settled = true
  | _ => True

/-! ## The proof -/

/-- What holds between steps. -/
structure Inv (σ : State × Past) : Prop where
  /-- The pool is the target's. -/
  pool : ∀ p, σ.1.pool = some p → p = σ.1.current
  /-- A call that is settled has been told the target. -/
  settled : ∀ i v, σ.2.visit i = some v → v.settled = true → (v.row, σ.1.current) ∈ v.named
  reads : ∀ r ∈ σ.2.reads, r.Honest

/-- Others do not touch what a call has been told. -/
def Keeps (i : Nat) (σ σ' : State × Past) : Prop :=
  ∀ v, σ.2.visit i = some v → ∃ b, σ'.2.visit i = some { v with settled := b }

theorem Keeps.refl (i : Nat) (σ : State × Past) : Keeps i σ σ := fun v hv => ⟨v.settled, hv⟩

theorem Keeps.trans {i : Nat} {σ₁ σ₂ σ₃ : State × Past} (h₁ : Keeps i σ₁ σ₂) (h₂ : Keeps i σ₂ σ₃) :
    Keeps i σ₁ σ₃ := by
  intro v hv
  obtain ⟨b, hb⟩ := h₁ v hv
  obtain ⟨b', hb'⟩ := h₂ _ hb
  exact ⟨b', hb'⟩

variable (env : Env)

/-- The assertions. -/
def logic : Logic (watched rounds env) where
  Inv := Inv
  Step := fun _ _ => True
  Rely := fun i _ σ σ' => Keeps i σ σ'
  Ok := Settled
  Req := fun _ _ _ => True
  Rep := fun _ _ _ => True
  step_refl := fun _ => trivial
  rely_step := fun _ => trivial
  rely_refl := fun i _ σ => Keeps.refl i σ
  rely_trans := Keeps.trans
  req_stable := fun _ _ => trivial
  rep_stable := fun _ _ => trivial
  sent_ok := fun h => ⟨h, trivial, fun i _ _ => Keeps.refl i _⟩
  lost_ok := fun h => ⟨h, trivial, fun i _ _ => Keeps.refl i _⟩
  restart_ok := fun h _ => ⟨h, trivial, fun i _ _ => Keeps.refl i _⟩

/-- Call `i` is for the row and has been told the node. -/
def Told (i : Nat) (row : Bytes) (node : NodeInfo) (σ : State × Past) : Prop :=
  ∃ v, σ.2.visit i = some v ∧ v.row = row ∧ (row, node) ∈ v.named

/-- Call `i` is for the row. -/
def About (i : Nat) (row : Bytes) (σ : State × Past) : Prop := ∃ v, σ.2.visit i = some v ∧ v.row = row

variable {rounds env} {i : Nat} {row : Bytes} {node : NodeInfo} {σ σ' : State × Past}

theorem Told.keep (h : Told i row node σ) (hk : Keeps i σ σ') : Told i row node σ' := by
  obtain ⟨v, hv, hrow, hmem⟩ := h
  obtain ⟨b, hb⟩ := hk v hv
  exact ⟨_, hb, hrow, hmem⟩

theorem About.keep (h : About i row σ) (hk : Keeps i σ σ') : About i row σ' := by
  obtain ⟨v, hv, hrow⟩ := h
  obtain ⟨b, hb⟩ := hk v hv
  exact ⟨_, hb, hrow⟩

theorem Told.about (h : Told i row node σ) : About i row σ := by
  obtain ⟨v, hv, hrow, -⟩ := h
  exact ⟨v, hv, hrow⟩

/-! ### Steps -/

section Steps

variable {α : Type} {Q : α → State × Past → Prop}

/-- One step of call `i`, and then the rest. -/
theorem safe_step {a : Act} {f : a.Res → ClientProg α}
    (h : ∀ σ₁ io r s, Keeps i σ σ₁ → Inv σ₁ → Settled i () io a σ₁ → exec env io σ₁.1 a = some (r, s) →
      Inv (s, σ₁.2.note i a r) ∧ (∀ j, j ≠ i → Keeps j σ₁ (s, σ₁.2.note i a r)) ∧
        (logic rounds env).Safe i () (f r) Q (s, σ₁.2.note i a r)) :
    (logic rounds env).Safe i () (act a >>= f) Q σ := by
  intro σ₁ io r σ₂ hr hi hok he
  obtain ⟨s, hs, rfl⟩ := System.exec_observe he
  obtain ⟨hinv, hrely, hsafe⟩ := h σ₁ io r s hr hi hok hs
  exact ⟨⟨hinv, trivial, fun j _ hj => hrely j hj⟩, hsafe⟩

/-- A step that changes nothing and that nobody writes down. -/
theorem safe_plain {a : Act} {f : a.Res → ClientProg α}
    (hexec : ∀ io s r s', exec env io s a = some (r, s') → s' = s) (hnote : ∀ p r, Past.note p i a r = p)
    (h : ∀ σ₁ r, Keeps i σ σ₁ → Inv σ₁ → (logic rounds env).Safe i () (f r) Q σ₁) :
    (logic rounds env).Safe i () (act a >>= f) Q σ := by
  refine safe_step (fun σ₁ io r s hk hi _ he => ?_)
  obtain rfl := hexec io σ₁.1 r s he
  rw [hnote]
  exact ⟨hi, fun j _ => Keeps.refl j _, h σ₁ r hk hi⟩

theorem visit_looked_self (p : Past) (i : Nat) (row : Bytes) (answer : Option NodeInfo) :
    (p.looked i row answer).visit i = some (Past.addNamed row answer (p.visit i)) :=
  Function.update_self ..

theorem visit_installed_self (p : Past) (i : Nat) :
    (p.installed i).visit i = (p.visit i).map (fun v => { v with settled := true }) :=
  Function.update_self ..

/-- A lookup for the row of the call. -/
theorem Inv.looked (hi : Inv σ) (i : Nat) (row : Bytes) (answer : Option NodeInfo) :
    Inv (σ.1, σ.2.looked i row answer) := by
  refine ⟨hi.pool, fun j v hv hs => ?_, hi.reads⟩
  by_cases hj : j = i
  · subst hj
    obtain rfl := Option.some.inj ((visit_looked_self ..).symm.trans hv)
    cases hold : σ.2.visit j with
    | none =>
        rw [hold] at hs
        exact absurd hs (by simp [Past.addNamed])
    | some v₀ =>
        rw [hold] at hs
        unfold Past.addNamed at hs ⊢
        dsimp only at hs ⊢
        split at hs
        · rename_i hrow
          rw [if_pos hrow]
          exact List.mem_append_right _ (hi.settled j v₀ hold hs)
        · exact absurd hs (by simp)
  · exact hi.settled j v ((Function.update_of_ne hj ..).symm.trans hv) hs

theorem keeps_looked {j : Nat} (hj : j ≠ i) (answer : Option NodeInfo) :
    Keeps j σ (σ.1, σ.2.looked i row answer) :=
  fun v hv => ⟨v.settled, (Function.update_of_ne hj ..).trans hv⟩

/-- Whom a lookup has named, the call has been told. -/
theorem told_looked (σ : State × Past) (i : Nat) (row : Bytes) (answer : Option NodeInfo) :
    About i row (σ.1, σ.2.looked i row answer) ∧
      ∀ node, answer = some node → Told i row node (σ.1, σ.2.looked i row answer) := by
  have hvisit : ∃ v, (σ.2.looked i row answer).visit i = some v ∧ v.row = row ∧
      answer.toList.map (fun node => (row, node)) ⊆ v.named := by
    refine ⟨_, visit_looked_self .., ?_⟩
    unfold Past.addNamed
    split
    · split
      · rename_i hrow
        exact ⟨hrow, List.subset_append_left _ _⟩
      · exact ⟨rfl, List.Subset.refl _⟩
    · exact ⟨rfl, List.Subset.refl _⟩
  obtain ⟨v, hv, hrow, hsub⟩ := hvisit
  refine ⟨⟨v, hv, hrow⟩, ?_⟩
  rintro node rfl
  exact ⟨v, hv, hrow, hsub (by simp)⟩

/-- The node of a call is found installed. -/
theorem Inv.installed (hi : Inv σ) (htold : Told i row node σ) (hcur : node = σ.1.current) :
    Inv (σ.1, σ.2.installed i) := by
  refine ⟨hi.pool, fun j v hv hs => ?_, hi.reads⟩
  by_cases hj : j = i
  · subst hj
    obtain ⟨v₀, hv₀, hrow, hmem⟩ := htold
    have hv := (visit_installed_self ..).symm.trans hv
    rw [hv₀] at hv
    obtain rfl := Option.some.inj hv
    show (v₀.row, σ.1.current) ∈ v₀.named
    rw [hrow, ← hcur]
    exact hmem
  · exact hi.settled j v ((Function.update_of_ne hj ..).symm.trans hv) hs

/-- The node of a call is installed in place of another. -/
theorem Inv.replaced (hi : Inv σ) (htold : Told i row node σ) :
    Inv (⟨node, some node⟩, σ.2.replaced i) := by
  refine ⟨fun p hp => (Option.some.inj hp).symm, fun j v hv hs => ?_, hi.reads⟩
  obtain ⟨v₀, hv₀, rfl⟩ := Option.map_eq_some_iff.mp hv
  obtain rfl : j = i := of_decide_eq_true hs
  obtain ⟨v₁, hv₁, hrow, hmem⟩ := htold
  obtain rfl := Option.some.inj (hv₀.symm.trans hv₁)
  show (v₀.row, node) ∈ v₀.named
  rw [hrow]
  exact hmem

theorem keeps_replaced (s : State) (j : Nat) : Keeps j σ (s, σ.2.replaced i) := by
  intro v hv
  refine ⟨decide (j = i), ?_⟩
  show (σ.2.visit j).map _ = _
  rw [hv]
  rfl

end Steps

/-! ### Programs -/

section Programs

theorem safe_installTarget (rounds' : Nat) (h : Told i row node σ) :
    (logic rounds env).Safe i () (installTarget node rounds') (fun _ σ' => About i row σ') σ := by
  induction rounds' generalizing σ with
  | zero => exact safe_step (f := Prog.ret) (fun σ₁ io r s _ _ _ he => absurd he (by simp [exec]))
  | succ k ih =>
      refine safe_step (fun σ₁ io (changed : Bool) s hk hi _ he => ?_)
      obtain ⟨rfl, rfl⟩ := Prod.mk.inj (Option.some.inj he)
      have h₁ := h.keep hk
      cases hch : σ₁.1.changed node with
      | false =>
          have hcur : node = σ₁.1.current := by
            have := of_decide_eq_false hch
            exact not_not.mp (not_or.mp this).2
          refine ⟨hi.installed h₁ hcur, fun j hj v hv => ⟨v.settled, ?_⟩, fun σ₂ hk₂ _ => ?_⟩
          · exact (Function.update_of_ne hj ..).trans hv
          · refine About.keep ?_ hk₂
            obtain ⟨v, hv, hrow, -⟩ := h₁
            refine ⟨{ v with settled := true }, (visit_installed_self ..).trans ?_, hrow⟩
            rw [hv]
            rfl
      | true =>
          refine ⟨hi, fun j _ => Keeps.refl j _, ?_⟩
          refine safe_step (fun σ₂ io (replaced : Bool) s hk₂ hi₂ _ he => ?_)
          have h₂ := h₁.keep hk₂
          simp only [exec] at he
          split at he
          · obtain ⟨rfl, rfl⟩ := Prod.mk.inj (Option.some.inj he)
            refine ⟨hi₂.replaced h₂, fun j _ => keeps_replaced _ j, fun σ₃ hk₃ _ => ?_⟩
            exact (h₂.about.keep (keeps_replaced _ i)).keep hk₃
          · obtain ⟨rfl, rfl⟩ := Prod.mk.inj (Option.some.inj he)
            exact ⟨hi₂, fun j _ => Keeps.refl j _, ih h₂⟩

/-- A lookup, and whatever is done with its answer. -/
theorem safe_lookupPrimary {α : Type} {Q : α → State × Past → Prop}
    {f : Option NodeInfo → ClientProg α}
    (hsome : ∀ node σ₁, Inv σ₁ → Told i row node σ₁ →
      (logic rounds env).Safe i () (f (some node)) Q σ₁)
    (hnone : ∀ σ₁, Inv σ₁ → About i row σ₁ → (logic rounds env).Safe i () (f none) Q σ₁) :
    (logic rounds env).Safe i () (act (.lookupPrimary row) >>= f) Q σ := by
  refine safe_step (fun σ₁ io (answer : Option NodeInfo) s _ hi _ he => ?_)
  obtain ⟨-, rfl⟩ := Prod.mk.inj (Option.some.inj he)
  have hi₁ := hi.looked i row answer
  refine ⟨hi₁, fun j hj => keeps_looked hj answer, ?_⟩
  obtain ⟨habout, htold⟩ := told_looked σ₁ i row answer
  cases answer with
  | none => exact hnone _ hi₁ habout
  | some node => exact hsome node _ hi₁ (htold node rfl)

theorem safe_lookupAndInstall (row : Bytes) (σ : State × Past) :
    (logic rounds env).Safe i () (lookupAndInstall rounds row) (fun _ σ' => About i row σ') σ := by
  refine safe_lookupPrimary (fun node σ₁ _ h₁ => safe_installTarget rounds h₁) (fun σ₁ _ h₁ => ?_)
  exact fun σ₂ hk _ => h₁.keep hk

theorem safe_rebuildCurrentPool :
    (logic rounds env).Safe i () rebuildCurrentPool (fun _ σ' => Keeps i σ σ') σ := by
  refine safe_plain (fun io s r s' he => ?_) (fun _ _ => rfl) (fun σ₁ target hk₁ _ => ?_)
  · exact (Prod.mk.inj (Option.some.inj he)).2.symm
  · refine safe_step (f := Prog.ret) (fun σ₂ io r s hk₂ hi₂ _ he => ?_)
    obtain ⟨-, rfl⟩ := Prod.mk.inj (Option.some.inj he)
    refine ⟨⟨?_, ?_, hi₂.reads⟩, ?_, ?_⟩
    · intro p hp
      split at hp
      · rename_i hcur
        rw [if_pos hcur, ← Option.some.inj hp]
        exact hcur.symm
      · rename_i hcur
        rw [if_neg hcur]
        exact hi₂.pool p hp
    · intro j v hv hs
      have := hi₂.settled j v hv hs
      split
      · exact this
      · exact this
    · exact fun j _ v hv => ⟨v.settled, hv⟩
    · exact fun σ₃ hk₃ _ => (hk₁.trans hk₂).trans hk₃

/-- The loop of `get_status` asks nodes that were named. -/
theorem safe_getLoop (row col : Bytes) (left : Nat) (h : About i row σ) :
    (logic rounds env).Safe i () (getLoop rounds row col left) (fun _ _ => True) σ := by
  have hagain : ∀ k σ₁, (∀ σ₂, About i row σ₂ →
      (logic rounds env).Safe i () (getLoop rounds row col k) (fun _ _ => True) σ₂) → Inv σ₁ →
      (logic rounds env).Safe i () (lookupAndInstall rounds row >>= fun _ => getLoop rounds row col k)
        (fun _ _ => True) σ₁ := fun k σ₁ ih hi =>
    Logic.Safe.bind (L := logic rounds env)
      ((safe_lookupAndInstall row σ₁).weaken (fun _ σ₂ _ h₂ _ => ih σ₂ h₂)) hi
  induction left generalizing σ with
  | zero => exact fun _ _ _ => trivial
  | succ k ih =>
      refine safe_step (fun σ₁ io (pool : Option NodeInfo) s hk hi hok he => ?_)
      obtain ⟨rfl, rfl⟩ := Prod.mk.inj (Option.some.inj he)
      refine ⟨hi, fun j _ => Keeps.refl j _, ?_⟩
      have h₁ := h.keep hk
      cases hpool : σ₁.1.pool with
      | none => exact hagain k σ₁ (fun σ₂ h₂ => ih h₂) hi
      | some pool =>
          -- the call is settled, so the pool is one that it was told
          have htold : Told i row pool σ₁ := by
            obtain ⟨v, hv, hs⟩ := hok
            obtain ⟨v', hv', hrow⟩ := h₁
            obtain rfl := Option.some.inj (hv.symm.trans hv')
            have hmem := hi.settled i v hv hs
            rw [← hi.pool pool hpool, hrow] at hmem
            exact ⟨v, hv, hrow, hmem⟩
          refine safe_plain (fun io s r s' he => ?_) (fun _ _ => rfl) (fun σ₂ connected hk₂ hi₂ => ?_)
          · exact (Prod.mk.inj (Option.some.inj he)).2.symm
          · split
            · exact hagain k σ₂ (fun σ₃ h₃ => ih h₃) hi₂
            · refine safe_plain (fun io s r s' he => ?_) (fun _ _ => rfl) (fun σ₃ status hk₃ hi₃ => ?_)
              · exact (Prod.mk.inj (Option.some.inj he)).2.symm
              · split
                · refine Logic.Safe.bind (L := logic rounds env)
                    (safe_rebuildCurrentPool.weaken (fun _ σ₄ hi₄ _ _ => ?_)) hi₃
                  exact hagain k σ₄ (fun σ₅ h₅ => ih h₅) hi₄
                · refine safe_step (fun σ₄ io r s hk₄ hi₄ _ he => ?_)
                  obtain ⟨-, rfl⟩ := Prod.mk.inj (Option.some.inj he)
                  obtain ⟨v, hv, -, hmem⟩ := ((htold.keep hk₂).keep hk₃).keep hk₄
                  refine ⟨⟨hi₄.pool, hi₄.settled, fun q hq => ?_⟩, ?_, fun _ _ _ => trivial⟩
                  · rcases List.mem_cons.mp hq with rfl | hq
                    · show (row, pool) ∈ ((σ₄.2.visit i).map Visit.named).getD []
                      rw [hv]
                      exact hmem
                    · exact hi₄.reads q hq
                  · exact fun j _ v hv => ⟨v.settled, hv⟩

theorem safe_refreshLoop (row : Bytes) (left : Nat) (σ : State × Past) :
    (logic rounds env).Safe i () (refreshLoop rounds row left) (fun _ _ => True) σ := by
  induction left generalizing σ with
  | zero => exact fun _ _ _ => trivial
  | succ k ih =>
      refine safe_lookupPrimary (fun node σ₁ hi₁ h₁ => ?_) (fun σ₁ _ _ => ih σ₁)
      exact Logic.Safe.bind (L := logic rounds env)
        ((safe_installTarget rounds h₁).weaken (fun _ _ _ _ _ _ _ _ => trivial)) hi₁

/-- A pool that is not taken for a read may be anyone's. -/
theorem safe_anyPool {α : Type} {Q : α → State × Past → Prop} {f : Option NodeInfo → ClientProg α}
    (h : ∀ σ₁ pool, Inv σ₁ → (logic rounds env).Safe i () (f pool) Q σ₁) :
    (logic rounds env).Safe i () (act (.snapshotPool false) >>= f) Q σ :=
  safe_plain (fun _ _ _ _ he => (Prod.mk.inj (Option.some.inj he)).2.symm) (fun _ _ => rfl)
    (fun σ₁ pool _ hi => h σ₁ pool hi)

theorem safe_execLoop (row : Bytes) (left : Nat) (σ : State × Past) :
    (logic rounds env).Safe i () (execLoop rounds row left) (fun _ _ => True) σ := by
  induction left generalizing σ with
  | zero => exact fun _ _ _ => trivial
  | succ k ih =>
      have hnext : ∀ (done : Bool) σ₁, Inv σ₁ → (logic rounds env).Safe i ()
          (if done then pure () else do
            let _ ← refreshTargetForRow rounds row
            execLoop rounds row k) (fun _ _ => True) σ₁ := by
        intro done σ₁ hi
        split
        · exact fun _ _ _ => trivial
        · exact Logic.Safe.bind (L := logic rounds env)
            ((safe_refreshLoop row 8 σ₁).weaken (fun _ σ₂ _ _ _ => ih σ₂)) hi
      refine safe_anyPool (fun σ₁ pool hi => ?_)
      cases pool with
      | none => exact hnext false σ₁ hi
      | some pool =>
          refine safe_plain (fun _ _ _ _ he => ?_) (fun _ _ => rfl) (fun σ₂ connected _ hi₂ => ?_)
          · exact (Prod.mk.inj (Option.some.inj he)).2.symm
          · cases connected with
            | false => exact hnext false σ₂ hi₂
            | true =>
                refine safe_plain (fun _ _ _ _ he => ?_) (fun _ _ => rfl) (fun σ₃ done _ hi₃ => ?_)
                · exact (Prod.mk.inj (Option.some.inj he)).2.symm
                · cases done with
                  | true => exact hnext true σ₃ hi₃
                  | false =>
                      exact Logic.Safe.bind (L := logic rounds env)
                        (safe_rebuildCurrentPool.weaken (fun _ σ₄ hi₄ _ _ => hnext false σ₄ hi₄)) hi₃

theorem safe_ping (σ : State × Past) :
    (logic rounds env).Safe i () ping (fun _ _ => True) σ := by
  refine safe_anyPool (fun σ₁ pool _ => ?_)
  cases pool with
  | none => exact fun _ _ _ => trivial
  | some pool =>
      refine safe_plain (fun _ _ _ _ he => ?_) (fun _ _ => rfl) (fun σ₂ connected _ _ => ?_)
      · exact (Prod.mk.inj (Option.some.inj he)).2.symm
      · split
        · exact fun _ _ _ => trivial
        · refine safe_plain (fun _ _ _ _ he => ?_) (fun _ _ => rfl) (fun σ₃ ok _ _ => ?_)
          · exact (Prod.mk.inj (Option.some.inj he)).2.symm
          · split
            · exact safe_rebuildCurrentPool.weaken (fun _ _ _ _ => trivial)
            · exact fun _ _ _ => trivial

/-- Every call is safe. -/
theorem safe_main (c : Call) (hi : Inv σ) :
    (logic rounds env).Safe i () (c.main rounds) (fun _ _ => True) σ := by
  cases c with
  | get row col =>
      refine Logic.Safe.bind (L := logic rounds env) ?_ hi
      refine Logic.Safe.bind (L := logic rounds env) ?_ hi
      refine (safe_lookupAndInstall row σ).weaken (fun _ σ₁ _ h₁ _ => ?_)
      exact (safe_getLoop row col 8 h₁).weaken (fun _ _ _ _ _ _ _ _ => trivial)
  | write row =>
      refine Logic.Safe.bind (L := logic rounds env) ((safe_refreshLoop row 8 σ).weaken ?_) hi
      intro found σ₁ _ _ _
      split
      · exact safe_execLoop row 8 σ₁
      · exact fun _ _ _ => trivial
  | ping => exact safe_ping σ

end Programs

/--
**Reads ask nodes that were named.**

In every run of any number of calls, from any target and whatever the other processes
answer: if every `get_status` takes its pool while the target is the one its own call has
installed, every answer it returns came from a node that a lookup for the row had named.
-/
theorem honestReads_of_reach (rounds : Nat) (env : Env) (start : NodeInfo) {c : Config (watched rounds env)}
    (h : Reach (⟨start, some start⟩, Past.init) (When Settled) c) : ∀ r ∈ c.st.2.reads, r.Honest := by
  have h0 : Inv (⟨start, some start⟩, Past.init) :=
    ⟨fun p hp => (Option.some.inj hp).symm, nofun, fun _ hr => absurd hr List.not_mem_nil⟩
  exact (Logic.sound (L := logic rounds env) (fun _ _ => trivial) h0 (fun r i σ hi => safe_main r hi)
    (fun _ c => c.elim) h).inv.reads

/-! ## Two calls -/

section Two

/-- Two nodes, and two rows that are theirs. -/
def nodeA : NodeInfo := ⟨[97], 1⟩

def nodeB : NodeInfo := ⟨[98], 1⟩

def rowA : Bytes := [97]

def rowB : Bytes := [98]

/-- Everybody answers; the nodes have no cells. -/
def twoNodes : Env where
  lookup := fun _ row => some (if row = rowA then nodeA else nodeB)
  connects := fun _ _ => true
  get := fun _ _ _ _ => .notFound
  write := fun _ _ _ => true
  ping := fun _ _ => true

/-- The condition, tested. -/
def settledTest (i : Nat) (_ : Unit) (_ : Nat) (a : Act) (σ : State × Past) : Bool :=
  match a with
  | .snapshotPool true => (σ.2.visit i).any Visit.settled
  | _ => true

theorem settled_of_test (i : Nat) (l : Unit) (io : Nat) (a : Act) (σ : State × Past)
    (h : settledTest i l io a σ = true) : Settled i l io a σ := by
  unfold settledTest at h
  unfold Settled
  split at h
  · obtain ⟨v, hv, hs⟩ := (Option.any_eq_true _ _).mp h
    exact ⟨v, hv, hs⟩
  · trivial

/-- The first call has its pool when the second replaces the target. -/
def replaced : List (Line (watched 1 twoNodes)) :=
  [.move (.start (.get rowA [])), .drive (fun c => c.elim) 4 0,
   .move (.start (.get rowB [])), .drive (fun c => c.elim) 3 1,
   .drive (fun c => c.elim) 20 0, .drive (fun c => c.elim) 20 1]

theorem honestReads_of_reach_replaced : ∃ c : Config (watched 1 twoNodes),
    c.st.2.reads.map Read.node = [nodeB, nodeA] ∧ ∀ r ∈ c.st.2.reads, r.Honest := by
  obtain ⟨c, hr, hc⟩ := reach_of_play (when_of_test settled_of_test) (⟨nodeB, some nodeB⟩, Past.init) replaced
    (fun σ => decide (σ.2.reads.map Read.node = [nodeB, nodeA])) (by decide +kernel)
  exact ⟨c, of_decide_eq_true hc, honestReads_of_reach 1 twoNodes nodeB hr⟩

/-- The first call looks up its row and installs the node; then the second does; then the
first asks. -/
def crossed : List (Line (watched 1 twoNodes)) :=
  [.move (.start (.get rowA [])), .drive (fun c => c.elim) 3 0,
   .move (.start (.get rowB [])), .drive (fun c => c.elim) 3 1,
   .drive (fun c => c.elim) 20 0]

/-- **The first call returns what the second one's node says.** -/
theorem not_honest_crossed : ¬ ∀ c : Config (watched 1 twoNodes),
    Reach (⟨nodeB, some nodeB⟩, Past.init) Always c → ∀ r ∈ c.st.2.reads, r.Honest := by
  intro h
  obtain ⟨c, hr, hc⟩ := reach_always_of_play (⟨nodeB, some nodeB⟩, Past.init) crossed
    (fun σ => σ.2.reads.any (fun r => decide (r.row = rowA ∧ r.node = nodeB ∧ r.named = [(rowA, nodeA)])))
    (by decide +kernel)
  obtain ⟨r, hmem, hr'⟩ := List.any_eq_true.mp hc
  obtain ⟨hrow, hnode, hnamed⟩ := of_decide_eq_true hr'
  have hbad := h c hr r hmem
  rw [Read.Honest, hrow, hnode, hnamed] at hbad
  exact absurd hbad (by decide)

end Two

end NCloud.Targets
