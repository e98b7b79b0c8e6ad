import NCloud.Coordinator.Heartbeat

/-!
# Storage nodes that restart

The coordinator and the processes of its storage nodes as one system: ticks of
`heartbeat_loop`, lookups, and nodes that start again with another PID. An entry of
`nodes_` is written by both ticks and lookups, each from a copy of its own, so a PID may
have changed since the copy was made that it is compared with.
-/

namespace NCloud.Coordinator.Restarts

open Process Wire

/-! ## The system -/

/-- Where a thread runs. -/
inductive Place where
  | coord
  | node (n : NodeId)
  deriving DecidableEq

/-- What the storage nodes are like. No two processes of a node have the same PID. -/
structure Nodes where
  /-- The PID of each process of a node. -/
  pid : NodeId → Nat → Nat
  pid_pos : ∀ n g, 0 < pid n g
  pid_inj : ∀ n, Function.Injective (pid n)
  /-- Whether the `k`-th request is answered with `+OK`. -/
  accepts : Nat → Bool
  /-- The LSNs in the `k`-th answer. -/
  lsn : Nat → Option Nat
  tabletLsns : Nat → List (TabletName × Nat)

/-- What is done to the coordinator's state and by a storage node. -/
inductive SysAct where
  | coord (a : Act)
  | answer (c : Call)

/-- The signature of both. -/
def sysSig : Sig where
  Act := SysAct
  Res := fun
    | .coord a => a.Res
    | .answer _ => Reply
  Call := Call
  Reply := Reply

/-- The coordinator's programs among all. -/
def coordHom : Hom sig sysSig where
  act := .coord
  res := fun _ r => r
  call := id
  reply := id

/-- The state. -/
structure World where
  tables : Tables
  /-- The thread that is in a tick: there is one `heartbeat_loop`. -/
  awake : Option Nat
  /-- How often each node has been restarted. -/
  gen : NodeId → Nat
  /-- How many requests have been answered. -/
  served : Nat

/-- Which node a request is for. -/
def target : Call → NodeId
  | .ping n => n
  | .connectRepl n => n
  | .becomePrimary n _ => n
  | .becomeSecondary n _ _ => n
  | .addReplica n _ _ => n

namespace World

/-- The PID of the process that runs on a node. -/
def pid (N : Nodes) (w : World) (n : NodeId) : Nat := N.pid n (w.gen n)

/-- The answer of a node. -/
def answer (N : Nodes) (w : World) (n : NodeId) : Call → Reply
  | .ping _ =>
      if N.accepts w.served then .pong ⟨N.lsn w.served, N.tabletLsns w.served, w.pid N n⟩ else .err
  | _ => if N.accepts w.served then .ok else .err

/-- What an action does; `none` means that the thread has to wait. -/
def exec (N : Nodes) (i : Nat) (l : Place) (_ : Nat) (a : SysAct) (w : World) : Option (sysSig.Res a × World) :=
  match l, a with
  | .coord, .coord .wake => if w.awake = none then some ((), { w with awake := some i }) else none
  | .coord, .coord .sleep => some ((), { w with awake := none })
  | .coord, .coord a => some ((Coordinator.exec a w.tables).1, { w with tables := (Coordinator.exec a w.tables).2 })
  | .node n, .answer c => some (w.answer N n c, { w with served := w.served + 1 })
  | _, _ => none

/-- Another process starts. -/
def restart (l : Place) (w : World) : World :=
  match l with
  | .node n => { w with gen := Function.update w.gen n (w.gen n + 1) }
  | .coord => w

end World

/-- What can be started from outside. -/
inductive Root where
  | tick
  | lookup (row : Bytes)
  | readLookup (row : Bytes)

/-- The programs of the coordinator that these run. -/
def Root.prog (thresh : Nat) (sort : List Candidate → List Candidate) : Root → CoordProg Unit
  | .tick => heartbeat thresh sort
  | .lookup row => do
      let _ ← handleLookup row
  | .readLookup row => do
      let _ ← handleReadLookup row

/-- What is written down: of each node, whether the process that runs has answered a
ping, whether `handle_node_recovery` has been called since, and the first PID that
entered the table; and the nodes it will be called for in this tick. -/
structure Past where
  answered : NodeId → Bool
  recovered : NodeId → Bool
  first : NodeId → Option Nat
  pending : List NodeId

namespace Past

/-- Nothing yet. -/
def init : Past := ⟨fun _ => false, fun _ => false, fun _ => none, []⟩

/-- An entry is written. -/
def enter (p : Past) (node : StorageNode) : Past :=
  { p with first := fun n =>
      if n = node.id ∧ 0 < node.processId ∧ p.first n = none then some node.processId else p.first n }

/-- The coordinator has done an action. -/
def noteCoord (p : Past) : Act → Past
  | .store node => p.enter node
  | .writeBack copy node live =>
      { p.enter node with pending := if live then p.pending ++ [copy.id] else p.pending }
  | .recovering n =>
      { p with
        pending := p.pending.erase n
        recovered := Function.update p.recovered n (p.recovered n || p.answered n) }
  | _ => p

/-- A node has answered. -/
def noteAnswer (p : Past) (n : NodeId) : Reply → Past
  | .pong _ => { p with answered := Function.update p.answered n true }
  | _ => p

/-- A node has been restarted. -/
def restart (p : Past) : Place → Past
  | .node n =>
      { p with answered := Function.update p.answered n false, recovered := Function.update p.recovered n false }
  | .coord => p

end Past

section System

variable (N : Nodes) (thresh : Nat) (sort : List Candidate → List Candidate)

/-- The coordinator and its nodes. -/
def system : System sysSig where
  St := World
  Loc := Place
  Root := Root
  place := fun _ => .coord
  main := fun r => (r.prog thresh sort).lift coordHom
  target := fun c => .node (target c)
  handler := fun c => perform (S := sysSig) (.answer c)
  exec := World.exec N
  sent := fun _ _ w => w
  lost := fun _ w => w
  mortal := fun l => decide (l ≠ .coord)
  restart := World.restart

/-- Its history. -/
def observer : Observer (system N thresh sort) where
  Past := Past
  note := fun _ l a r _ _ p =>
    match l, a, r with
    | .coord, .coord a, _ => p.noteCoord a
    | .node n, .answer _, r => p.noteAnswer n r
    | _, _, _ => p
  sent := fun _ _ _ p => p
  lost := fun _ p => p
  restart := fun l p => p.restart l

/-- Both. -/
abbrev watched : System sysSig := (system N thresh sort).observe (observer N thresh sort)

instance : DecidableEq (watched N thresh sort).Loc := inferInstanceAs (DecidableEq Place)

end System

/-- Where a run starts: the tables of `load_config`, and the first process on each node. -/
def start (tables : Tables) : World × Past := (⟨tables, none, fun _ => 0, 0⟩, Past.init)

/-- `load_config` leaves these as they are declared. -/
def Loaded (tables : Tables) : Prop :=
  ∀ e ∈ tables.nodes, e.processId = 0 ∧ e.alive = true ∧ e.wasDown = false

/-- The condition on a step: the PID of an entry is only replaced by the write-back of a
ping that has compared the two. -/
def Compared (_ : Nat) (_ : Place) (_ : Nat) (a : SysAct) (σ : World × Past) : Prop :=
  match a with
  | .coord (.store node) => ∀ e, find σ.1.tables.nodes node.id = some e →
      e.processId = 0 ∨ e.processId = node.processId
  | .coord (.writeBack copy node _) => ∀ e, find σ.1.tables.nodes node.id = some e →
      e.processId = 0 ∨ e.processId = node.processId ∨ e.processId = copy.processId
  | _ => True

/-! ## What holds of the table -/

section Invariant

variable (N : Nodes)

/-- A PID that a node can have told the coordinator. -/
def Known (σ : World × Past) (n : NodeId) (pid : Nat) : Prop :=
  pid = 0 ∨ ∃ g, pid = N.pid n g ∧ (g < σ.1.gen n ∨ g = σ.1.gen n ∧ σ.2.answered n = true)

/-- The roles of the process have been applied again, or will be in this tick, or were
when the coordinator started. -/
def Covered (σ : World × Past) (n : NodeId) (pid : Nat) : Prop :=
  σ.2.recovered n = true ∨ σ.2.first n = some pid ∨ n ∈ σ.2.pending

/-- The invariant. -/
structure Inv (σ : World × Past) : Prop where
  known : ∀ e ∈ σ.1.tables.nodes, Known N σ e.id e.processId
  flags : ∀ e ∈ σ.1.tables.nodes, e.wasDown = !e.alive
  first : ∀ n e, find σ.1.tables.nodes n = some e → (e.processId = 0 ↔ σ.2.first n = none)
  covered : ∀ n e, find σ.1.tables.nodes n = some e → e.processId = σ.1.pid N n → Covered σ n e.processId
  asleep : σ.1.awake = none → σ.2.pending = []

/-- A node that has not been found to have failed. -/
def Up (σ : World × Past) (n : NodeId) : Prop := ∀ e ∈ σ.1.tables.nodes, e.id = n → e.wasDown = false

/-- What a tick knows: it is the only one, these calls are left to it, and these nodes
have answered it. -/
structure Held (i : Nat) (ps : List NodeId) (us : NodeId → Prop) (σ : World × Past) : Prop where
  awake : σ.1.awake = some i
  pending : σ.2.pending = ps
  up : ∀ n, us n → Up σ n

variable {N} {σ σ' : World × Past} {w : World} {p : Past} {i : Nat} {ps : List NodeId} {us us' : NodeId → Prop}

theorem Held.mono (h : Held i ps us σ) (hus : ∀ n, us' n → us n) : Held i ps us' σ :=
  ⟨h.awake, h.pending, fun n hn => h.up n (hus n hn)⟩

/-- A PID of the process that runs comes from its answer. -/
theorem answered_of_known {n : NodeId} {pid : Nat} (h : Known N σ n pid) (hpid : pid = σ.1.pid N n) :
    σ.2.answered n = true := by
  subst hpid
  rcases h with hzero | ⟨g, hg, hlt | ⟨-, hans⟩⟩
  · exact absurd hzero (Nat.ne_of_gt (N.pid_pos _ _))
  · exact absurd (N.pid_inj n hg) (Nat.ne_of_gt hlt)
  · exact hans

/-- What the coordinator knows is no PID of a process that starts now. -/
theorem ne_of_known_restart {n : NodeId} {pid : Nat} (h : Known N (w, p) n pid) :
    pid ≠ (w.restart (.node n)).pid N n := by
  have hpid : (w.restart (.node n)).pid N n = N.pid n (w.gen n + 1) :=
    congrArg (N.pid n) (Function.update_self ..)
  rw [hpid]
  rcases h with rfl | ⟨g, rfl, hg⟩
  · exact Nat.ne_of_lt (N.pid_pos _ _)
  · intro heq
    have hgen := N.pid_inj n heq
    have hcur : (w, p).1.gen n = w.gen n := rfl
    omega

theorem Known.restart {n : NodeId} {pid : Nat} (h : Known N (w, p) n pid) (l : Place) :
    Known N (w.restart l, p.restart l) n pid := by
  rcases h with hzero | ⟨g, hpid, hg⟩
  · exact .inl hzero
  · refine .inr ⟨g, hpid, ?_⟩
    cases l with
    | coord => exact hg
    | node m =>
        show g < Function.update w.gen m (w.gen m + 1) n ∨
          g = Function.update w.gen m (w.gen m + 1) n ∧ Function.update p.answered m false n = true
        have hcur : (w, p).1.gen n = w.gen n := rfl
        by_cases hn : n = m
        · subst hn
          rw [Function.update_self]
          exact .inl (by omega)
        · rw [Function.update_of_ne hn, Function.update_of_ne hn]
          exact hg

/-! ### Writing an entry -/

theorem mem_update {c : Tables} {id : NodeId} {f : StorageNode → StorageNode} {e : StorageNode}
    (h : e ∈ (c.update id f).nodes) : (e ∈ c.nodes ∧ e.id ≠ id) ∨ ∃ e' ∈ c.nodes, e'.id = id ∧ e = f e' := by
  obtain ⟨e', he', rfl⟩ := List.mem_map.mp h
  by_cases hid : e'.id = id
  · rw [if_pos hid]
    exact .inr ⟨e', he', hid, rfl⟩
  · rw [if_neg hid]
    exact .inl ⟨he', hid⟩

/-- **An entry is written back or cached.** Its PID has been compared, or there was none. -/
theorem Inv.enter (h : Inv N (w, p)) (node : StorageNode) (pending : List NodeId)
    (hknown : Known N (w, p) node.id node.processId) (hflags : node.wasDown = !node.alive)
    (hzero : node.processId = 0 → ∀ e, find w.tables.nodes node.id = some e → e.processId = 0)
    (hnew : ∀ e, find w.tables.nodes node.id = some e → e.processId ≠ 0 → e.processId ≠ node.processId →
      node.id ∈ pending)
    (hpending : p.pending ⊆ pending) (hasleep : w.awake = none → pending = []) :
    Inv N ({ w with tables := w.tables.update node.id (fun e => e.writeBack node) },
      { p.enter node with pending := pending }) := by
  have hfind := find_writeBack w.tables node
  have hfirst : ∀ n pid, p.first n = some pid → (p.enter node).first n = some pid := by
    intro n pid hn
    refine (if_neg fun hand => ?_).trans hn
    exact absurd (hn.symm.trans hand.2.2) nofun
  have hcover : ∀ n e, find w.tables.nodes n = some e → e.processId = w.pid N n →
      Covered (w, { p.enter node with pending := pending }) n e.processId := by
    intro n e he hpid
    rcases h.covered n e he hpid with hrec | hone | hmem
    · exact .inl hrec
    · exact .inr (.inl (hfirst n _ hone))
    · exact .inr (.inr (hpending hmem))
  refine ⟨?_, ?_, ?_, ?_, hasleep⟩
  · intro e he
    rcases mem_update he with ⟨hold, -⟩ | ⟨e', -, hid, rfl⟩
    · exact h.known e hold
    · show Known N _ e'.id node.processId
      rw [hid]
      exact hknown
  · intro e he
    rcases mem_update he with ⟨hold, -⟩ | ⟨e', -, -, rfl⟩
    · exact h.flags e hold
    · exact hflags
  · intro n e he
    have he := (hfind n).symm.trans he
    by_cases hn : n = node.id
    · subst hn
      rw [if_pos rfl] at he
      obtain ⟨e', he', rfl⟩ := Option.map_eq_some_iff.mp he
      show node.processId = 0 ↔ (if _ then _ else _) = none
      have hold := h.first node.id e' he'
      by_cases hpos : node.processId = 0
      · have hnone := hold.mp (hzero hpos e' he')
        rw [if_neg (fun hand => absurd hand.2.1 (by omega))]
        exact iff_of_true hpos hnone
      · refine iff_of_false hpos ?_
        split
        · exact nofun
        · rename_i hnot
          exact fun hnone => hnot ⟨rfl, by omega, hnone⟩
    · rw [if_neg hn] at he
      show e.processId = 0 ↔ (if _ then _ else _) = none
      rw [if_neg (fun hand => hn hand.1)]
      exact h.first n e he
  · intro n e he hpid
    have he := (hfind n).symm.trans he
    by_cases hn : n = node.id
    · subst hn
      rw [if_pos rfl] at he
      obtain ⟨e', he', rfl⟩ := Option.map_eq_some_iff.mp he
      have hpid : node.processId = w.pid N node.id := hpid
      show Covered _ node.id node.processId
      by_cases hsame : e'.processId = node.processId
      · -- the entry had this PID before
        rw [← hsame]
        exact hcover node.id e' he' (hsame.trans hpid)
      · by_cases hold : e'.processId = 0
        · -- the first PID that is heard from this node
          refine .inr (.inl (if_pos ⟨rfl, ?_, (h.first node.id e' he').mp hold⟩))
          rw [hpid]
          exact N.pid_pos _ _
        · exact .inr (.inr (hnew e' he' hold hsame))
    · rw [if_neg hn] at he
      exact hcover n e he hpid

/-- An entry is marked alive that is not marked down. -/
theorem Inv.markAlive (h : Inv N (w, p)) {id : NodeId} (hup : Up (w, p) id) (tablets : List TabletGroup) :
    Inv N ({ w with tables :=
      { w.tables with tablets := tablets }.update id (fun e => { e with alive := true }) }, p) := by
  have hfind := find_markAlive { w.tables with tablets := tablets } id
  have hold : ∀ n e, find ({ w.tables with tablets := tablets }.update id
      (fun e => { e with alive := true })).nodes n = some e →
      ∃ e', find w.tables.nodes n = some e' ∧ e.processId = e'.processId := by
    intro n e he
    have he := (hfind n).symm.trans he
    split at he
    · obtain ⟨e', he', rfl⟩ := Option.map_eq_some_iff.mp he
      exact ⟨e', he', rfl⟩
    · exact ⟨e, he, rfl⟩
  refine ⟨?_, ?_, ?_, ?_, h.asleep⟩
  · intro e he
    rcases mem_update he with ⟨hmem, -⟩ | ⟨e', hmem, -, rfl⟩
    · exact h.known e hmem
    · exact h.known e' hmem
  · intro e he
    rcases mem_update he with ⟨hmem, -⟩ | ⟨e', hmem, hid, rfl⟩
    · exact h.flags e hmem
    · exact hup e' hmem hid
  · intro n e he
    obtain ⟨e', he', hpid⟩ := hold n e he
    rw [hpid]
    exact h.first n e' he'
  · intro n e he hcur
    obtain ⟨e', he', hpid⟩ := hold n e he
    rw [hpid] at hcur ⊢
    exact h.covered n e' he' hcur

/-- `handle_node_recovery` is called. -/
theorem Inv.recovering (h : Inv N (w, p)) (id : NodeId) (hawake : w.awake ≠ none) :
    Inv N (w, p.noteCoord (.recovering id)) := by
  refine ⟨h.known, h.flags, h.first, ?_, fun hnone => absurd hnone hawake⟩
  intro n e he hpid
  have hans := answered_of_known (h.known e (List.mem_of_find?_eq_some he)) (by rw [id_of_find he]; exact hpid)
  rw [id_of_find he] at hans
  by_cases hn : n = id
  · subst hn
    refine .inl ?_
    show Function.update p.recovered n (p.recovered n || p.answered n) n = true
    have hans : p.answered n = true := hans
    rw [Function.update_self, hans, Bool.or_true]
  · rcases h.covered n e he hpid with hrec | hone | hmem
    · refine .inl ?_
      show Function.update p.recovered id _ n = true
      rw [Function.update_of_ne hn]
      exact hrec
    · exact .inr (.inl hone)
    · exact .inr (.inr ((List.mem_erase_of_ne hn).mpr hmem))

/-- A node restarts: what the table holds of it is the PID of another process. -/
theorem Inv.restart (h : Inv N (w, p)) (l : Place) : Inv N (w.restart l, p.restart l) := by
  cases l with
  | coord => exact h
  | node m =>
      refine ⟨fun e he => (h.known e he).restart (.node m), h.flags, h.first, ?_, h.asleep⟩
      intro n e he hpid
      by_cases hn : n = m
      · subst hn
        have hknown := h.known e (List.mem_of_find?_eq_some he)
        rw [id_of_find he] at hknown
        exact absurd hpid (ne_of_known_restart hknown)
      · have hsame : (w.restart (.node m)).pid N n = w.pid N n :=
          congrArg (N.pid n) (Function.update_of_ne hn ..)
        rcases h.covered n e he (hpid.trans hsame) with hrec | hone | hmem
        · refine .inl ?_
          show Function.update p.recovered m false n = true
          rw [Function.update_of_ne hn]
          exact hrec
        · exact .inr (.inl hone)
        · exact .inr (.inr hmem)

end Invariant

/-! ## The logic -/

section Runs

variable (N : Nodes) (thresh : Nat) (sort : List Candidate → List Candidate)

/-- The answer to a ping has the PID of a process that has answered one. -/
def Told (σ : World × Past) : Call → Reply → Prop
  | .ping n, .pong info => 0 < info.pid ∧ Known N σ n info.pid
  | _, _ => True

/-- The logic. A tick relies on nobody else calling `handle_node_recovery` or marking a
node down. -/
def logic : Logic (watched N thresh sort) where
  Inv := Inv N
  Step := fun σ σ' => ∀ n pid, Known N σ n pid → Known N σ' n pid
  Rely := fun i _ σ σ' => (∀ n pid, Known N σ n pid → Known N σ' n pid)
    ∧ (σ.1.awake = some i → σ'.1.awake = some i ∧ σ'.2.pending = σ.2.pending ∧ ∀ n, Up σ n → Up σ' n)
  Ok := Compared
  Req := fun _ _ _ => True
  Rep := fun c r σ => Told N σ c r
  step_refl := fun _ _ _ h => h
  rely_step := fun h => h.1
  rely_refl := fun _ _ _ => ⟨fun _ _ h => h, fun h => ⟨h, rfl, fun _ hn => hn⟩⟩
  rely_trans := fun h₁ h₂ => ⟨fun n pid h => h₂.1 n pid (h₁.1 n pid h), fun h =>
    ⟨(h₂.2 (h₁.2 h).1).1, (h₂.2 (h₁.2 h).1).2.1.trans (h₁.2 h).2.1,
      fun n hn => (h₂.2 (h₁.2 h).1).2.2 n ((h₁.2 h).2.2 n hn)⟩⟩
  req_stable := fun _ _ => trivial
  rep_stable := by
    intro c r σ σ' hs hr
    cases c with
    | ping n =>
        cases r with
        | pong info => exact ⟨hr.1, hs n info.pid hr.2⟩
        | _ => trivial
    | _ => trivial
  sent_ok := fun h => ⟨h, fun _ _ hk => hk, fun _ _ _ => ⟨fun _ _ hk => hk, fun ha => ⟨ha, rfl, fun _ hn => hn⟩⟩⟩
  lost_ok := fun h => ⟨h, fun _ _ hk => hk, fun _ _ _ => ⟨fun _ _ hk => hk, fun ha => ⟨ha, rfl, fun _ hn => hn⟩⟩⟩
  restart_ok := by
    intro l σ h _
    have hknown : ∀ n pid, Known N σ n pid → Known N (σ.1.restart l, σ.2.restart l) n pid :=
      fun n pid hk => hk.restart l
    refine ⟨h.restart l, hknown, fun i l' _ => ⟨hknown, fun ha => ?_⟩⟩
    cases l with
    | coord => exact ⟨ha, rfl, fun _ hn => hn⟩
    | node m => exact ⟨ha, rfl, fun _ hn => hn⟩

variable {N thresh sort} {i : Nat} {σ σ' : World × Past} {ps : List NodeId} {us us' : NodeId → Prop} {α β : Type}

theorem Held.rely {l : Place} (h : Held i ps us σ) (hr : (logic N thresh sort).Rely i l σ σ') : Held i ps us σ' := by
  obtain ⟨hawake, hpending, hup⟩ := hr.2 h.awake
  exact ⟨hawake, hpending.trans h.pending, fun n hn => hup n (h.up n hn)⟩

/-! ## Actions of the coordinator -/

/-- An action that is neither `wake` nor `sleep`. -/
theorem exec_coord {io : Nat} {a : Act} {r : a.Res} (hwake : a ≠ .wake) (hsleep : a ≠ .sleep)
    (h : (watched N thresh sort).exec i .coord io (.coord a) σ = some (r, σ')) :
    r = (exec a σ.1.tables).1 ∧ σ' = ({ σ.1 with tables := (exec a σ.1.tables).2 }, σ.2.noteCoord a) := by
  obtain ⟨w, hw, rfl⟩ := System.exec_observe h
  have hexec : World.exec N i .coord io (.coord a) σ.1 = some ((exec a σ.1.tables).1, { σ.1 with tables := (exec a σ.1.tables).2 }) := by
    cases a with
    | wake => exact absurd rfl hwake
    | sleep => exact absurd rfl hsleep
    | _ => rfl
  obtain ⟨rfl, rfl⟩ := Prod.mk.inj (Option.some.inj (hexec.symm.trans hw))
  exact ⟨rfl, rfl⟩

/-- Only the tables and the notes change, and by none but a tick. -/
theorem change_tick {w : World} {p p' : Past} (tables : Tables) (h : Inv N ({ w with tables := tables }, p'))
    (hawake : w.awake = some i) (hans : p'.answered = p.answered) :
    (logic N thresh sort).Change i (w, p) ({ w with tables := tables }, p') := by
  have hknown : ∀ n pid, Known N (w, p) n pid → Known N ({ w with tables := tables }, p') n pid := by
    intro n pid hk
    rcases hk with hzero | ⟨g, hg, hlt | ⟨hgen, ha⟩⟩
    · exact .inl hzero
    · exact .inr ⟨g, hg, .inl hlt⟩
    · refine .inr ⟨g, hg, .inr ⟨hgen, ?_⟩⟩
      show p'.answered n = true
      rw [hans]
      exact ha
  refine ⟨h, hknown, fun i' _ hne => ⟨hknown, fun ha => ?_⟩⟩
  exact absurd (Option.some.inj (ha.symm.trans hawake)) hne

/-- Reading. -/
theorem runs_read {a : Act} {io : Nat} {r : a.Res} (hread : ∀ c, (exec a c).2 = c) (hnote : ∀ p : Past, p.noteCoord a = p)
    (hwake : a ≠ .wake) (hsleep : a ≠ .sleep) (hi : Inv N σ)
    (he : (watched N thresh sort).exec i .coord io (.coord a) σ = some (r, σ')) :
    (logic N thresh sort).Change i σ σ' ∧ σ' = σ ∧ r = (exec a σ.1.tables).1 := by
  obtain ⟨hr, rfl⟩ := exec_coord hwake hsleep he
  have hsame : (({ σ.1 with tables := (exec a σ.1.tables).2 }, σ.2.noteCoord a) : World × Past) = σ := by
    rw [hread, hnote]
  rw [hsame]
  exact ⟨⟨hi, fun _ _ hk => hk, fun _ _ _ => ⟨fun _ _ hk => hk, fun ha => ⟨ha, rfl, fun _ hn => hn⟩⟩⟩, rfl, hr⟩

/-- `cache_refreshed_node`: the node is up, and so are those that were. -/
theorem change_store {node : StorageNode} {io : Nat} {r : Unit} (hi : Inv N σ)
    (hok : Compared i .coord io (.coord (.store node)) σ) (hpos : 0 < node.processId)
    (hknown : Known N σ node.id node.processId) (halive : node.alive = true) (hdown : node.wasDown = false)
    (he : (watched N thresh sort).exec i .coord io (.coord (.store node)) σ = some (r, σ')) :
    (logic N thresh sort).Change i σ σ' ∧ σ'.1.awake = σ.1.awake ∧ σ'.2.pending = σ.2.pending ∧
      (∀ n, Up σ n → Up σ' n) ∧ Up σ' node.id := by
  obtain ⟨w, p⟩ := σ
  obtain ⟨-, rfl⟩ := exec_coord (a := .store node) nofun nofun he
  have hup : ∀ n, Up (w, p) n ∨ n = node.id →
      Up ({ w with tables := w.tables.update node.id (fun e => e.writeBack node) }, p.enter node) n := by
    intro n hn e he hid
    rcases mem_update he with ⟨hold, hne⟩ | ⟨e', -, -, rfl⟩
    · rcases hn with hn | rfl
      · exact hn e hold hid
      · exact absurd hid hne
    · exact hdown
  have hinv := hi.enter node p.pending hknown (by rw [halive, hdown]; rfl)
    (fun hzero => absurd hzero (Nat.ne_of_gt hpos))
    (fun e he hne hdiff => absurd (hok e he) (not_or.mpr ⟨hne, hdiff⟩)) (List.Subset.refl _) hi.asleep
  have hkn : ∀ n pid, Known N (w, p) n pid → Known N
      ({ w with tables := w.tables.update node.id (fun e => e.writeBack node) }, p.enter node) n pid :=
    fun _ _ hk => hk
  exact ⟨⟨hinv, hkn, fun i' _ _ => ⟨hkn, fun ha => ⟨ha, rfl, fun n hn => hup n (.inl hn)⟩⟩⟩, rfl, rfl,
    fun n hn => hup n (.inl hn), hup node.id (.inr rfl)⟩

/-- A section of a tick that marks a node alive which has answered it. -/
theorem change_markAlive {a : Act} {id : NodeId} {tablets : List TabletGroup} {io : Nat} {r : a.Res}
    (hi : Inv N σ) (h : Held i ps us σ) (hup : us id)
    (ha : (exec a σ.1.tables).2 = { σ.1.tables with tablets := tablets }.update id (fun e => { e with alive := true }))
    (hnote : ∀ p : Past, p.noteCoord a = p) (hwake : a ≠ .wake) (hsleep : a ≠ .sleep)
    (he : (watched N thresh sort).exec i .coord io (.coord a) σ = some (r, σ')) :
    (logic N thresh sort).Change i σ σ' ∧ Held i ps us σ' := by
  obtain ⟨w, p⟩ := σ
  obtain ⟨-, rfl⟩ := exec_coord hwake hsleep he
  rw [ha, hnote]
  refine ⟨change_tick _ (hi.markAlive (h.up id hup) tablets) h.awake rfl, h.awake, h.pending, ?_⟩
  intro n hn e he hid
  rcases mem_update he with ⟨hold, -⟩ | ⟨e', hold, hid', rfl⟩
  · exact h.up n hn e hold hid
  · exact h.up n hn e' hold hid

/-! ## The coordinator's programs -/

/-- A program of the coordinator runs safely. -/
def Runs (N : Nodes) (thresh : Nat) (sort : List Candidate → List Candidate) (i : Nat) (p : CoordProg α)
    (Q : α → World × Past → Prop) (σ : World × Past) : Prop :=
  (logic N thresh sort).Safe i .coord (p.lift coordHom) Q σ

/-- What a thread knows and others leave alone. -/
def Stable (N : Nodes) (thresh : Nat) (sort : List Candidate → List Candidate) (i : Nat)
    (R : World × Past → Prop) : Prop :=
  ∀ σ σ', (logic N thresh sort).Rely i .coord σ σ' → R σ → R σ'

theorem stable_held : Stable N thresh sort i (Held i ps us) := fun _ _ hr h => h.rely hr

theorem stable_true : Stable N thresh sort i (fun _ => True) := fun _ _ _ _ => trivial

theorem Runs.bind {p : CoordProg α} {f : α → CoordProg β} {Q : α → World × Past → Prop}
    {R : β → World × Past → Prop} (hp : Runs N thresh sort i p Q σ) (hi : Inv N σ)
    (hf : ∀ a σ', Inv N σ' → Q a σ' → Runs N thresh sort i (f a) R σ') : Runs N thresh sort i (p >>= f) R σ := by
  rw [Runs, Prog.lift_bind]
  exact Logic.Safe.bind (L := logic N thresh sort) (Logic.Safe.weaken hp fun a σ' hi' hq _ => hf a σ' hi' hq) hi

theorem Runs.weaken {p : CoordProg α} {Q Q' : α → World × Past → Prop} (hp : Runs N thresh sort i p Q σ)
    (hQ : ∀ a σ, Q a σ → Q' a σ) : Runs N thresh sort i p Q' σ :=
  Logic.Safe.weaken hp fun a σ _ h => hQ a σ h

theorem Runs.done {a : α} {R : World × Past → Prop} {Q : α → World × Past → Prop}
    (hR : Stable N thresh sort i R) (h : R σ) (hQ : ∀ σ, R σ → Q a σ) : Runs N thresh sort i (pure a) Q σ :=
  fun σ' hr _ => hQ σ' (hR σ σ' hr h)

/-- Any request but a ping. -/
theorem runs_attempts {R : World × Past → Prop} (hR : Stable N thresh sort i R) (h : R σ) (c : Call) (n : Nat) :
    Runs N thresh sort i (attempts c n) (fun _ σ => R σ) σ := by
  induction n generalizing σ with
  | zero => exact .done hR h fun _ h => h
  | succ n ih =>
      refine ⟨fun _ _ _ _ _ => trivial, ?_⟩
      intro o σ₁ hr _ _
      have h₁ := hR σ σ₁ hr h
      cases o with
      | reply r =>
          cases r with
          | ok => exact Runs.done hR h₁ fun _ h => h
          | _ => exact ih h₁
      | _ => exact ih h₁

/-- A fresh answer is cached. -/
theorem runs_refreshAndCache {R S : World × Past → Prop} (hR : Stable N thresh sort i R)
    (hS : Stable N thresh sort i S) {node : StorageNode}
    (hstep : ∀ σ σ' : World × Past, R σ → σ'.1.awake = σ.1.awake → σ'.2.pending = σ.2.pending →
      (∀ n, Up σ n → Up σ' n) → Up σ' node.id → S σ') (h : R σ) :
    Runs N thresh sort i (refreshAndCache node)
      (fun o σ => (o = none → R σ) ∧ ∀ f, o = some f → f.id = node.id ∧ S σ) σ := by
  refine ⟨fun _ _ _ _ _ => trivial, ?_⟩
  intro o σ₁ hr hi₁ htold
  have h₁ := hR σ σ₁ hr h
  have hmiss : Runs N thresh sort i (pure none : CoordProg (Option StorageNode))
      (fun o σ => (o = none → R σ) ∧ ∀ f, o = some f → f.id = node.id ∧ S σ) σ₁ :=
    .done hR h₁ fun σ₂ h₂ => ⟨fun _ => h₂, nofun⟩
  cases o with
  | refused => exact hmiss
  | sendFailed => exact hmiss
  | noReply => exact hmiss
  | reply r =>
      cases r with
      | ok => exact hmiss
      | err => exact hmiss
      | pong info =>
          obtain ⟨hpos, hknown⟩ := htold _ rfl
          have hpid : (node.refreshed info).processId = info.pid := if_pos hpos
          intro σ₂ io (r : Unit) σ₃ hr₂ hi₂ hok he
          have hknown₂ : Known N σ₂ (node.refreshed info).id (node.refreshed info).processId := by
            rw [hpid]
            exact hr₂.1 _ _ hknown
          obtain ⟨hc, hawake, hpending, hup, hself⟩ := change_store hi₂ hok (by rw [hpid]; exact hpos) hknown₂ rfl rfl he
          have hs : S σ₃ := hstep σ₂ σ₃ (hR σ₁ σ₂ hr₂ h₁) hawake hpending hup hself
          refine ⟨hc, Runs.done hS hs fun σ₄ h₄ => ⟨nofun, ?_⟩⟩
          rintro f ⟨⟩
          exact ⟨rfl, h₄⟩

/-- Any thread that only caches what it hears. -/
theorem runs_caching {node : StorageNode} : Runs N thresh sort i (refreshAndCache node) (fun _ _ => True) σ :=
  (runs_refreshAndCache stable_true stable_true (fun _ _ _ _ _ _ _ => trivial) trivial).weaken fun _ _ _ => trivial

/-- A part of a tick: what it knows it still knows, and these nodes have answered it too. -/
def Turns (N : Nodes) (thresh : Nat) (sort : List Candidate → List Candidate) (i : Nat) (ps : List NodeId)
    (us : NodeId → Prop) (p : CoordProg α) (P : α → NodeId → Prop) (σ : World × Past) : Prop :=
  Runs N thresh sort i p (fun a σ => Held i ps (fun n => us n ∨ P a n) σ) σ

theorem Turns.bind {p : CoordProg α} {f : α → CoordProg β} {P : α → NodeId → Prop} {R : β → NodeId → Prop}
    (hp : Turns N thresh sort i ps us p P σ) (hi : Inv N σ)
    (hf : ∀ a σ', Inv N σ' → Held i ps (fun n => us n ∨ P a n) σ' →
      Turns N thresh sort i ps (fun n => us n ∨ P a n) (f a) R σ') :
    Turns N thresh sort i ps us (p >>= f) R σ := by
  refine Runs.bind hp hi fun a σ' hi' h' => (hf a σ' hi' h').weaken ?_
  intro b σ'' h''
  exact h''.mono fun n hn => hn.elim (fun hu => .inl (.inl hu)) .inr

theorem Turns.mono {p : CoordProg α} {P P' : α → NodeId → Prop} (hp : Turns N thresh sort i ps us p P σ)
    (hP : ∀ a n, P' a n → us n ∨ P a n) : Turns N thresh sort i ps us p P' σ :=
  Runs.weaken hp fun a _ h => h.mono fun n hn => hn.elim .inl (hP a n)

theorem Turns.done {a : α} {P : α → NodeId → Prop} (h : Held i ps us σ) (hP : ∀ n, P a n → us n) :
    Turns N thresh sort i ps us (pure a) P σ :=
  Runs.done stable_held h fun _ h' => h'.mono fun n hn => hn.elim id (hP n)

theorem turns_attempts (h : Held i ps us σ) (c : Call) (n : Nat) (P : Bool → NodeId → Prop)
    (hP : ∀ b n, ¬ P b n) : Turns N thresh sort i ps us (attempts c n) P σ :=
  (runs_attempts stable_held h c n).weaken fun b _ h' => h'.mono fun n hn => hn.elim id fun hp => absurd hp (hP b n)

/-- What a routine that asks nodes to do something adds. -/
abbrev nobody {γ : Type} : γ → NodeId → Prop := fun _ _ => False

theorem turns_request (h : Held i ps us σ) (c : Call) (n : Nat) :
    Turns N thresh sort i ps us (attempts c n) nobody σ :=
  turns_attempts h c n nobody fun _ _ hn => hn

theorem turns_refreshAndCache (h : Held i ps us σ) (node : StorageNode) :
    Turns N thresh sort i ps us (refreshAndCache node) (fun o n => ∃ f, o = some f ∧ f.id = n) σ := by
  have hrun : Runs N thresh sort i (refreshAndCache node) (fun o σ => (o = none → Held i ps us σ) ∧
      ∀ f, o = some f → f.id = node.id ∧ Held i ps (fun n => us n ∨ node.id = n) σ) σ := runs_refreshAndCache stable_held stable_held
    (fun σ σ' h' hawake hpending hup hself => ⟨hawake.trans h'.awake, hpending.trans h'.pending,
      fun n hn => hn.elim (fun hu => hup n (h'.up n hu)) fun heq => heq ▸ hself⟩) h
  refine hrun.weaken ?_
  rintro o σ₁ ⟨hnone, hsome⟩
  cases o with
  | none => exact (hnone rfl).mono fun n hn => hn.elim id fun ⟨_, hf, _⟩ => absurd hf nofun
  | some f =>
      obtain ⟨hid, h₁⟩ := hsome f rfl
      refine h₁.mono fun n hn => ?_
      rcases hn with hu | ⟨f', hf', hid'⟩
      · exact .inl hu
      · obtain rfl := Option.some.inj hf'
        exact .inr (hid.symm.trans hid')

theorem turns_refreshFollowers (h : Held i ps us σ) (hi : Inv N σ) (fs : List StorageNode) :
    Turns N thresh sort i ps us (refreshFollowers fs) nobody σ := by
  induction fs generalizing σ us with
  | nil => exact .done h fun _ hn => hn.elim
  | cons f fs ih =>
      refine (turns_refreshAndCache h f).bind hi ?_
      intro o σ₁ hi₁ h₁
      cases o with
      | none => exact ih h₁ hi₁
      | some f' => exact (ih h₁ hi₁).bind hi₁ fun _ _ _ h₂ => .done h₂ fun _ hn => hn.elim

theorem turns_attachFollowers (h : Held i ps us σ) (hi : Inv N σ) (primary : NodeId) (tablet : TabletName)
    (fs : List StorageNode) : Turns N thresh sort i ps us (attachFollowers primary tablet fs) nobody σ := by
  induction fs generalizing σ us with
  | nil => exact .done h fun _ hn => hn.elim
  | cons f fs ih =>
      refine Turns.bind (turns_request h (.becomeSecondary f.id primary tablet) 3) hi ?_
      intro ok σ₁ hi₁ h₁
      cases ok with
      | false => exact ih h₁ hi₁
      | true =>
          refine Turns.bind (turns_request h₁ (.addReplica primary f.id tablet) 3) hi₁ ?_
          intro _ σ₂ hi₂ h₂
          exact ih h₂ hi₂

theorem turns_each {f : β → CoordProg Unit} (l : List β) (h : Held i ps us σ) (hi : Inv N σ)
    (hf : ∀ x ∈ l, ∀ σ, Inv N σ → Held i ps us σ → Turns N thresh sort i ps us (f x) nobody σ) :
    Turns N thresh sort i ps us (each f l) nobody σ := by
  induction l generalizing σ with
  | nil => exact .done h fun _ hn => hn.elim
  | cons x l ih =>
      refine Runs.bind (hf x List.mem_cons_self σ hi h) hi ?_
      intro _ σ₁ hi₁ h₁
      exact ih (h₁.mono fun n hn => .inl hn) hi₁ fun y hy => hf y (List.mem_cons_of_mem _ hy)

/-- The last section of a routine. -/
theorem turns_markAlive {a : Act} {id : NodeId} (h : Held i ps us σ) (hup : us id)
    (ha : ∀ c : Tables, ∃ tablets, (exec a c).2 =
      { c with tablets := tablets }.update id (fun e => { e with alive := true }))
    (hnote : ∀ p : Past, p.noteCoord a = p) (hwake : a ≠ .wake) (hsleep : a ≠ .sleep) :
    Turns N thresh sort i ps us (write a) nobody σ := by
  intro σ₁ io (r : a.Res) σ₂ hr hi hok he
  obtain ⟨tablets, ha⟩ := ha σ₁.1.tables
  obtain ⟨hc, h₂⟩ := change_markAlive hi (h.rely hr) hup ha hnote hwake hsleep he
  exact ⟨hc, Turns.done h₂ fun _ hn => hn.elim⟩

/-! ### `handle_node_failure` -/

theorem turns_rebuild (h : Held i ps us σ) (hi : Inv N σ) (plan : RebuildPlan) :
    Turns N thresh sort i ps us (rebuild plan) nobody σ := by
  refine (turns_refreshAndCache h plan.primary).bind hi ?_
  intro o σ₁ hi₁ h₁
  cases o with
  | none => exact .done h₁ fun _ hn => hn.elim
  | some p =>
      refine (turns_refreshFollowers h₁ hi₁ plan.followers).bind hi₁ ?_
      intro fs σ₂ hi₂ h₂
      have hlist := fun us (h₂ : Held i ps us σ₂) => show Turns N thresh sort i ps us
          (rebuildPrimaryReplicas p.id plan.tablet fs) nobody σ₂ by
        refine Turns.bind (turns_request h₂ (.becomePrimary p.id plan.tablet) 3) hi₂ ?_
        intro ok σ₃ hi₃ h₃
        cases ok with
        | true => exact turns_attachFollowers h₃ hi₃ p.id plan.tablet fs
        | false => exact .done h₃ fun _ hn => hn.elim
      refine (hlist _ h₂).bind hi₂ ?_
      intro _ σ₃ hi₃ h₃
      exact turns_markAlive (a := .markAlive p.id) h₃ (.inl (.inl (.inr ⟨p, rfl, rfl⟩)))
        (fun c => ⟨c.tablets, rfl⟩) (fun _ => rfl) nofun nofun

/-- Every candidate that is left has answered. -/
theorem turns_refreshCandidates (h : Held i ps us σ) (hi : Inv N σ) (tablet : TabletName) (cs : List Candidate)
    (maxKnown : Nat) : Turns N thresh sort i ps us (refreshCandidates tablet cs maxKnown)
      (fun q n => ∃ cand ∈ q.1, cand.primary.id = n) σ := by
  induction cs generalizing σ us maxKnown with
  | nil => exact .done h fun _ ⟨_, hcand, _⟩ => absurd hcand List.not_mem_nil
  | cons cand cs ih =>
      refine (turns_refreshAndCache h cand.primary).bind hi ?_
      intro o σ₁ hi₁ h₁
      cases o with
      | none => exact ih h₁ hi₁ maxKnown
      | some p =>
          refine (turns_refreshFollowers h₁ hi₁ cand.followers).bind hi₁ ?_
          intro fs σ₂ hi₂ h₂
          refine (ih h₂ hi₂ _).bind hi₂ ?_
          intro q σ₃ hi₃ h₃
          refine .done h₃ ?_
          rintro n ⟨cand', hcand', hid⟩
          rcases List.mem_cons.mp hcand' with rfl | hcand'
          · exact .inl (.inl (.inr ⟨p, rfl, hid⟩))
          · exact .inr ⟨cand', hcand', hid⟩

theorem turns_pickWinner (h : Held i ps us σ) (hi : Inv N σ) (tablet : TabletName) (maxKnown : Nat)
    {cs : List Candidate} (hcs : ∀ cand ∈ cs, us cand.primary.id) :
    Turns N thresh sort i ps us (pickWinner tablet maxKnown cs) (fun o n => ∃ w, o = some w ∧ w.primary.id = n) σ := by
  induction cs generalizing σ us with
  | nil => exact .done h fun _ ⟨_, hw, _⟩ => absurd hw nofun
  | cons cand cs ih =>
      have hrest : ∀ cand ∈ cs, us cand.primary.id := fun cand' hcand' => hcs cand' (List.mem_cons_of_mem _ hcand')
      rw [pickWinner]
      split
      · exact ih h hi hrest
      · refine Turns.bind (turns_request h (.becomePrimary cand.primary.id tablet) 3) hi ?_
        intro ok σ₁ hi₁ h₁
        cases ok with
        | true =>
            refine .done h₁ ?_
            rintro n ⟨w, hw, rfl⟩
            obtain rfl := Option.some.inj hw
            exact .inl (hcs cand List.mem_cons_self)
        | false => exact ih h₁ hi₁ fun cand' hcand' => .inl (hrest cand' hcand')

theorem update_of_find_eq_none {c : Tables} {id : NodeId} (h : find c.nodes id = none) (f : StorageNode → StorageNode) :
    c.update id f = c := by
  have hnodes : c.nodes.map (fun n => if n.id = id then f n else n) = c.nodes := by
    refine (List.map_congr_left fun n hn => if_neg ?_).trans (List.map_id _)
    simpa using List.find?_eq_none.mp h n hn
  rw [Tables.update, hnodes]

theorem exec_storeWinner (tablet : TabletName) (id : NodeId) (c : Tables) : ∃ tablets,
    (exec (.storeWinner tablet id) c).2 = { c with tablets := tablets }.update id (fun e => { e with alive := true }) := by
  show ∃ tablets, (if (find c.nodes id).isSome then _ else c) = _
  split
  · exact ⟨_, rfl⟩
  · rename_i hnone
    exact ⟨c.tablets, (update_of_find_eq_none (by simpa using hnone) _).symm⟩

theorem turns_elect (hsort : ∀ l, (sort l).Perm l) (h : Held i ps us σ) (hi : Inv N σ) (plan : FailurePlan) :
    Turns N thresh sort i ps us (elect sort plan) nobody σ := by
  refine (turns_refreshCandidates h hi plan.tablet plan.candidates plan.maxKnown).bind hi ?_
  rintro ⟨cs, maxKnown⟩ σ₁ hi₁ h₁
  refine (turns_pickWinner h₁ hi₁ plan.tablet maxKnown
    fun cand hcand => .inr ⟨cand, (hsort cs).mem_iff.mp hcand, rfl⟩).bind hi₁ ?_
  intro o σ₂ hi₂ h₂
  cases o with
  | none => exact .done h₂ fun _ hn => hn.elim
  | some w =>
      refine (turns_attachFollowers h₂ hi₂ w.primary.id plan.tablet w.followers).bind hi₂ ?_
      intro _ σ₃ hi₃ h₃
      exact turns_markAlive (a := .storeWinner plan.tablet w.primary.id) h₃ (.inl (.inr ⟨w, rfl, rfl⟩))
        (exec_storeWinner plan.tablet w.primary.id) (fun _ => rfl) nofun nofun

/-- Reading both tables. -/
theorem turns_readBoth {f : Tables → CoordProg β} {P : β → NodeId → Prop} (h : Held i ps us σ)
    (hf : ∀ c σ', Inv N σ' → Held i ps us σ' → Turns N thresh sort i ps us (f c) P σ') :
    Turns N thresh sort i ps us (perform (S := sig) .readBoth >>= f) P σ := by
  intro σ₁ io (r : Tables) σ₂ hr hi hok he
  obtain ⟨hc, rfl, rfl⟩ := runs_read (a := .readBoth) (fun _ => rfl) (fun _ => rfl) nofun nofun hi he
  exact ⟨hc, hf _ _ hi (h.rely hr)⟩

theorem turns_handleNodeFailure (hsort : ∀ l, (sort l).Perm l) (h : Held i ps us σ) (dead : NodeId) :
    Turns N thresh sort i ps us (handleNodeFailure sort dead) nobody σ := by
  refine turns_readBoth h ?_
  intro c σ₁ hi₁ h₁
  cases find c.nodes dead with
  | none => exact .done h₁ fun _ hn => hn.elim
  | some e =>
      refine (turns_each _ h₁ hi₁ fun plan _ σ hi h => turns_rebuild h hi plan).bind hi₁ ?_
      intro _ σ₂ hi₂ h₂
      exact turns_each _ h₂ hi₂ fun plan _ σ hi h => turns_elect hsort h hi plan

/-! ### `handle_node_recovery` -/

theorem turns_refreshPrimary (h : Held i ps us σ) (plan : RecoveryPlan) (followers : List StorageNode) :
    Turns N thresh sort i ps us (refreshPrimary plan followers) nobody σ := by
  rw [refreshPrimary]
  cases plan.primary with
  | none =>
      dsimp only
      split
      · exact .done h fun _ hn => hn.elim
      · exact .done h fun _ hn => hn.elim
  | some p =>
      dsimp only
      cases followers.find? (fun f => decide (f.id = p.id)) with
      | some f => exact .done h fun _ hn => hn.elim
      | none => exact (turns_refreshAndCache h p).mono fun _ _ hn => hn.elim

theorem turns_promoteRecovered (h : Held i ps us σ) (hi : Inv N σ) (tablet : TabletName) {live : StorageNode}
    (hlive : us live.id) (followers : List StorageNode) :
    Turns N thresh sort i ps us (promoteRecovered tablet live followers) nobody σ := by
  refine Turns.bind (turns_request h (.becomePrimary live.id tablet) 3) hi ?_
  intro ok σ₁ hi₁ h₁
  cases ok with
  | false => exact .done h₁ fun _ hn => hn.elim
  | true =>
      refine (turns_attachFollowers h₁ hi₁ live.id tablet followers).bind hi₁ ?_
      intro _ σ₂ hi₂ h₂
      exact turns_markAlive (a := .storeRecovered tablet live.id) h₂ (.inl (.inl hlive))
        (fun c => ⟨setPrimary tablet live.id c.tablets, rfl⟩) (fun _ => rfl) nofun nofun

theorem turns_rejoin (h : Held i ps us σ) (hi : Inv N σ) (tablet : TabletName) {live : StorageNode}
    (hlive : us live.id) (primary : StorageNode) :
    Turns N thresh sort i ps us (rejoin tablet live primary) nobody σ := by
  refine Turns.bind (turns_request h (.becomeSecondary live.id primary.id tablet) 3) hi ?_
  intro ok σ₁ hi₁ h₁
  cases ok with
  | false => exact .done h₁ fun _ hn => hn.elim
  | true =>
      refine Turns.bind (turns_request h₁ (.addReplica primary.id live.id tablet) 3) hi₁ ?_
      intro ok σ₂ hi₂ h₂
      cases ok with
      | false => exact .done h₂ fun _ hn => hn.elim
      | true =>
          exact turns_markAlive (a := .markAlive live.id) h₂ (.inl (.inl hlive))
            (fun c => ⟨c.tablets, rfl⟩) (fun _ => rfl) nofun nofun

theorem turns_recover (h : Held i ps us σ) (hi : Inv N σ) (plan : RecoveryPlan) :
    Turns N thresh sort i ps us (recover plan) nobody σ := by
  refine (turns_refreshAndCache h plan.live).bind hi ?_
  intro o σ₁ hi₁ h₁
  cases o with
  | none => exact .done h₁ fun _ hn => hn.elim
  | some live =>
      refine (turns_refreshFollowers h₁ hi₁ plan.followers).bind hi₁ ?_
      intro followers σ₂ hi₂ h₂
      refine (turns_refreshPrimary h₂ plan followers).bind hi₂ ?_
      intro primary σ₃ hi₃ h₃
      have hpromote : Turns N thresh sort i _ _ (promoteRecovered plan.tablet live followers) nobody σ₃ :=
        turns_promoteRecovered h₃ hi₃ plan.tablet (.inl (.inl (.inr ⟨live, rfl, rfl⟩))) followers
      dsimp only
      split
      · exact .done h₃ fun _ hn => hn.elim
      · cases primary with
        | none => exact hpromote
        | some p =>
            dsimp only
            split
            · exact turns_rejoin h₃ hi₃ plan.tablet (.inl (.inl (.inr ⟨live, rfl, rfl⟩))) p
            · exact hpromote

/-- `handle_node_recovery` takes one node off the list. -/
theorem runs_handleNodeRecovery {live : NodeId} (h : Held i (live :: ps) us σ) :
    Runs N thresh sort i (handleNodeRecovery live) (fun _ σ => Held i ps us σ) σ := by
  intro σ₁ io (r : Unit) σ₂ hr hi hok he
  obtain ⟨w, p⟩ := σ₁
  have h₁ := h.rely hr
  obtain ⟨-, rfl⟩ := exec_coord (a := .recovering live) nofun nofun he
  have hawake : w.awake = some i := h₁.awake
  have hinv := hi.recovering live (by rw [hawake]; exact nofun)
  have hpending : p.pending = live :: ps := h₁.pending
  have h₂ : Held i ps us (w, p.noteCoord (.recovering live)) := by
    refine ⟨hawake, ?_, h₁.up⟩
    show p.pending.erase live = ps
    rw [hpending, List.erase_cons_head]
  refine ⟨change_tick w.tables hinv hawake rfl, ?_⟩
  refine (turns_readBoth (P := nobody) h₂ ?_).weaken (fun _ _ h' => h'.mono fun n hn => .inl hn)
  intro c σ₃ hi₃ h₃
  cases find c.nodes live with
  | none => exact .done h₃ fun _ hn => hn.elim
  | some node => exact turns_each _ h₃ hi₃ fun plan _ σ hi h => turns_recover h hi plan

/-! ### A tick -/

/-- The flags of an entry that a ping leaves. -/
theorem flags_pinged {copy : StorageNode} (h : copy.wasDown = !copy.alive) (heard : Heard) :
    (pinged thresh copy heard).node.wasDown = !(pinged thresh copy heard).node.alive := by
  cases hpong : pong heard with
  | none =>
      rw [pinged_of_miss hpong, missPing]
      split
      · rfl
      · exact h
  | some info =>
      rw [pinged_of_pong hpong, gotPing]
      split
      · rfl
      · rename_i hnot
        show copy.wasDown = false
        cases halive : copy.alive with
        | true => rw [h, halive]; rfl
        | false => exact absurd ⟨by rw [halive]; exact Bool.false_ne_true, by rw [h, halive]; rfl⟩ hnot

/-- The PID that a ping leaves: the one of the copy, or a new one. -/
theorem pid_pinged (copy : StorageNode) (heard : Heard) :
    (pinged thresh copy heard).node.processId = copy.processId ∨
      ∃ info, pong heard = some info ∧ (pinged thresh copy heard).node.processId = info.pid := by
  cases hpong : pong heard with
  | none =>
      rw [pinged_of_miss hpong, missPing]
      split
      · exact .inl rfl
      · exact .inl rfl
  | some info =>
      have hpid : (pinged thresh copy heard).node.processId = if info.pid > 0 then info.pid else copy.processId := by
        rw [pinged_of_pong hpong, gotPing]
        split
        · rfl
        · rfl
      rw [hpid]
      split
      · exact .inr ⟨info, rfl, rfl⟩
      · exact .inl rfl

/-- **A ping that finds another PID is noticed**: the node was down, or its process has
restarted. -/
theorem live_of_pid_ne {copy : StorageNode} (h : copy.wasDown = !copy.alive) {heard : Heard}
    (hpos : copy.processId ≠ 0) (hne : copy.processId ≠ (pinged thresh copy heard).node.processId) :
    (copy.wasDown ∧ (pinged thresh copy heard).node.alive ∧ ¬ (pinged thresh copy heard).node.wasDown) ∨
      (pinged thresh copy heard).restarted := by
  cases hpong : pong heard with
  | none =>
      refine absurd ?_ hne
      rw [pinged_of_miss hpong, missPing]
      split
      · rfl
      · rfl
  | some info =>
      rw [pinged_of_pong hpong] at hne ⊢
      cases halive : copy.alive with
      | true =>
          have hup : ¬ copy.wasDown = true := by rw [h, halive]; exact Bool.false_ne_true
          have hnew : (gotPing copy info).1.processId ≠ 0 := by
            intro hzero
            have hpid : (gotPing copy info).1.processId = if info.pid > 0 then info.pid else copy.processId := by
              rw [gotPing, if_neg fun hand => hup hand.2]
              rfl
            rw [hpid] at hzero
            split at hzero
            · omega
            · exact hpos hzero
          have hsame : (gotPing copy info).1 = StorageNode.parsePingMetadata { copy with missed := 0, alive := true } info := by
            rw [gotPing, if_neg fun hand => hup hand.2]
          rw [hsame] at hne hnew
          refine .inr (decide_eq_true ⟨halive, hup, ?_, ?_, hne⟩)
          · omega
          · omega
      | false =>
          have hdown : copy.wasDown = true := by rw [h, halive]; rfl
          refine .inl ⟨hdown, ?_⟩
          rw [gotPing, if_pos ⟨by rw [halive]; exact Bool.false_ne_true, hdown⟩]
          exact ⟨rfl, Bool.false_ne_true⟩

/-- The write-back of a ping, and the list of nodes that came back. -/
theorem change_writeBack {copy : StorageNode} {heard : Heard} {live : Bool} {io : Nat} {r : Unit}
    (hi : Inv N σ) (h : Held i ps us σ)
    (hok : Compared i .coord io (.coord (.writeBack copy (pinged thresh copy heard).node live)) σ)
    (hknown : Known N σ copy.id copy.processId) (hflags : copy.wasDown = !copy.alive)
    (htold : ∀ info, pong heard = some info → 0 < info.pid ∧ Known N σ copy.id info.pid)
    (hlive : ((copy.wasDown ∧ (pinged thresh copy heard).node.alive ∧ ¬ (pinged thresh copy heard).node.wasDown) ∨
      (pinged thresh copy heard).restarted) → live = true)
    (he : (watched N thresh sort).exec i .coord io (.coord (.writeBack copy (pinged thresh copy heard).node live)) σ
      = some (r, σ')) :
    (logic N thresh sort).Change i σ σ' ∧ Held i (if live then ps ++ [copy.id] else ps) (fun _ => False) σ' := by
  obtain ⟨w, p⟩ := σ
  obtain ⟨-, rfl⟩ := exec_coord (a := .writeBack copy _ live) nofun nofun he
  have hawake : w.awake = some i := h.awake
  have hid := (writeBack_pinged thresh copy heard).1
  have hpid : (pinged thresh copy heard).node.processId = copy.processId ∨ _ := pid_pinged copy heard
  have hnew : Known N (w, p) copy.id (pinged thresh copy heard).node.processId := by
    rcases hpid with hsame | ⟨info, hpong, hinfo⟩
    · rw [hsame]
      exact hknown
    · rw [hinfo]
      exact (htold info hpong).2
  have hinv := hi.enter (pinged thresh copy heard).node (if live then p.pending ++ [copy.id] else p.pending)
    (by rw [hid]; exact hnew) (flags_pinged hflags heard) ?_ ?_ ?_ (fun hnone => absurd (hnone.symm.trans hawake) nofun)
  · refine ⟨change_tick _ hinv hawake rfl, hawake, ?_, fun _ hn => hn.elim⟩
    have hpending : p.pending = ps := h.pending
    show (if live then p.pending ++ [copy.id] else p.pending) = _
    rw [hpending]
  · -- without a PID now there was none in the copy, and none in the entry
    intro hzero e he
    have hcopy : copy.processId = 0 := by
      rcases hpid with hsame | ⟨info, hpong, hinfo⟩
      · exact hsame.symm.trans hzero
      · have hpos := (htold info hpong).1
        omega
    rcases hok e he with hnone | hsame | hcmp
    · exact hnone
    · exact hsame.trans hzero
    · exact hcmp.trans hcopy
  · -- the entry had the PID of the copy, and another one was heard
    intro e he hpos hne
    rcases hok e he with hnone | hsame | hcmp
    · exact absurd hnone hpos
    · exact absurd hsame hne
    · rw [hcmp] at hpos hne
      rw [hlive (live_of_pid_ne hflags hpos hne), if_pos rfl, hid]
      exact List.mem_append_right _ (List.mem_singleton_self _)
  · split
    · exact List.subset_append_left _ _
    · exact List.Subset.refl _

/-- **The pings of a tick**: every node on the list it makes is waited for. -/
theorem runs_pingAll {copies : List StorageNode} (h : Held i ps (fun _ => False) σ) (hi : Inv N σ)
    (hknown : ∀ copy ∈ copies, Known N σ copy.id copy.processId)
    (hflags : ∀ copy ∈ copies, copy.wasDown = !copy.alive) :
    Runs N thresh sort i (pingAll thresh copies) (fun q σ => Held i (ps ++ q.2) (fun _ => False) σ) σ := by
  induction copies generalizing ps σ with
  | nil => exact Runs.done stable_held h fun _ h' => by rw [List.append_nil]; exact h'
  | cons copy rest ih =>
      rw [pingAll, pingNode_eq, Prog.bind_assoc]
      refine ⟨fun _ _ _ _ _ => trivial, ?_⟩
      intro o σ₁ hr₁ hi₁ htold₁
      have h₁ := h.rely hr₁
      have htold : ∀ info, pong (o.map (coordHom.reply)) = some info →
          0 < info.pid ∧ Known N σ₁ copy.id info.pid := by
        intro info hpong
        cases o with
        | reply r =>
            cases r with
            | pong info' =>
                obtain rfl := Option.some.inj hpong
                exact htold₁ _ rfl
            | _ => exact (Option.some_ne_none info hpong.symm).elim
        | _ => exact (Option.some_ne_none info hpong.symm).elim
      intro σ₂ io (r : Unit) σ₃ hr₂ hi₂ hok he
      have hstep : ∀ n pid, Known N σ n pid → Known N σ₂ n pid := fun n pid hk => hr₂.1 n pid (hr₁.1 n pid hk)
      obtain ⟨hc, h₃⟩ := change_writeBack hi₂ (h₁.rely hr₂) hok (hstep _ _ (hknown copy List.mem_cons_self))
        (hflags copy List.mem_cons_self) (fun info hinfo => ⟨(htold info hinfo).1, hr₂.1 _ _ (htold info hinfo).2⟩)
        decide_eq_true he
      refine ⟨hc, ?_⟩
      refine Runs.bind (p := pingAll thresh rest) (ih h₃ hc.inv
        (fun copy' hmem => hc.step _ _ (hstep _ _ (hknown copy' (List.mem_cons_of_mem _ hmem))))
        fun copy' hmem => hflags copy' (List.mem_cons_of_mem _ hmem)) hc.inv ?_
      rintro ⟨dead, back⟩ σ₄ hi₄ h₄
      refine Runs.done stable_held h₄ fun σ₅ h₅ => ?_
      refine ⟨h₅.awake, h₅.pending.trans ?_, h₅.up⟩
      dsimp only
      split
      · rw [List.append_assoc, List.singleton_append]
      · rfl

/-- All calls on the list are made. -/
theorem runs_recoveries (back : List NodeId) (h : Held i back us σ) (hi : Inv N σ) :
    Runs N thresh sort i (each handleNodeRecovery back) (fun _ σ => Held i [] us σ) σ := by
  induction back generalizing σ with
  | nil => exact Runs.done stable_held h fun _ h' => h'
  | cons n back ih => exact Runs.bind (runs_handleNodeRecovery h) hi fun _ _ hi' h' => ih h' hi'

/-- **A tick is safe.** It ends with no call left to make. -/
theorem runs_heartbeat (hsort : ∀ l, (sort l).Perm l) (σ : World × Past) :
    Runs N thresh sort i (heartbeat thresh sort) (fun _ _ => True) σ := by
  intro σ₁ io (r : Unit) σ₂ _ hi₁ _ he
  obtain ⟨w, p⟩ := σ₁
  obtain ⟨w', hw, rfl⟩ := System.exec_observe he
  have hw : (if w.awake = none then some ((), { w with awake := some i }) else none) = some (r, w') := hw
  split at hw
  · rename_i hasleep
    obtain ⟨-, rfl⟩ := Prod.mk.inj (Option.some.inj hw)
    have hpending : p.pending = [] := hi₁.asleep hasleep
    have hi₂ : Inv N ({ w with awake := some i }, p) := ⟨hi₁.known, hi₁.flags, hi₁.first, hi₁.covered, nofun⟩
    have hknown : ∀ n pid, Known N (w, p) n pid → Known N ({ w with awake := some i }, p) n pid := fun _ _ hk => hk
    refine ⟨⟨hi₂, hknown, fun i' _ _ => ⟨hknown, fun ha => absurd (ha.symm.trans hasleep) nofun⟩⟩, ?_⟩
    have h₂ : Held i [] (fun _ => False) ({ w with awake := some i }, p) := ⟨rfl, hpending, fun _ hn => hn.elim⟩
    intro σ₃ io (copies : List StorageNode) σ₄ hr₃ hi₃ _ he
    obtain ⟨hc, rfl, rfl⟩ := runs_read (a := .readNodes) (fun _ => rfl) (fun _ => rfl) nofun nofun hi₃ he
    refine ⟨hc, ?_⟩
    refine Runs.bind (p := pingAll thresh σ₄.1.tables.nodes)
      (runs_pingAll (h₂.rely hr₃) hi₃ (fun e he => hi₃.known e he) fun e he => hi₃.flags e he) hi₃ ?_
    rintro ⟨dead, back⟩ σ₅ hi₅ h₅
    refine Runs.bind (turns_each dead h₅ hi₅ fun n _ σ _ h => turns_handleNodeFailure hsort h n) hi₅ ?_
    intro _ σ₆ hi₆ h₆
    refine Runs.bind (runs_recoveries back h₆ hi₆) hi₆ ?_
    intro _ σ₇ _ h₇ σ₈ io (r : Unit) σ₉ hr₈ hi₈ _ he
    -- back to sleep
    have h₈ := h₇.rely hr₈
    obtain ⟨w₈, p₈⟩ := σ₈
    obtain ⟨w₉, hw₉, rfl⟩ := System.exec_observe he
    obtain ⟨-, rfl⟩ := Prod.mk.inj (Option.some.inj
      (show some ((), { w₈ with awake := none }) = some (r, w₉) from hw₉))
    have hi₉ : Inv N ({ w₈ with awake := none }, p₈) :=
      ⟨hi₈.known, hi₈.flags, hi₈.first, hi₈.covered, fun _ => h₈.pending⟩
    have hknown₉ : ∀ n pid, Known N (w₈, p₈) n pid → Known N ({ w₈ with awake := none }, p₈) n pid :=
      fun _ _ hk => hk
    have hawake : w₈.awake = some i := h₈.awake
    refine ⟨⟨hi₉, hknown₉, fun i' _ hne => ⟨hknown₉, fun ha => ?_⟩⟩, fun _ _ _ => trivial⟩
    exact absurd (Option.some.inj (ha.symm.trans hawake)) hne
  · exact absurd hw nofun

/-! ### Lookups -/

/-- A lookup only reads and caches. -/
theorem runs_reading {a : Act} {f : a.Res → CoordProg β} (hread : ∀ c, (exec a c).2 = c)
    (hnote : ∀ p : Past, p.noteCoord a = p) (hwake : a ≠ .wake) (hsleep : a ≠ .sleep)
    (hf : ∀ r σ', Inv N σ' → Runs N thresh sort i (f r) (fun _ _ => True) σ') :
    Runs N thresh sort i (perform (S := sig) a >>= f) (fun _ _ => True) σ := by
  intro σ₁ io (r : a.Res) σ₂ _ hi _ he
  obtain ⟨hc, rfl, -⟩ := runs_read hread hnote hwake hsleep hi he
  exact ⟨hc, hf r _ hi⟩

theorem runs_answer (a : α) : Runs N thresh sort i (pure a) (fun _ _ => True) σ := fun _ _ _ => trivial

theorem runs_retryStale (hi : Inv N σ) (tg : TabletGroup) (primary : StorageNode) (maxKnown : Nat) :
    Runs N thresh sort i (retryStale tg primary maxKnown) (fun _ _ => True) σ := by
  rw [retryStale]
  split
  · refine runs_caching.bind hi ?_
    intro o σ₁ _ _
    cases o with
    | none => exact runs_answer _
    | some p =>
        refine runs_reading (a := .readNodes) (fun _ => rfl) (fun _ => rfl) nofun nofun ?_
        intro nodes σ₂ _
        split
        · exact runs_answer _
        · exact runs_answer _
  · exact runs_answer _

theorem runs_lookupPrimary (row : Bytes) : Runs N thresh sort i (lookupPrimary row) (fun _ _ => True) σ := by
  refine runs_reading (a := .readTablets) (fun _ => rfl) (fun _ => rfl) nofun nofun ?_
  intro (tablets : List TabletGroup) σ₁ _
  cases tablets.find? (fun tg => tg.covers row) with
  | none => exact runs_answer _
  | some tg =>
      refine runs_reading (a := .readNodes) (fun _ => rfl) (fun _ => rfl) nofun nofun ?_
      intro (nodes : List StorageNode) σ₂ hi₂
      cases tg.nodeIds.head?.bind (findAlive nodes) with
      | none => exact runs_answer _
      | some primary =>
          refine runs_caching.bind hi₂ ?_
          intro o σ₃ _ _
          cases o with
          | none => exact runs_answer _
          | some p =>
              refine runs_reading (a := .readNodes) (fun _ => rfl) (fun _ => rfl) nofun nofun ?_
              intro nodes' σ₄ hi₄
              exact runs_retryStale hi₄ tg p _

theorem runs_root (hsort : ∀ l, (sort l).Perm l) (hi : Inv N σ) (r : Root) :
    Runs N thresh sort i (r.prog thresh sort) (fun _ _ => True) σ := by
  cases r with
  | tick => exact runs_heartbeat hsort σ
  | lookup row => exact Runs.bind (runs_lookupPrimary row) hi fun _ _ _ _ => runs_answer _
  | readLookup row => exact Runs.bind (runs_lookupPrimary row) hi fun _ _ _ _ => runs_answer _

/-- A node answers with the PID of the process that runs. -/
theorem safe_answer (j : Nat) (c : Call) (σ : World × Past) :
    (logic N thresh sort).Safe j (.node (target c)) (perform (S := sysSig) (.answer c))
      (fun r σ => Told N σ c r) σ := by
  intro σ₁ io (r : Reply) σ₂ _ hi _ he
  obtain ⟨w, p⟩ := σ₁
  obtain ⟨w', hw, rfl⟩ := System.exec_observe he
  obtain ⟨rfl, rfl⟩ := Prod.mk.inj (Option.some.inj
    (show some (w.answer N (target c) c, { w with served := w.served + 1 }) = some (r, w') from hw))
  show (logic N thresh sort).Change j (w, p)
      ({ w with served := w.served + 1 }, p.noteAnswer (target c) (w.answer N (target c) c)) ∧ _
  have hans : ∀ n, p.answered n = true →
      (p.noteAnswer (target c) (w.answer N (target c) c)).answered n = true := by
    intro n hn
    cases w.answer N (target c) c with
    | pong info =>
        show Function.update p.answered (target c) true n = true
        rw [Function.update_apply]
        split
        · rfl
        · exact hn
    | ok => exact hn
    | err => exact hn
  have hrest : (p.noteAnswer (target c) (w.answer N (target c) c)).recovered = p.recovered ∧
      (p.noteAnswer (target c) (w.answer N (target c) c)).first = p.first ∧
      (p.noteAnswer (target c) (w.answer N (target c) c)).pending = p.pending := by
    cases w.answer N (target c) c with
    | pong info => exact ⟨rfl, rfl, rfl⟩
    | ok => exact ⟨rfl, rfl, rfl⟩
    | err => exact ⟨rfl, rfl, rfl⟩
  generalize p.noteAnswer (target c) (w.answer N (target c) c) = p' at hans hrest
  have hknown : ∀ n pid, Known N (w, p) n pid → Known N ({ w with served := w.served + 1 }, p') n pid := by
    rintro n pid (hzero | ⟨g, hg, hlt | ⟨hgen, ha⟩⟩)
    · exact .inl hzero
    · exact .inr ⟨g, hg, .inl hlt⟩
    · exact .inr ⟨g, hg, .inr ⟨hgen, hans n ha⟩⟩
  obtain ⟨hrecovered, hfirst, hpending⟩ := hrest
  have hinv : Inv N ({ w with served := w.served + 1 }, p') := by
    refine ⟨fun e he => hknown _ _ (hi.known e he), hi.flags, ?_, ?_, ?_⟩
    · intro n e he
      show e.processId = 0 ↔ p'.first n = none
      rw [hfirst]
      exact hi.first n e he
    · intro n e he hpid
      show p'.recovered n = true ∨ p'.first n = some e.processId ∨ n ∈ p'.pending
      rw [hrecovered, hfirst, hpending]
      exact hi.covered n e he hpid
    · intro hasleep
      show p'.pending = []
      rw [hpending]
      exact hi.asleep hasleep
  refine ⟨⟨hinv, hknown, fun i' _ _ => ⟨hknown, fun ha => ⟨ha, hpending, fun _ hn => hn⟩⟩⟩, ?_⟩
  intro σ₃ hr₃ _
  cases c with
  | ping n =>
      show Told N σ₃ (.ping n) (if N.accepts w.served then _ else _)
      split
      · rename_i haccepts
        refine ⟨N.pid_pos _ _, hr₃.1 _ _ (.inr ⟨w.gen n, rfl, .inr ⟨rfl, ?_⟩⟩)⟩
        have hpong : w.answer N (target (.ping n)) (.ping n) =
            .pong ⟨N.lsn w.served, N.tabletLsns w.served, w.pid N n⟩ := if_pos haccepts
        show (p.noteAnswer n (w.answer N n (.ping n))).answered n = true
        rw [show w.answer N n (.ping n) = _ from hpong]
        exact Function.update_self ..
      · trivial
  | _ => trivial

end Runs

/-! ## Restarts are detected -/

/-- Of every node that is believed alive with the PID of the process that runs on it, the
roles have been applied again since, or it is the first process that was heard of. -/
def Detected (N : Nodes) (σ : World × Past) : Prop :=
  ∀ n e, find σ.1.tables.nodes n = some e → e.alive = true → e.processId = σ.1.pid N n →
    σ.2.recovered n = true ∨ σ.2.first n = some e.processId

theorem inv_start (N : Nodes) {tables : Tables} (h : Loaded tables) : Inv N (start tables) where
  known := fun e he => .inl (h e he).1
  flags := by
    intro e he
    obtain ⟨-, halive, hdown⟩ := h e he
    rw [halive, hdown]
    rfl
  first := fun _ e he => iff_of_true (h e (List.mem_of_find?_eq_some he)).1 rfl
  covered := by
    intro n e he hpid
    rw [(h e (List.mem_of_find?_eq_some he)).1] at hpid
    exact absurd hpid (Nat.ne_of_lt (N.pid_pos n _))
  asleep := fun _ => rfl

/-- A node whose processes are numbered. -/
def oneProcess : Nodes where
  pid := fun _ g => g + 1
  pid_pos := fun _ g => Nat.succ_pos g
  pid_inj := fun _ _ _ h => Nat.succ.inj h
  accepts := fun _ => true
  lsn := fun _ => some 0
  tabletLsns := fun _ => []

/-- It has the only tablet. -/
def oneTablet : Tables where
  nodes := [{ id := [110], host := "h", port := 1 }]
  tablets := [{ name := [116], rowStart := [], rowEnd := [], nodeIds := [[110]] }]

theorem loaded_oneTablet : Loaded oneTablet := by
  intro e he
  obtain rfl := List.mem_singleton.mp he
  exact ⟨rfl, rfl, rfl⟩

abbrev OneNode : System sysSig := watched oneProcess 3 id

/-- Everyone answers. -/
def up (_ : Call) : Bool := false

/-- `Compared`, tested. -/
def comparedTest (_ : Nat) (_ : Place) (_ : Nat) (a : SysAct) (σ : World × Past) : Bool :=
  match a with
  | .coord (.store node) => (find σ.1.tables.nodes node.id).all fun e =>
      decide (e.processId = 0 ∨ e.processId = node.processId)
  | .coord (.writeBack copy node _) => (find σ.1.tables.nodes node.id).all fun e =>
      decide (e.processId = 0 ∨ e.processId = node.processId ∨ e.processId = copy.processId)
  | _ => true

theorem compared_of_test (i : Nat) (l : Place) (io : Nat) (a : SysAct) (σ : World × Past)
    (h : comparedTest i l io a σ = true) : Compared i l io a σ := by
  unfold comparedTest at h
  unfold Compared
  split at h
  · intro e he
    rw [he] at h
    exact of_decide_eq_true h
  · intro e he
    rw [he] at h
    exact of_decide_eq_true h
  · trivial

/-- A tick, a restart, and a tick that finds it. -/
def tickAndTick : List (Line OneNode) :=
  [.move (.start .tick), .drive up 100 0, .move (.restart (.node [110])), .move (.start .tick), .drive up 100 2]

/-- A tick, a restart, and a lookup that caches the new PID. -/
def tickAndLookup : List (Line OneNode) :=
  [.move (.start .tick), .drive up 100 0, .move (.restart (.node [110])), .move (.start (.lookup [])),
    .drive up 100 2]

/-- **A lookup can hide a restart**: nothing is left that a tick would notice. -/
theorem not_detected_tickAndLookup : ¬ ∀ c : Config OneNode,
    Reach (start oneTablet) Always c → c.st.1.awake = none → Detected oneProcess c.st := by
  intro h
  obtain ⟨c, hr, hc⟩ := reach_always_of_play (start oneTablet) tickAndLookup
    (fun σ => decide ((σ.1.awake = none ∧ σ.2.recovered [110] = false ∧ σ.2.first [110] = some 1) ∧
      σ.1.gen [110] = 1 ∧
      (find σ.1.tables.nodes [110]).map (fun e : StorageNode => (e.alive, e.processId)) = some (true, 2)))
    (by decide +kernel)
  obtain ⟨⟨hasleep, hrec, hfirst⟩, hgen, hentry⟩ := of_decide_eq_true hc
  obtain ⟨e, he, hlive⟩ := Option.map_eq_some_iff.mp hentry
  obtain ⟨halive, hpid⟩ := Prod.mk.inj hlive
  have hcur : c.st.1.pid oneProcess [110] = 2 := congrArg (· + 1) hgen
  rcases h c hr hasleep [110] e he halive (hpid.trans hcur.symm) with hdone | hone
  · exact absurd (hdone.symm.trans hrec) nofun
  · rw [hfirst, hpid] at hone
    exact absurd hone (by decide)

end NCloud.Coordinator.Restarts
