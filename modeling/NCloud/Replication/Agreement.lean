import NCloud.Replication.Cluster

/-!
# Logs

What the logs of the nodes have to do with each other. The history has every operation
a primary logged on its own account, in the order of the LSNs handed out (`minted`);
every log a node has had; the acknowledgements of REPLICATE; and the replicas that a
write counted as having acknowledged it.

Everything else a node logs comes from a REPLICATE or a sync, and those carry
operations of other logs. So all logs stay prefixes of `minted` as long as no LSN is
handed out twice. Two conditions on a run give that: every fresh operation takes an LSN
that nobody has had (`Fresh`), or there is one primary and no election (`OnePrimary`).
In the second case `minted` is the log of the primary. A log can still get shorter
then, since a snapshot replaces it by an earlier one; `NoOldSnapshot` excludes that.

Besides, a log may come to differ from what the LSN says it is: a snapshot may lack the
operation its LSN ends with, a count or a length may wrap, a failed checkpoint may leave
the wrong records in the log file (`Whole`), and a crash may make the disk count records
twice (`Returns`).

One logic serves all of this.
-/

namespace NCloud.Agreement

open Process Wire

/-! ## The history -/

/-- A REPLICATE that a node answered `+OK`. -/
structure Ack where
  node : NodeId
  lsn : Nat
  op : Op
  /-- Whether the node had logged the operation by then. -/
  held : Bool

/-- What the observer remembers. -/
structure Past where
  minted : Log
  logs : List (NodeId × Log)
  /-- The last operation a thread logged on its own account. -/
  current : Nat → Option (Nat × Op)
  acks : List Ack
  /-- Replicas that `forward_to_all` counted, with the operation. -/
  counted : List (NodeId × Nat × Op)

namespace Past

/-- The log that all logs begin. -/
def init (log : Log) : Past :=
  { minted := log, logs := [], current := fun _ => none, acks := [], counted := [] }

/-- Thread `i` has logged an operation. -/
def mint (p : Past) (i k : Nat) (op : Op) : Past :=
  { p with
    minted := if p.minted.length < k then p.minted ++ [some op] else p.minted
    current := Function.update p.current i (some (k, op)) }

/-- Thread `i` counts a replica. -/
def count (p : Past) (i : Nat) (r : NodeId) : Past :=
  match p.current i with
  | some (k, op) => { p with counted := (r, k, op) :: p.counted }
  | none => p

/-- Thread `i` has done an action at a node. -/
def note (p : Past) (i : Nat) (n : NodeId) : (a : NodeAct) → a.Res → Past
  | .logOp op, (some k : Option Nat) => p.mint i k op
  | .cput row col _ v2, (some k : Option Nat) => p.mint i k (.put row col v2)
  | .del row col, (some (some k) : Option (Option Nat)) => p.mint i k (.del row col)
  -- a rollback that finds nothing is forwarded all the same
  | .del row col, (some none : Option (Option Nat)) =>
      { p with current := Function.update p.current i (some (0, .del row col)) }
  | .ack k op, _ => { p with acks := ⟨n, k, op, logged p.logs k op n⟩ :: p.acks }
  | .setReplicaAlive _ r true, _ => p.count i r
  | _, _ => p

/-- Write down the log a node has. -/
def seeLog (p : Past) (n : NodeId) (log : Log) : Past := { p with logs := (n, log) :: p.logs }

end Past

variable (sort : List CoordProg.Candidate → List CoordProg.Candidate)

/-- The observer. -/
def observer : Observer (cluster sort) where
  Past := Past
  note := fun i l a r _ w p =>
    match l, a, r with
    | .node n, .node a, r => (p.seeLog n (w.node n).tablet.log).note i n a r
    | _, _, _ => p
  sent := fun _ _ _ p => p
  lost := fun _ p => p
  restart := fun _ p => p

/-- The cluster with its history. -/
abbrev watched : System clusterSig := (cluster sort).observe (observer sort)

/-! ## Conditions on a run -/

/-- Whether an action logs an operation on the node's own account. -/
def mints (io : Nat) (node : Node) : NodeAct → Bool
  | .logOp _ => decide (io ≠ 0)
  | .cput row col v1 _ => decide (node.tablet.get row col = some v1 ∧ io ≠ 0)
  | .del row col => decide (node.tablet.get row col ≠ none ∧ io ≠ 0)
  | _ => false

/-- No LSN is handed out twice. -/
def Fresh (l : Place) (io : Nat) (a : Act) (σ : World × Past) : Prop :=
  match l, a with
  | .node n, .node a => mints io (σ.1.node n) a = true → σ.2.minted.length ≤ (σ.1.log n).length
  | _, _ => True

/-- One primary and no election: nobody but `p` is made primary, and `p` is not
demoted. -/
def OnePrimary (p : NodeId) (l : Place) (a : Act) : Prop :=
  match l, a with
  | .node n, .node (.setPrimary b) => b = true ↔ n = p
  | _, _ => True

/-- A snapshot that is loaded has every operation its LSN counts, and its counts have not
wrapped, nor has the length of an entry that is skipped. A checkpoint only fails where the
log file ends the log. -/
def Whole (l : Place) (io : Nat) (a : Act) (σ : World × Past) : Prop :=
  match l, a with
  | .node _, .node (.readSnapshot image) => image.Fits
  | .node _, .node .readAstray => False
  | .node _, .node (.install image) => none ∉ image.log
  | .node n, .node .ckptWrite => io = 0 → (σ.1.node n).tablet.WalFits
  | .node n, .node .ckptTruncate => io = 0 → (σ.1.node n).tablet.WalFits
  | _, _ => True

/-- The checkpoints of the one primary read as they were written. -/
def Legible (p : NodeId) (l : Place) (a : Act) (σ : World × Past) : Prop :=
  match l, a with
  | .node n, .node .ckptWrite => n = p → (σ.1.node n).tablet.rows.Fits
  | _, _ => True

/-- A snapshot is loaded by nodes that are not ahead of it. -/
def NoOldSnapshot (l : Place) (a : Act) (σ : World × Past) : Prop :=
  match l, a with
  | .node n, .node (.install image) => (σ.1.log n).length ≤ image.log.length
  | _, _ => True

/-- Which of the conditions a run is under. -/
structure Mode where
  fixed : Option NodeId
  mono : Bool

/-- The conditions of a mode. -/
def Mode.Ok (m : Mode) (_ : Nat) (l : Place) (io : Nat) (a : Act) (σ : World × Past) : Prop :=
  (match m.fixed with
    | some p => OnePrimary p l a ∧ Legible p l a σ
    | none => Fresh l io a σ)
  ∧ Whole l io a σ ∧ (m.mono = true → NoOldSnapshot l a σ)

/-- The disk of a node that restarts counts nothing that its log did not have. The disk
of the one primary counts everything, and so does any disk where nothing may get lost. -/
def Mode.Returns (m : Mode) (l : Place) (σ : World × Past) : Prop :=
  match l with
  | .node n => (σ.1.node n).tablet.diskLog <+: σ.1.log n
      ∧ (m.fixed = some n ∨ m.mono = true → σ.1.log n <+: (σ.1.node n).tablet.diskLog)
  | .coord => True

/-! ## The logic -/

variable (m : Mode)

/-- The LSN of a rollback that found nothing. With one primary there is none. -/
def Void (k : Nat) : Prop := m.fixed = none ∧ k = 0

/-- The one primary has everything that was minted, and its filter hides nothing. -/
structure Leads (p : NodeId) (σ : World × Past) : Prop where
  log : σ.1.log p = σ.2.minted
  only : ∀ n, (σ.1.node n).isPrimary = true → n = p
  sound : (σ.1.node p).tablet.Sound

/-- The invariant. -/
structure Inv (σ : World × Past) : Prop where
  logs : ∀ n, σ.1.log n <+: σ.2.minted
  leads : ∀ p, m.fixed = some p → Leads p σ
  /-- Between two uses of `wal_mu_` the log file ends the log. -/
  wal : ∀ n, (σ.1.node n).tablet.walMu = none → (σ.1.node n).tablet.WalFits
  acks : ∀ a ∈ σ.2.acks, Void m a.lsn ∨ (opAt σ.2.minted a.lsn = some a.op ∧ a.held = true)
  counted : ∀ e ∈ σ.2.counted, Void m e.2.1 ∨
    ∃ a ∈ σ.2.acks, a.node = e.1 ∧ a.lsn = e.2.1 ∧ a.op = e.2.2
  kept : m.mono = true → ∀ a ∈ σ.2.acks, Void m a.lsn ∨ opAt (σ.1.log a.node) a.lsn = some a.op

/-- What no step undoes. -/
structure Grows (σ σ' : World × Past) : Prop where
  minted : σ.2.minted <+: σ'.2.minted
  seen : σ.2.logs ⊆ σ'.2.logs
  acks : σ.2.acks ⊆ σ'.2.acks
  logs : m.mono = true → ∀ n, σ.1.log n <+: σ'.1.log n

theorem Grows.refl (σ : World × Past) : Grows m σ σ :=
  ⟨List.prefix_refl _, List.Subset.refl _, List.Subset.refl _, fun _ _ => List.prefix_refl _⟩

variable {m}

theorem Grows.trans {σ₁ σ₂ σ₃ : World × Past} (h₁ : Grows m σ₁ σ₂) (h₂ : Grows m σ₂ σ₃) :
    Grows m σ₁ σ₃ :=
  ⟨h₁.minted.trans h₂.minted, List.Subset.trans h₁.seen h₂.seen, List.Subset.trans h₁.acks h₂.acks,
    fun hm n => (h₁.logs hm n).trans (h₂.logs hm n)⟩

/-- What the holder of `primary_write_mu_` may count on at the one primary: the map stays
as it is. -/
structure KeepsLock (m : Mode) (i : Nat) (n : NodeId) (old new : Node) : Prop where
  writing : new.writing = some i
  rows : m.fixed = some n → new.tablet.rows = old.tablet.rows

/-- What the holder of `wal_mu_` may count on: log and log file stay as they are. -/
structure KeepsWal (i : Nat) (old new : Replica) : Prop where
  walMu : new.walMu = some i
  log : new.log = old.log
  wal : new.wal = old.wal

/-- One node as thread `i` sees it when others are at work. -/
structure Keeps (m : Mode) (i : Nat) (n : NodeId) (old new : Node) : Prop where
  lock : old.writing = some i → KeepsLock m i n old new
  wal : old.tablet.walMu = some i → KeepsWal i old.tablet new.tablet

theorem Keeps.refl (i : Nat) (n : NodeId) (node : Node) : Keeps m i n node node :=
  ⟨fun hw => ⟨hw, fun _ => rfl⟩, fun hw => ⟨hw, rfl, rfl⟩⟩

theorem Keeps.trans {i : Nat} {n : NodeId} {x y z : Node} (h₁ : Keeps m i n x y) (h₂ : Keeps m i n y z) :
    Keeps m i n x z := by
  refine ⟨fun hw => ?_, fun hw => ?_⟩
  · have hy := h₁.lock hw
    have hz := h₂.lock hy.writing
    exact ⟨hz.writing, fun hf => (hz.rows hf).trans (hy.rows hf)⟩
  · have hy := h₁.wal hw
    have hz := h₂.wal hy.walMu
    exact ⟨hz.walMu, hz.log.trans hy.log, hz.wal.trans hy.wal⟩

variable (m)

/-- What a thread may count on: its own record, and what it has locked. -/
structure Rely (i : Nat) (l : Place) (σ σ' : World × Past) : Prop where
  grows : Grows m σ σ'
  current : σ'.2.current i = σ.2.current i
  keeps : ∀ n, l = .node n → Keeps m i n (σ.1.node n) (σ'.1.node n)

/-- What a request carries. -/
def Carries (σ : World × Past) : Call → Prop
  | .replicate _ k op => Void m k ∨ opAt σ.2.minted k = some op
  | _ => True

/-- A node has acknowledged an operation. -/
def Acked (σ : World × Past) (n : NodeId) (k : Nat) (op : Op) : Prop :=
  Void m k ∨ ∃ a ∈ σ.2.acks, a.node = n ∧ a.lsn = k ∧ a.op = op

/-- What a reply carries. -/
def Tells (σ : World × Past) (c : Call) : Reply → Prop
  | .ok => ∀ n k op, c = .replicate n k op → Acked m σ n k op
  | .sync (.delta entries) => ∀ e ∈ entries, opAt σ.2.minted e.2 = some e.1
  | .sync (.snapshot image) => none ∉ image.log → image.log <+: σ.2.minted
  | _ => True

variable {m} {σ σ' : World × Past}

theorem Acked.grow {n : NodeId} {k : Nat} {op : Op} (h : Acked m σ n k op) (hg : Grows m σ σ') :
    Acked m σ' n k op :=
  h.imp id (fun ⟨a, ha, heq⟩ => ⟨a, hg.acks ha, heq⟩)

theorem Carries.grow {c : Call} (h : Carries m σ c) (hg : Grows m σ σ') : Carries m σ' c := by
  cases c with
  | replicate n k op => exact h.imp id (fun h => opAt_extend hg.minted h)
  | _ => trivial

theorem Tells.grow {c : Call} {r : Reply} (h : Tells m σ c r) (hg : Grows m σ σ') : Tells m σ' c r := by
  rcases r with _ | _ | _ | entries | image
  · exact fun n k op hc => (h n k op hc).grow hg
  · trivial
  · trivial
  · exact fun e he => opAt_extend hg.minted (h e he)
  · intro hw
    have himage : image.log <+: σ.2.minted := h hw
    exact himage.trans hg.minted

/-! ## Restarts -/

/-- The log of a node that restarts is a prefix of what it was. -/
theorem log_restart {l : Place} (hup : m.Returns l σ) (n : NodeId) : (σ.1.restart l).log n <+: σ.1.log n := by
  refine World.forall_restart (P := fun q node => node.tablet.log <+: σ.1.log q) ?_ (fun _ => List.prefix_refl _) n
  rintro n rfl
  exact hup.1

/-- And all of it where nothing may get lost. -/
theorem log_restart_eq {l : Place} (hup : m.Returns l σ) {n : NodeId}
    (hm : m.fixed = some n ∨ m.mono = true) : (σ.1.restart l).log n = σ.1.log n := by
  refine World.forall_restart (P := fun q node => m.fixed = some q ∨ m.mono = true → node.tablet.log = σ.1.log q)
    ?_ (fun _ _ => rfl) n hm
  rintro n rfl hm
  exact hup.1.eq_of_length (Nat.le_antisymm hup.1.length_le (hup.2 hm).length_le)

theorem Leads.restart {p : NodeId} (h : Leads p σ) {l : Place} (hup : m.Returns l σ)
    (hp : m.fixed = some p) : Leads p (σ.1.restart l, σ.2) where
  log := (log_restart_eq hup (.inl hp)).trans h.log
  -- whoever restarts is nobody's primary
  only := World.forall_restart (P := fun q node => node.isPrimary = true → q = p)
    (fun _ _ hn => absurd hn (by simp [Node.restart])) h.only
  sound := by
    show ((σ.1.restart l).node p).tablet.Sound
    by_cases hl : l = .node p
    · subst hl
      rw [World.node_restart_self]
      exact h.sound.recover
    · rw [World.node_restart_of_ne _ hl]
      exact h.sound

theorem Inv.restart (h : Inv m σ) {l : Place} (hup : m.Returns l σ) : Inv m (σ.1.restart l, σ.2) where
  logs := fun n => (log_restart hup n).trans (h.logs n)
  leads := fun p hp => (h.leads p hp).restart hup hp
  wal := World.forall_restart (P := fun _ node => node.tablet.walMu = none → node.tablet.WalFits)
    (fun n _ _ => Replica.WalFits.recover (σ.1.node n).tablet) h.wal
  acks := h.acks
  counted := h.counted
  kept := by
    intro hm a ha
    show Void m a.lsn ∨ opAt ((σ.1.restart l).log a.node) a.lsn = some a.op
    rw [log_restart_eq hup (.inr hm)]
    exact h.kept hm a ha

theorem Grows.restart {l : Place} (hup : m.Returns l σ) : Grows m σ (σ.1.restart l, σ.2) := by
  refine ⟨List.prefix_refl _, List.Subset.refl _, List.Subset.refl _, fun hm n => ?_⟩
  show σ.1.log n <+: (σ.1.restart l).log n
  rw [log_restart_eq hup (.inr hm)]

theorem Rely.restart {i : Nat} {l l' : Place} (hup : m.Returns l σ) (hl : l' ≠ l) :
    Rely m i l' σ (σ.1.restart l, σ.2) := by
  refine ⟨.restart hup, rfl, ?_⟩
  rintro n rfl
  show Keeps m i n (σ.1.node n) ((σ.1.restart l).node n)
  rw [World.node_restart_of_ne _ (Ne.symm hl)]
  exact .refl i n _

theorem Rely.refl (i : Nat) (l : Place) (σ : World × Past) : Rely m i l σ σ :=
  ⟨.refl m σ, rfl, fun _ _ => .refl i _ _⟩

theorem Rely.trans {i : Nat} {l : Place} {σ₁ σ₂ σ₃ : World × Past} (h₁ : Rely m i l σ₁ σ₂)
    (h₂ : Rely m i l σ₂ σ₃) : Rely m i l σ₁ σ₃ :=
  ⟨h₁.grows.trans h₂.grows, h₂.current.trans h₁.current,
    fun n hl => (h₁.keeps n hl).trans (h₂.keeps n hl)⟩

variable (m)

/-- The logic. -/
def logic : Logic (watched sort) where
  Inv := Inv m
  Step := Grows m
  Rely := Rely m
  Ok := m.Ok
  Up := m.Returns
  Req := fun _ c σ => Carries m σ c
  Rep := fun c r σ => Tells m σ c r
  step_refl := Grows.refl m
  rely_step := fun h => h.grows
  rely_refl := fun i l σ => .refl i l σ
  rely_trans := fun h₁ h₂ => h₁.trans h₂
  req_stable := fun hr hc => hc.grow hr.grows
  rep_stable := fun hg hr => hr.grow hg
  sent_ok := fun h => ⟨h, .refl m _, fun i l _ => .refl i l _⟩
  lost_ok := fun h => ⟨h, .refl m _, fun i l _ => .refl i l _⟩
  restart_ok := fun h hup => ⟨h.restart hup, .restart hup, fun _ _ hl => .restart hup hl⟩

/-! ## Actions -/

variable {m} {w : World} {p : Past} {i : Nat} {n : NodeId}

/-- What an action of a node does. -/
theorem exec_node {io : Nat} {a : NodeAct} {r : a.Res}
    (h : (watched sort).exec i (.node n) io (.node a) σ = some (r, σ')) :
    ∃ node, (σ.1.node n).exec i io a = some (r, node)
      ∧ σ' = (σ.1.setNode n node, (σ.2.seeLog n node.tablet.log).note i n a r) := by
  obtain ⟨w', hw, rfl⟩ := System.exec_observe h
  obtain ⟨node, hn, rfl⟩ := World.exec_node hw
  refine ⟨node, hn, Prod.ext rfl ?_⟩
  have hself : (σ.1.setNode n node).node n = node := World.setNode_self ..
  show (σ.2.seeLog n ((σ.1.setNode n node).node n).tablet.log).note i n a r = _
  rw [hself]

/-- A change at one node, as others see it. -/
theorem rely_at {node : Node} {p' : Past} (hg : Grows m (w, p) (w.setNode n node, p'))
    {i' : Nat} (l : Place) (hc : p'.current i' = p.current i') (hk : Keeps m i' n (w.node n) node) :
    Rely m i' l (w, p) (w.setNode n node, p') := by
  refine ⟨hg, hc, fun q _ => ?_⟩
  exact World.forall_setNode (P := fun q new => Keeps m i' q (w.node q) new) hk (fun q _ => .refl i' q _) q

/-- What a change at one node may do besides logging on its own account. -/
structure Tame (m : Mode) (i : Nat) (p : Past) (n : NodeId) (old new : Node) : Prop where
  log : new.tablet.log <+: p.minted
  fixed : m.fixed = some n → new.tablet.log = p.minted
  mono : m.mono = true → old.tablet.log <+: new.tablet.log
  primary : new.isPrimary = true → old.isPrimary = true ∨ m.fixed = none ∨ m.fixed = some n
  sound : m.fixed = some n → new.tablet.Sound
  wal : new.tablet.walMu = none → new.tablet.WalFits
  keeps : ∀ i', i' ≠ i → Keeps m i' n old new

/-- The node at which nothing but this changes. -/
theorem Leads.tame {b : NodeId} (h : Leads b (w, p)) (hb : m.fixed = some b) {node : Node}
    (ht : Tame m i p n (w.node n) node) (seen : Log) : Leads b (w.setNode n node, p.seeLog n seen) where
  log := by
    by_cases hbn : b = n
    · subst hbn; rw [World.log_setNode_self]; exact ht.fixed hb
    · rw [World.log_setNode_of_ne hbn]; exact h.log
  only := by
    refine World.forall_setNode (P := fun q new => new.isPrimary = true → q = b) (fun hnew => ?_)
      (fun q _ => h.only q)
    rcases ht.primary hnew with hold | hnone | hsome
    · exact h.only n hold
    · rw [hnone] at hb; exact absurd hb (by simp)
    · rw [hsome] at hb; exact Option.some.inj hb
  sound := by
    show ((w.setNode n node).node b).tablet.Sound
    by_cases hbn : b = n
    · subst hbn; rw [World.setNode_self]; exact ht.sound hb
    · rw [World.setNode_of_ne hbn]; exact h.sound

theorem Grows.tame {node : Node} (ht : Tame m i p n (w.node n) node) (seen : Log) :
    Grows m (w, p) (w.setNode n node, p.seeLog n seen) where
  minted := List.prefix_refl _
  seen := List.subset_cons_self ..
  acks := List.Subset.refl _
  logs := fun hm => World.forall_setNode (P := fun q new => w.log q <+: new.tablet.log) (ht.mono hm)
    (fun _ _ => List.prefix_refl _)

theorem Inv.tame (h : Inv m (w, p)) {node : Node} (ht : Tame m i p n (w.node n) node) (seen : Log) :
    Inv m (w.setNode n node, p.seeLog n seen) where
  logs := World.forall_setNode (P := fun _ new => new.tablet.log <+: p.minted) ht.log (fun q _ => h.logs q)
  leads := fun b hb => (h.leads b hb).tame hb ht seen
  wal := World.forall_setNode (P := fun _ new => new.tablet.walMu = none → new.tablet.WalFits) ht.wal
    (fun q _ => h.wal q)
  acks := h.acks
  counted := h.counted
  kept := fun hm a ha => (h.kept hm a ha).imp id (opAt_extend ((Grows.tame ht seen).logs hm a.node))

/-- **A tame action keeps the invariant.** -/
theorem change_tame (h : Inv m (w, p)) {node : Node} (ht : Tame m i p n (w.node n) node) (seen : Log) :
    (logic sort m).Change i (w, p) (w.setNode n node, p.seeLog n seen) :=
  ⟨h.tame ht seen, .tame ht seen, fun i' l hi => rely_at (.tame ht seen) l rfl (ht.keeps i' hi)⟩

/-- What a thread that logs `op` on its own account does to the tablet. -/
structure Logs (op : Op) (old new : Replica) : Prop where
  log : new.log = old.log ++ [some op]
  wal : new.wal = old.wal ++ [op]
  walMu : new.walMu = old.walMu
  sound : old.Sound → new.Sound

theorem Logs.record (t : Replica) (op : Op) : Logs op t (t.record op) :=
  ⟨rfl, rfl, rfl, fun h => h.record op⟩

theorem Logs.record_apply (t : Replica) (op : Op) : Logs op t ((t.record op).apply op) :=
  ⟨rfl, rfl, rfl, fun h => (h.record op).apply op⟩

theorem Logs.fits {op : Op} {old new : Replica} (h : Logs op old new) (hold : old.WalFits) : new.WalFits := by
  have hnew := hold.record op
  show new.wal.map some <:+ new.log
  rw [h.log, h.wal]
  exact hnew

/-- Nobody else holds a lock of the node that the thread may need. -/
structure Alone (i : Nat) (node : Node) : Prop where
  writing : node.writing = some i
  walMu : ∀ i', i' ≠ i → node.tablet.walMu ≠ some i'

theorem Alone.keeps {old new : Node} (h : Alone i old) {i' : Nat} (hi : i' ≠ i) : Keeps m i' n old new := by
  refine ⟨fun hw => ?_, fun hw => absurd hw (h.walMu i' hi)⟩
  rw [h.writing] at hw
  exact absurd (Option.some.inj hw).symm hi

section Mint

variable {op : Op} {t : Replica} {k : Nat}

/-- The history then has one more operation. -/
theorem minted_mint (hk : p.minted.length < k) :
    ((p.seeLog n t.log).mint i k op).minted = p.minted ++ [some op] :=
  if_pos hk

theorem Grows.mint (ht : Logs op (w.node n).tablet t) (hk : p.minted.length < k) :
    Grows m (w, p) (w.setNode n ((w.node n).withTablet t), (p.seeLog n t.log).mint i k op) where
  minted := by
    show _ <+: ((p.seeLog n t.log).mint i k op).minted
    rw [minted_mint hk]
    exact List.prefix_append ..
  seen := List.subset_cons_self ..
  acks := List.Subset.refl _
  logs := by
    intro _
    refine World.forall_setNode (P := fun q new => w.log q <+: new.tablet.log) ?_ (fun _ _ => List.prefix_refl _)
    show (w.node n).tablet.log <+: t.log
    rw [ht.log]
    exact List.prefix_append ..

/-- The one primary keeps up with what it logs itself. -/
theorem Leads.mint (h : Leads n (w, p)) (ht : Logs op (w.node n).tablet t) (hk : p.minted.length < k) :
    Leads n (w.setNode n ((w.node n).withTablet t), (p.seeLog n t.log).mint i k op) where
  log := by
    show _ = ((p.seeLog n t.log).mint i k op).minted
    have hlog : (w.node n).tablet.log = p.minted := h.log
    rw [World.log_setNode_self, minted_mint hk, ← hlog]
    exact ht.log
  only := World.forall_setNode (P := fun q new => new.isPrimary = true → q = n) (fun _ => rfl) (fun q _ => h.only q)
  sound := by
    show ((w.setNode n ((w.node n).withTablet t)).node n).tablet.Sound
    rw [World.setNode_self]
    exact ht.sound h.sound

/-- **An operation logged on the node's own account** at the end of everything minted,
by the holder of the locks, and at the one primary if there is one. -/
theorem change_mint (h : Inv m (w, p)) (ht : Logs op (w.node n).tablet t)
    (hk : k = (w.node n).tablet.lsn + 1) (hend : w.log n = p.minted) (hfix : ∀ b, m.fixed = some b → n = b)
    (halone : Alone i (w.node n)) (hfits : (w.node n).tablet.WalFits) :
    (logic sort m).Change i (w, p)
      (w.setNode n ((w.node n).withTablet t), (p.seeLog n t.log).mint i k op) := by
  have hlt : p.minted.length < k := by rw [hk, ← hend]; exact Nat.lt_succ_self _
  have hg : Grows m (w, p) (w.setNode n ((w.node n).withTablet t), (p.seeLog n t.log).mint i k op) := .mint ht hlt
  have hpre : p.minted <+: ((p.seeLog n t.log).mint i k op).minted := hg.minted
  refine ⟨⟨?_, ?_, ?_, ?_, h.counted, ?_⟩, hg, ?_⟩
  · -- the log of the node is now all that was minted
    refine World.forall_setNode (P := fun _ new => new.tablet.log <+: ((p.seeLog n t.log).mint i k op).minted) ?_
      (fun q _ => (h.logs q).trans hpre)
    rw [minted_mint hlt, ← hend]
    show t.log <+: (w.node n).tablet.log ++ [some op]
    rw [ht.log]
  · intro b hb
    obtain rfl := hfix b hb
    exact (h.leads n hb).mint ht hlt
  · exact World.forall_setNode (P := fun _ new => new.tablet.walMu = none → new.tablet.WalFits)
      (fun _ => ht.fits hfits) (fun q _ => h.wal q)
  · intro a ha
    exact (h.acks a ha).imp id (fun ⟨h₁, h₂⟩ => ⟨opAt_extend hpre h₁, h₂⟩)
  · intro hm a ha
    exact (h.kept hm a ha).imp id (opAt_extend (hg.logs hm a.node))
  · intro i' l hi
    exact rely_at hg l (Function.update_of_ne hi ..) (halone.keeps hi)

end Mint

theorem Tame.same (h : Inv m (w, p)) {node : Node} (hlog : node.tablet.log = w.log n)
    (hprim : node.isPrimary = true → (w.node n).isPrimary = true ∨ m.fixed = none ∨ m.fixed = some n)
    (hsound : m.fixed = some n → (w.node n).tablet.Sound → node.tablet.Sound)
    (hwal : node.tablet.walMu = none → node.tablet.WalFits)
    (hkeeps : ∀ i', i' ≠ i → Keeps m i' n (w.node n) node) : Tame m i p n (w.node n) node where
  log := by rw [hlog]; exact h.logs n
  fixed := fun hf => hlog.trans (h.leads n hf).log
  mono := fun _ => by rw [hlog]; exact List.prefix_refl _
  primary := hprim
  sound := fun hf => hsound hf (h.leads n hf).sound
  wal := hwal
  keeps := hkeeps

/-- The same node. -/
theorem Tame.refl (h : Inv m (w, p)) : Tame m i p n (w.node n) (w.node n) :=
  .same h rfl .inl (fun _ => id) (h.wal n) (fun _ _ => .refl _ _ _)

/-- Actions that touch neither the notes nor a lock nor the tablet, but for counting
the readers of its map. -/
def Plain : NodeAct → Prop
  | .lockWrite => False
  | .answer _ => False
  | .lockWal => False
  | .unlockWal => False
  | .logOp _ => False
  | .logNext _ _ => False
  | .applyRow _ _ => False
  | .cput _ _ _ _ => False
  | .del _ _ => False
  | .ack _ _ => False
  | .install _ => False
  | .ckptWrite => False
  | .ckptTruncate => False
  | .setReplicaAlive _ _ true => False
  | _ => True

theorem note_plain {a : NodeAct} (ha : Plain a) (p : Past) (r : a.Res) : p.note i n a r = p := by
  unfold Past.note
  split <;> first | exact ha.elim | rfl

/-- What such an action does to its node. -/
structure Glance (a : NodeAct) (old new : Node) : Prop where
  tablet : new.tablet = { old.tablet with readers := new.tablet.readers }
  writing : new.writing = old.writing
  primary : new.isPrimary = old.isPrimary ∨ a = .setPrimary new.isPrimary

theorem exec_plain {io : Nat} {a : NodeAct} {r : a.Res} {old new : Node} (ha : Plain a)
    (he : old.exec i io a = some (r, new)) : Glance a old new := by
  cases a <;> first
    | exact ha.elim
    | (obtain ⟨-, rfl⟩ := Prod.mk.inj (Option.some.inj he)
       first | exact ⟨rfl, rfl, .inl rfl⟩ | exact ⟨rfl, rfl, .inr rfl⟩)
    | skip
  case walDeltaAfter =>
    obtain ⟨-, he⟩ := Option.ite_none_right_eq_some.mp he
    obtain ⟨-, rfl⟩ := Prod.mk.inj (Option.some.inj he)
    exact ⟨rfl, rfl, .inl rfl⟩
  case snapHeader =>
    obtain ⟨-, he⟩ := Option.ite_none_right_eq_some.mp he
    obtain ⟨-, rfl⟩ := Prod.mk.inj (Option.some.inj he)
    exact ⟨rfl, rfl, .inl rfl⟩
  case snapRow =>
    obtain ⟨cols, -, he⟩ := Option.map_eq_some_iff.mp he
    obtain ⟨-, rfl⟩ := Prod.mk.inj he
    exact ⟨rfl, rfl, .inl rfl⟩

/-- **Plain actions.** -/
theorem change_plain (h : Inv m σ) {io : Nat} {a : NodeAct} {r : a.Res} (ha : Plain a)
    (hok : m.Ok i (.node n) io (.node a) σ)
    (he : (watched sort).exec i (.node n) io (.node a) σ = some (r, σ')) :
    (logic sort m).Change i σ σ' := by
  obtain ⟨w, p⟩ := σ
  obtain ⟨node, hn, rfl⟩ := exec_node sort he
  rw [note_plain ha]
  obtain ⟨htab, hlock, hprim⟩ := exec_plain ha hn
  have ht : Tame m i p n (w.node n) node := by
    refine .same h (by rw [htab]; rfl) ?_ (fun _ hs => ?_) ?_ (fun i' _ => ⟨fun hw => ?_, fun hw => ?_⟩)
    · intro hb
      rcases hprim with hsame | hset
      · exact .inl (hsame ▸ hb)
      · -- BECOME_PRIMARY
        cases hf : m.fixed with
        | none => exact .inr (.inl rfl)
        | some b =>
            have hone := hok.1
            rw [hf, hset] at hone
            have hone : node.isPrimary = true ↔ n = b := hone.1
            exact .inr (.inr (by rw [hone.mp hb]))
    · rw [htab]
      exact ⟨hs.rows, hs.ckpt⟩
    · rw [htab]
      exact h.wal n
    · exact ⟨hlock.trans hw, fun _ => by rw [htab]⟩
    · rw [htab]
      exact ⟨hw, rfl, rfl⟩
  exact change_tame sort h ht _

/-! ### Locks -/

theorem change_lockWrite (h : Inv m σ) {io : Nat} {r : Unit}
    (he : (watched sort).exec i (.node n) io (.node .lockWrite) σ = some (r, σ')) :
    (logic sort m).Change i σ σ' ∧ (σ'.1.node n).writing = some i := by
  obtain ⟨w, p⟩ := σ
  obtain ⟨node, hn, rfl⟩ := exec_node sort he
  obtain ⟨hfree, hn⟩ := Option.ite_none_right_eq_some.mp hn
  obtain ⟨-, rfl⟩ := Prod.mk.inj (Option.some.inj hn)
  have ht : Tame m i p n (w.node n) { w.node n with writing := some i } := by
    refine .same h rfl .inl (fun _ => id) (h.wal n) (fun i' _ => ⟨fun hw => ?_, fun hw => ⟨hw, rfl, rfl⟩⟩)
    have hfree : (w.node n).writing = none := hfree
    rw [hfree] at hw
    exact absurd hw (by simp)
  refine ⟨change_tame sort h ht _, ?_⟩
  show ((w.setNode n _).node n).writing = some i
  rw [World.setNode_self]

theorem change_answer (h : Inv m σ) {io : Nat} {status : KVPutStatus} {r : Unit}
    (hw : (σ.1.node n).writing = some i)
    (he : (watched sort).exec i (.node n) io (.node (.answer status)) σ = some (r, σ')) :
    (logic sort m).Change i σ σ' := by
  obtain ⟨w, p⟩ := σ
  obtain ⟨node, hn, rfl⟩ := exec_node sort he
  obtain ⟨-, rfl⟩ := Prod.mk.inj (Option.some.inj hn)
  have ht : Tame m i p n (w.node n) { w.node n with writing := none } := by
    refine .same h rfl .inl (fun _ => id) (h.wal n) (fun i' hi => ⟨fun hw' => ?_, fun hw => ⟨hw, rfl, rfl⟩⟩)
    have hw : (w.node n).writing = some i := hw
    rw [hw] at hw'
    exact absurd (Option.some.inj hw').symm hi
  exact change_tame sort h ht _

/-- A thread at work under `wal_mu_`, with the log file in line. -/
structure Filing (i : Nat) (node : Node) : Prop where
  walMu : node.tablet.walMu = some i
  fits : node.tablet.WalFits

theorem Filing.keeps {old new : Node} (h : Filing i old) (hk : Keeps m i n old new) : Filing i new := by
  obtain ⟨hwalMu, hlog, hwal⟩ := hk.wal h.walMu
  refine ⟨hwalMu, ?_⟩
  show new.tablet.wal.map some <:+ new.tablet.log
  rw [hlog, hwal]
  exact h.fits

theorem Filing.rely (h : Filing i (σ.1.node n)) (hr : Rely m i (.node n) σ σ') : Filing i (σ'.1.node n) :=
  h.keeps (hr.keeps n rfl)

/-- What the holder of `wal_mu_` does to the tablet, as others see it. -/
theorem keeps_of_walMu {node : Node} {t : Replica} (hmine : node.tablet.walMu = some i)
    (hrows : m.fixed = some n → t.rows = node.tablet.rows ∨ node.writing = some i) {i' : Nat} (hi : i' ≠ i) :
    Keeps m i' n node (node.withTablet t) := by
  refine ⟨fun hw => ⟨hw, fun hf => (hrows hf).resolve_right (fun hw' => ?_)⟩, fun hw => ?_⟩
  · rw [hw] at hw'
    exact hi (Option.some.inj hw')
  · rw [hmine] at hw
    exact absurd (Option.some.inj hw).symm hi

theorem change_lockWal (h : Inv m σ) {io : Nat} {r : Unit}
    (he : (watched sort).exec i (.node n) io (.node .lockWal) σ = some (r, σ')) :
    (logic sort m).Change i σ σ' ∧ Filing i (σ'.1.node n) := by
  obtain ⟨w, p⟩ := σ
  obtain ⟨node, hn, rfl⟩ := exec_node sort he
  obtain ⟨hfree, hn⟩ := Option.ite_none_right_eq_some.mp hn
  obtain ⟨-, rfl⟩ := Prod.mk.inj (Option.some.inj hn)
  have hfree : (w.node n).tablet.walMu = none := hfree
  have ht : Tame m i p n (w.node n) ((w.node n).withTablet { (w.node n).tablet with walMu := some i }) := by
    refine .same h rfl .inl (fun _ hs => ⟨hs.rows, hs.ckpt⟩) (fun hw => absurd hw nofun)
      (fun i' _ => ⟨fun hw => ⟨hw, fun _ => rfl⟩, fun hw => ?_⟩)
    rw [hfree] at hw
    exact absurd hw (by simp)
  refine ⟨change_tame sort h ht _, ?_⟩
  show Filing i ((w.setNode n _).node n)
  rw [World.setNode_self]
  exact ⟨rfl, h.wal n hfree⟩

theorem change_unlockWal (h : Inv m σ) {io : Nat} {r : Unit} (hf : Filing i (σ.1.node n))
    (he : (watched sort).exec i (.node n) io (.node .unlockWal) σ = some (r, σ')) :
    (logic sort m).Change i σ σ' := by
  obtain ⟨w, p⟩ := σ
  obtain ⟨node, hn, rfl⟩ := exec_node sort he
  obtain ⟨-, rfl⟩ := Prod.mk.inj (Option.some.inj hn)
  have ht : Tame m i p n (w.node n) ((w.node n).withTablet { (w.node n).tablet with walMu := none }) :=
    .same h rfl .inl (fun _ hs => ⟨hs.rows, hs.ckpt⟩) (fun _ => hf.fits)
      (fun i' hi => keeps_of_walMu hf.walMu (fun _ => .inl (by rfl)) hi)
  exact change_tame sort h ht _

/-! ### Operations under `wal_mu_` -/

/-- Nobody has to log at the one primary what was minted: it is there. -/
theorem not_leads_of_next (h : Inv m (w, p)) {op : Op} (hpre : w.log n ++ [some op] <+: p.minted) :
    m.fixed ≠ some n := by
  intro hfix
  have hlead : w.log n = p.minted := (h.leads n hfix).log
  have hlen := hpre.length_le
  rw [← hlead, List.length_append, List.length_singleton] at hlen
  omega

/-- The record of an operation that has been minted, or of none at all. -/
theorem change_logNext (h : Inv m σ) {io k : Nat} {op : Op} {r : Receipt} (hf : Filing i (σ.1.node n))
    (hc : Carries m σ (.replicate n k op))
    (he : (watched sort).exec i (.node n) io (.node (.logNext k op)) σ = some (r, σ')) :
    (logic sort m).Change i σ σ' ∧ Filing i (σ'.1.node n) ∧ (r ≠ .refused → k ≤ (σ'.1.log n).length)
      ∧ (r = .logged → m.fixed ≠ some n) := by
  obtain ⟨w, p⟩ := σ
  obtain ⟨node, hn, rfl⟩ := exec_node sort he
  obtain ⟨hr, rfl⟩ := Prod.mk.inj (Option.some.inj hn)
  rw [World.log_setNode_self, World.setNode_self]
  have hsame : (logic sort m).Change i (w, p) (w.setNode n ((w.node n).withTablet (w.node n).tablet),
      p.seeLog n (w.node n).tablet.log) := change_tame sort h (.refl h) _
  rw [← hr]
  rcases (w.node n).tablet.logNext_cases io k op with ⟨heq, hle⟩ | heq | ⟨heq, hnext⟩
  · rw [heq]
    exact ⟨hsame, hf, fun _ => hle, nofun⟩
  · rw [heq]
    exact ⟨hsame, hf, fun hne => absurd rfl hne, nofun⟩
  · rw [heq]
    have hnext : k = (w.log n).length + 1 := hnext
    have hop : opAt p.minted ((w.log n).length + 1) = some op := by
      rcases hc with ⟨-, h0⟩ | hop
      · omega
      · rw [← hnext]; exact hop
    have hpre : w.log n ++ [some op] <+: p.minted := prefix_append_of_opAt (h.logs n) hop
    have hne : m.fixed ≠ some n := not_leads_of_next h hpre
    have ht : Tame m i p n (w.node n) ((w.node n).withTablet ((w.node n).tablet.record op)) :=
      { log := hpre
        fixed := fun hfix => absurd hfix hne
        mono := fun _ => List.prefix_append ..
        primary := .inl
        sound := fun hfix => absurd hfix hne
        wal := fun _ => hf.fits.record op
        keeps := fun i' hi => keeps_of_walMu hf.walMu (fun _ => .inl (by rfl)) hi }
    refine ⟨change_tame sort h ht _, ⟨hf.walMu, hf.fits.record op⟩, fun _ => ?_, fun _ => hne⟩
    show k ≤ ((w.node n).tablet.log ++ [some op]).length
    rw [List.length_append, hnext]
    exact Nat.le_refl _

/-- The row update, which at the one primary belongs to the client write at work. -/
theorem change_applyRow (h : Inv m σ) {io : Nat} {op : Op} {exclusive : Bool} {r : Unit}
    (hf : Filing i (σ.1.node n)) (hw : m.fixed = some n → (σ.1.node n).writing = some i)
    (he : (watched sort).exec i (.node n) io (.node (.applyRow op exclusive)) σ = some (r, σ')) :
    (logic sort m).Change i σ σ' ∧ Filing i (σ'.1.node n)
      ∧ (σ'.1.node n).tablet.rows.cell op.cell = op.value := by
  obtain ⟨w, p⟩ := σ
  obtain ⟨node, hn, rfl⟩ := exec_node sort he
  obtain ⟨-, hn⟩ := Option.ite_none_left_eq_some.mp hn
  obtain ⟨-, rfl⟩ := Prod.mk.inj (Option.some.inj hn)
  have ht : Tame m i p n (w.node n) ((w.node n).withTablet ((w.node n).tablet.apply op)) :=
    .same h rfl .inl (fun _ hs => hs.apply op) (fun _ => hf.fits)
      (fun i' hi => keeps_of_walMu hf.walMu (fun hfix => .inr (hw hfix)) hi)
  refine ⟨change_tame sort h ht _, ?_⟩
  rw [World.setNode_self]
  exact ⟨⟨hf.walMu, hf.fits⟩, Rows.cell_apply_self _ op⟩

/-- A snapshot, not at the one primary. -/
theorem change_install (h : Inv m σ) {io : Nat} {image : Image} {r : Unit}
    (hmine : (σ.1.node n).tablet.walMu = some i) (hi : none ∉ image.log → image.log <+: σ.2.minted)
    (hne : m.fixed ≠ some n) (hok : m.Ok i (.node n) io (.node (.install image)) σ)
    (he : (watched sort).exec i (.node n) io (.node (.install image)) σ = some (r, σ')) :
    (logic sort m).Change i σ σ' ∧ (σ'.1.node n).tablet.walMu = some i := by
  obtain ⟨w, p⟩ := σ
  obtain ⟨node, hn, rfl⟩ := exec_node sort he
  obtain ⟨-, hn⟩ := Option.ite_none_right_eq_some.mp hn
  obtain ⟨-, rfl⟩ := Prod.mk.inj (Option.some.inj hn)
  have himage : image.log <+: p.minted := hi hok.2.1
  have hmine : (w.node n).tablet.walMu = some i := hmine
  have ht : Tame m i p n (w.node n) ((w.node n).withTablet ((w.node n).tablet.install image)) :=
    { log := himage
      fixed := fun hf => absurd hf hne
      mono := fun hm => List.prefix_of_prefix_length_le (h.logs n) himage (hok.2.2 hm)
      primary := .inl
      sound := fun hf => absurd hf hne
      wal := fun hw => absurd (hmine.symm.trans hw) (by simp)
      keeps := fun i' hi => keeps_of_walMu hmine (fun hf => absurd hf hne) hi }
  refine ⟨change_tame sort h ht _, ?_⟩
  rw [World.setNode_self]
  exact hmine

/-- A checkpoint that ends here leaves the log file in line. -/
theorem change_ckptWrite (h : Inv m σ) {io : Nat} {r : Bool}
    (hmine : (σ.1.node n).tablet.walMu = some i) (hok : m.Ok i (.node n) io (.node .ckptWrite) σ)
    (he : (watched sort).exec i (.node n) io (.node .ckptWrite) σ = some (r, σ')) :
    (logic sort m).Change i σ σ' ∧ (σ'.1.node n).tablet.walMu = some i
      ∧ (r = false → Filing i (σ'.1.node n)) := by
  obtain ⟨w, p⟩ := σ
  obtain ⟨node, hn, rfl⟩ := exec_node sort he
  obtain ⟨-, hn⟩ := Option.ite_none_right_eq_some.mp hn
  have hmine : (w.node n).tablet.walMu = some i := hmine
  rw [World.setNode_self]
  split at hn
  · rename_i h0
    obtain ⟨rfl, rfl⟩ := Prod.mk.inj (Option.some.inj hn)
    exact ⟨change_tame sort h (.refl h) _, hmine, fun _ => ⟨hmine, hok.2.1 h0⟩⟩
  · obtain ⟨rfl, rfl⟩ := Prod.mk.inj (Option.some.inj hn)
    obtain ⟨ckpt, hwritten⟩ := (w.node n).ckptWrite_eq io
    have hsound : m.fixed = some n → (w.node n).tablet.Sound → ((w.node n).ckptWrite io).Sound := by
      intro hfix hs
      have hlegible := hok.1
      rw [hfix] at hlegible
      rw [Node.ckptWrite_of_fits (hlegible.2 rfl)]
      exact hs.ckptWrite
    have hlocked : ((w.node n).ckptWrite io).walMu = some i := by
      rw [hwritten]
      exact hmine
    have ht : Tame m i p n (w.node n) ((w.node n).withTablet ((w.node n).ckptWrite io)) :=
      .same h (by rw [hwritten]; rfl) .inl hsound (fun hw => absurd (hlocked.symm.trans hw) (by simp))
        (fun i' hi => keeps_of_walMu hmine (fun _ => .inl (by rw [hwritten])) hi)
    exact ⟨change_tame sort h ht _, hlocked, nofun⟩

theorem change_ckptTruncate (h : Inv m σ) {io : Nat} {r : Bool}
    (hmine : (σ.1.node n).tablet.walMu = some i) (hok : m.Ok i (.node n) io (.node .ckptTruncate) σ)
    (he : (watched sort).exec i (.node n) io (.node .ckptTruncate) σ = some (r, σ')) :
    (logic sort m).Change i σ σ' ∧ Filing i (σ'.1.node n) := by
  obtain ⟨w, p⟩ := σ
  obtain ⟨node, hn, rfl⟩ := exec_node sort he
  have hmine : (w.node n).tablet.walMu = some i := hmine
  rw [World.setNode_self]
  simp only [Node.exec] at hn
  split at hn
  · rename_i h0
    obtain ⟨-, rfl⟩ := Prod.mk.inj (Option.some.inj hn)
    exact ⟨change_tame sort h (.refl h) _, ⟨hmine, hok.2.1 h0⟩⟩
  · obtain ⟨-, rfl⟩ := Prod.mk.inj (Option.some.inj hn)
    have hfits : (w.node n).tablet.ckptTruncate.WalFits := List.nil_suffix
    have ht : Tame m i p n (w.node n) ((w.node n).withTablet (w.node n).tablet.ckptTruncate) :=
      .same h rfl .inl (fun _ hs => ⟨hs.rows, hs.ckpt⟩) (fun _ => hfits)
        (fun i' hi => keeps_of_walMu hmine (fun _ => .inl (by rfl)) hi)
    exact ⟨change_tame sort h ht _, ⟨hmine, hfits⟩⟩

/-! ### Acknowledgements -/

/-- A note that leaves everything else as it was. -/
theorem change_note (h : Inv m σ) {p' : Past} (seen : Log) (hminted : p'.minted = σ.2.minted)
    (hlogs : p'.logs = (σ.2.seeLog n seen).logs) (hsub : σ.2.acks ⊆ p'.acks)
    (hcur : ∀ i', i' ≠ i → p'.current i' = σ.2.current i')
    (hacks : ∀ a ∈ p'.acks, Void m a.lsn ∨ (opAt p'.minted a.lsn = some a.op ∧ a.held = true))
    (hcounted : ∀ e ∈ p'.counted, Void m e.2.1 ∨ ∃ a ∈ p'.acks, a.node = e.1 ∧ a.lsn = e.2.1 ∧ a.op = e.2.2)
    (hkept : m.mono = true → ∀ a ∈ p'.acks, Void m a.lsn ∨ opAt (σ.1.log a.node) a.lsn = some a.op) :
    (logic sort m).Change i σ (σ.1.setNode n (σ.1.node n), p') := by
  obtain ⟨w, p⟩ := σ
  have hminted : p'.minted = p.minted := hminted
  show (logic sort m).Change i (w, p) (w.setNode n (w.node n), p')
  have hworld : w.setNode n (w.node n) = w := World.setNode_eq_self w n
  have hg : Grows m (w, p) (w.setNode n (w.node n), p') := by
    refine ⟨by rw [hminted], ?_, hsub, fun _ q => by rw [hworld]⟩
    rw [hlogs]
    exact List.subset_cons_self ..
  refine ⟨⟨?_, ?_, ?_, hacks, hcounted, ?_⟩, hg, fun i' l hi => rely_at hg l (hcur i' hi) (.refl i' n _)⟩
  · intro q
    rw [hworld, hminted]
    exact h.logs q
  · intro b hb
    obtain ⟨hlog, honly, hsound⟩ := h.leads b hb
    rw [hworld]
    exact ⟨hlog.trans hminted.symm, honly, hsound⟩
  · rw [hworld]
    exact h.wal
  · rw [hworld]
    exact hkept

/-- The acknowledgement of an operation the node has. -/
theorem change_ack (h : Inv m σ) {io k : Nat} {op : Op} {r : Nat}
    (hk : Void m k ∨ (opAt σ.2.minted k = some op ∧ logged σ.2.logs k op n = true
      ∧ (m.mono = true → opAt (σ.1.log n) k = some op)))
    (he : (watched sort).exec i (.node n) io (.node (.ack k op)) σ = some (r, σ')) :
    (logic sort m).Change i σ σ' ∧ Acked m σ' n k op := by
  obtain ⟨node, hn, rfl⟩ := exec_node sort he
  obtain ⟨-, rfl⟩ := Prod.mk.inj (Option.some.inj hn)
  have hsub : σ.2.acks ⊆ ((σ.2.seeLog n (σ.1.log n)).note i n (.ack k op) r).acks := List.subset_cons_self ..
  refine ⟨change_note sort h (σ.1.log n) rfl rfl hsub (fun _ _ => rfl) ?_ ?_ ?_,
    .inr ⟨_, List.mem_cons_self, rfl, rfl, rfl⟩⟩
  · intro a ha
    rcases List.mem_cons.mp ha with rfl | ha
    · exact hk.imp id (fun ⟨h₁, h₂, _⟩ => ⟨h₁, logged_mono (List.subset_cons_self ..) h₂⟩)
    · exact h.acks a ha
  · intro e he
    exact (h.counted e he).imp id (fun ⟨a, ha, heq⟩ => ⟨a, hsub ha, heq⟩)
  · intro hm a ha
    rcases List.mem_cons.mp ha with rfl | ha
    · exact hk.imp id (fun ⟨_, _, h₃⟩ => h₃ hm)
    · exact h.kept hm a ha

/-- Counting a replica that has acknowledged what the thread forwards. -/
theorem change_count (h : Inv m σ) {io k : Nat} {op : Op} {ptr : ReplicaPtr} {q : NodeId} {r : Unit}
    (hcur : σ.2.current i = some (k, op)) (hq : Acked m σ q k op)
    (he : (watched sort).exec i (.node n) io (.node (.setReplicaAlive ptr q true)) σ = some (r, σ')) :
    (logic sort m).Change i σ σ' := by
  obtain ⟨node, hn, rfl⟩ := exec_node sort he
  obtain ⟨-, rfl⟩ := Prod.mk.inj (Option.some.inj hn)
  have hnote : (σ.2.seeLog n (σ.1.node n).tablet.log).note i n (.setReplicaAlive ptr q true) r =
      { σ.2.seeLog n (σ.1.node n).tablet.log with counted := (q, k, op) :: σ.2.counted } := by
    have hcur : (σ.2.seeLog n (σ.1.node n).tablet.log).current i = some (k, op) := hcur
    show (σ.2.seeLog n (σ.1.node n).tablet.log).count i q = _
    simp only [Past.count, hcur]
    rfl
  rw [hnote]
  refine change_note sort h (σ.1.log n) rfl rfl (List.Subset.refl _) (fun _ _ => rfl) h.acks ?_ h.kept
  intro e he
  rcases List.mem_cons.mp he with rfl | he
  · exact hq
  · exact h.counted e he

theorem change_coord (h : Inv m σ) {io : Nat} {a : CoordAct} {r : coordSig.Res a}
    (he : (watched sort).exec i .coord io (.coord a) σ = some (r, σ')) :
    (logic sort m).Change i σ σ' := by
  obtain ⟨w', hw, rfl⟩ := System.exec_observe he
  have hw : World.exec i .coord io (.coord a) σ.1 = some (r, w') := hw
  obtain ⟨rfl, rfl⟩ := World.exec_coord hw
  have hg : Grows m σ ({ σ.1 with coord := (σ.1.coord.exec a).2 }, σ.2) :=
    ⟨List.prefix_refl _, List.Subset.refl _, List.Subset.refl _, fun _ _ => List.prefix_refl _⟩
  refine ⟨⟨h.logs, fun b hb => ?_, h.wal, h.acks, h.counted, h.kept⟩, hg,
    fun _ _ _ => ⟨hg, rfl, fun _ _ => .refl _ _ _⟩⟩
  obtain ⟨hlog, honly, hsound⟩ := h.leads b hb
  exact ⟨hlog, honly, hsound⟩

/-! ## Programs that only look -/

/-- One action of a node, and then the rest. -/
theorem safe_act {α : Type} {a : NodeAct} {f : a.Res → ClusterProg α} {Q : α → World × Past → Prop}
    (h : ∀ (σ₁ : World × Past) io (r : a.Res) (σ₂ : World × Past), Rely m i (.node n) σ σ₁ → Inv m σ₁ →
      m.Ok i (.node n) io (.node a) σ₁ →
      (watched sort).exec i (.node n) io (.node a) σ₁ = some (r, σ₂) →
      (logic sort m).Change i σ₁ σ₂ ∧ (logic sort m).Safe i (.node n) (f r) Q σ₂) :
    (logic sort m).Safe i (.node n) (Manager.act a >>= f) Q σ := h

/-- Plain actions of nodes, and the coordinator's. -/
def ActPlain : Act → Prop
  | .node a => Plain a
  | .coord _ => True

/-- Requests other than REPLICATE. -/
def CallPlain (c : Call) : Prop := ∀ n k op, c ≠ .replicate n k op

/-- Programs of these. -/
theorem safe_plain {α : Type} {prog : ClusterProg α} (hp : prog.Only ActPlain CallPlain) (i : Nat) (l : Place)
    (σ : World × Past) : (logic sort m).Safe i l prog (fun _ _ => True) σ := by
  refine Logic.safe_of_only (L := logic sort m) ?_ ?_ hp σ
  · intro a io σ r σ' ha hi hok he
    cases l with
    | node n =>
        cases a with
        | node a => exact change_plain sort hi ha hok he
        | coord a => exact absurd he nofun
    | coord =>
        cases a with
        | node a => exact absurd he nofun
        | coord a => exact change_coord sort hi he
  · intro c j σ hc _
    cases c with
    | replicate n k op => exact absurd rfl (hc n k op)
    | _ => trivial

theorem safe_lift {α : Type} (prog : CoordProg α) (i : Nat) (l : Place) (σ : World × Past) :
    (logic sort m).Safe i l (prog.lift coordHom) (fun _ _ => True) σ :=
  safe_plain sort (Prog.only_lift coordHom (fun _ => trivial) (fun c => by cases c <;> exact nofun) prog) i l σ

/-! ## Under `wal_mu_` -/

/-- The end of a program under `wal_mu_`. -/
theorem safe_unlockWal {α : Type} {x : α} {Q : α → World × Past → Prop} (hf : Filing i (σ.1.node n))
    (hq : ∀ σ' : World × Past, Grows m σ σ' → Q x σ') :
    (logic sort m).Safe i (.node n) (Manager.act .unlockWal >>= fun _ => pure x) Q σ := by
  refine safe_act sort ?_
  intro σ₁ io r σ₂ hr hi _ he
  have hch := change_unlockWal sort hi (hf.rely hr) he
  refine ⟨hch, ?_⟩
  intro σ₃ hr₃ _
  exact hq σ₃ ((hr.grows.trans hch.step).trans hr₃.grows)

/-- Whether it goes well or not, `checkpoint_locked` leaves the log file in line. -/
theorem safe_checkpointLocked (hmine : (σ.1.node n).tablet.walMu = some i) :
    (logic sort m).Safe i (.node n) Manager.checkpointLocked (fun _ σ => Filing i (σ.1.node n)) σ := by
  refine safe_act sort ?_
  intro σ₁ io (written : Bool) σ₂ hr hi hok he
  have hmine₁ := ((hr.keeps n rfl).wal hmine).walMu
  obtain ⟨hch, hmine₂, hfailed⟩ := change_ckptWrite sort hi hmine₁ hok he
  refine ⟨hch, ?_⟩
  cases written with
  | false => exact fun σ₃ hr₃ _ => (hfailed rfl).rely hr₃
  | true =>
      intro σ₃ io₃ r₃ σ₄ hr₃ hi₃ hok₃ he₃
      have hmine₃ := ((hr₃.keeps n rfl).wal hmine₂).walMu
      obtain ⟨hch₄, hfiling⟩ := change_ckptTruncate sort hi₃ hmine₃ hok₃ he₃
      exact ⟨hch₄, fun σ₅ hr₅ _ => hfiling.rely hr₅⟩

theorem safe_checkpoint : (logic sort m).Safe i (.node n) Manager.checkpoint (fun _ _ => True) σ := by
  refine safe_act sort ?_
  intro σ₁ io r σ₂ _ hi _ he
  obtain ⟨hch, hfiling⟩ := change_lockWal sort hi he
  refine ⟨hch, Logic.Safe.bind (L := logic sort m) ((safe_checkpointLocked sort hfiling.walMu).weaken ?_) hch.inv⟩
  intro ok σ₃ _ hfiling₃ _
  exact safe_unlockWal sort hfiling₃ (fun _ _ => trivial)

/-- A snapshot, not at the one primary. -/
theorem safe_loadSnapshotBlob (hne : m.fixed ≠ some n) {image : Image}
    (himage : none ∉ image.log → image.log <+: σ.2.minted) :
    (logic sort m).Safe i (.node n) (Manager.loadSnapshotBlob image) (fun _ _ => True) σ := by
  refine safe_act sort ?_
  intro σ₁ io (read : Option Image) σ₂ hr hi hok he
  have hch := change_plain sort (a := .readSnapshot image) hi trivial hok he
  -- it is read as it was written
  have hread : read = some image := by
    obtain ⟨node, hn, rfl⟩ := exec_node sort he
    rw [← (Prod.mk.inj (Option.some.inj hn)).1]
    exact if_pos hok.2.1
  subst hread
  refine ⟨hch, safe_act sort ?_⟩
  intro σ₃ io₃ r₃ σ₄ hr₃ hi₃ _ he₃
  obtain ⟨hch₄, hfiling⟩ := change_lockWal sort hi₃ he₃
  refine ⟨hch₄, safe_act sort ?_⟩
  intro σ₅ io₅ r₅ σ₆ hr₅ hi₅ hok₅ he₅
  have hmine₅ := ((hr₅.keeps n rfl).wal hfiling.walMu).walMu
  have hgrow := (((hr.grows.trans hch.step).trans hr₃.grows).trans hch₄.step).trans hr₅.grows
  obtain ⟨hch₆, hmine₆⟩ := change_install sort hi₅ hmine₅ (fun hw => (himage hw).trans hgrow.minted) hne hok₅ he₅
  refine ⟨hch₆, Logic.Safe.bind (L := logic sort m) ((safe_checkpointLocked sort hmine₆).weaken ?_) hch₆.inv⟩
  intro ok σ₇ _ hfiling₇ _
  exact safe_unlockWal sort hfiling₇ (fun _ _ => trivial)

/-- **The entries of a delta**, one after the other. -/
theorem safe_applyEntries (entries : List (Op × Nat)) (hd : ∀ e ∈ entries, opAt σ.2.minted e.2 = some e.1)
    (hf : Filing i (σ.1.node n)) :
    (logic sort m).Safe i (.node n) (Manager.applyEntries entries) (fun _ σ => Filing i (σ.1.node n)) σ := by
  induction entries generalizing σ with
  | nil => exact fun σ' hr _ => hf.rely hr
  | cons e rest ih =>
      obtain ⟨op, k⟩ := e
      refine safe_act sort ?_
      intro σ₁ io (receipt : Receipt) σ₂ hr hi _ he
      have hd₁ : ∀ e ∈ (op, k) :: rest, opAt σ₁.2.minted e.2 = some e.1 :=
        fun e he => opAt_extend hr.grows.minted (hd e he)
      have hc : Carries m σ₁ (.replicate n k op) := .inr (hd₁ (op, k) List.mem_cons_self)
      obtain ⟨hch, hf₂, -, hne⟩ := change_logNext sort hi (hf.rely hr) hc he
      have hrest : ∀ e ∈ rest, opAt σ₂.2.minted e.2 = some e.1 :=
        fun e he => opAt_extend hch.step.minted (hd₁ e (List.mem_cons_of_mem _ he))
      refine ⟨hch, ?_⟩
      cases receipt with
      | known =>
          show (logic sort m).Safe i (.node n) (if _ then _ else _) _ σ₂
          split
          · exact ih hrest hf₂
          · -- no entry is skipped by a wrong length
            exact safe_act sort (fun σ₃ _ _ _ _ _ hok₃ _ => hok₃.2.1.elim)
      | refused => exact fun σ₃ hr₃ _ => hf₂.rely hr₃
      | logged =>
          -- not at the one primary, whose map is its writer's
          refine safe_act sort ?_
          intro σ₃ io₃ r₃ σ₄ hr₃ hi₃ _ he₃
          obtain ⟨hch₄, hf₄, -⟩ := change_applyRow sort hi₃ (hf₂.rely hr₃) (fun hfix => absurd hfix (hne rfl)) he₃
          exact ⟨hch₄, ih (fun e he => opAt_extend (hr₃.grows.trans hch₄.step).minted (hrest e he)) hf₄⟩

theorem safe_applyWalDeltaBlob {entries : List (Op × Nat)}
    (hd : ∀ e ∈ entries, opAt σ.2.minted e.2 = some e.1) :
    (logic sort m).Safe i (.node n) (Manager.applyWalDeltaBlob entries) (fun _ _ => True) σ := by
  refine safe_act sort ?_
  intro σ₁ io r σ₂ hr hi _ he
  obtain ⟨hch, hfiling⟩ := change_lockWal sort hi he
  have hd₂ : ∀ e ∈ entries, opAt σ₂.2.minted e.2 = some e.1 :=
    fun e he => opAt_extend (hr.grows.trans hch.step).minted (hd e he)
  refine ⟨hch, Logic.Safe.bind (L := logic sort m) ((safe_applyEntries sort entries hd₂ hfiling).weaken ?_) hch.inv⟩
  intro ok σ₃ _ hfiling₃ _
  exact safe_unlockWal sort hfiling₃ (fun _ _ => trivial)

/-! ## REPLICATE -/

/-- The node has logged the operation, and still has it where logs only grow. -/
def Has (m : Mode) (σ : World × Past) (n : NodeId) (k : Nat) (op : Op) : Prop :=
  Void m k ∨ (opAt σ.2.minted k = some op ∧ logged σ.2.logs k op n = true
    ∧ (m.mono = true → opAt (σ.1.log n) k = some op))

theorem Has.grow {k : Nat} {op : Op} (h : Has m σ n k op) (hg : Grows m σ σ') : Has m σ' n k op :=
  h.imp id (fun ⟨h₁, h₂, h₃⟩ => ⟨opAt_extend hg.minted h₁, logged_mono hg.seen h₂,
    fun hm => opAt_extend (hg.logs hm n) (h₃ hm)⟩)

/-- An LSN that the log reaches. -/
theorem has_of_le (h : Inv m σ) {k : Nat} {op : Op} (hc : Carries m σ (.replicate n k op))
    (hk : k ≤ (σ.1.log n).length) (hseen : (n, σ.1.log n) ∈ σ.2.logs) : Has m σ n k op := by
  refine hc.imp id (fun hop => ?_)
  have hlog : opAt (σ.1.log n) k = some op := (opAt_prefix_of_le (h.logs n) hk).trans hop
  refine ⟨hop, ?_, fun _ => hlog⟩
  exact List.any_eq_true.mpr ⟨_, hseen, decide_eq_true ⟨rfl, hlog⟩⟩

theorem note_logs (p : Past) (a : NodeAct) (r : a.Res) : (p.note i n a r).logs = p.logs := by
  unfold Past.note
  split <;> try rfl
  unfold Past.count
  split <;> rfl

/-- The log of the node is written down with every action. -/
theorem mem_logs_of_exec {io : Nat} {a : NodeAct} {r : a.Res}
    (he : (watched sort).exec i (.node n) io (.node a) σ = some (r, σ')) :
    (n, σ'.1.log n) ∈ σ'.2.logs := by
  obtain ⟨node, -, rfl⟩ := exec_node sort he
  show (n, (σ.1.setNode n node).log n) ∈ ((σ.2.seeLog n node.tablet.log).note i n a r).logs
  rw [World.log_setNode_self]
  rw [note_logs]
  exact List.mem_cons_self

/-- **The tablet's part**: it looks at the LSN once more, under `wal_mu_`. -/
theorem safe_applyReplicated (k : Nat) (op : Op) (hc : Carries m σ (.replicate n k op)) :
    (logic sort m).Safe i (.node n) (Manager.applyReplicated k op)
      (fun ok σ => ok = true → Has m σ n k op) σ := by
  refine safe_act sort ?_
  intro σ₁ io r σ₂ hr hi _ he
  obtain ⟨hch, hf⟩ := change_lockWal sort hi he
  have hc₂ := (hc.grow hr.grows).grow hch.step
  refine ⟨hch, safe_act sort ?_⟩
  intro σ₃ io₃ (receipt : Receipt) σ₄ hr₃ hi₃ _ he₃
  have hc₃ := hc₂.grow hr₃.grows
  obtain ⟨hch₄, hf₄, hle, hne⟩ := change_logNext sort hi₃ (hf.rely hr₃) hc₃ he₃
  have hhas : receipt ≠ .refused → Has m σ₄ n k op :=
    fun hr => has_of_le hch₄.inv (hc₃.grow hch₄.step) (hle hr) (mem_logs_of_exec sort he₃)
  refine ⟨hch₄, ?_⟩
  cases receipt with
  | known => exact safe_unlockWal sort hf₄ (fun σ' hg _ => (hhas (by simp)).grow hg)
  | refused => exact safe_unlockWal sort hf₄ (fun σ' _ h => absurd h (by simp))
  | logged =>
      refine safe_act sort ?_
      intro σ₅ io₅ r₅ σ₆ hr₅ hi₅ _ he₅
      obtain ⟨hch₆, hf₆, -⟩ := change_applyRow sort hi₅ (hf₄.rely hr₅) (fun hfix => absurd hfix (hne rfl)) he₅
      have hhas₆ := (hhas (by simp)).grow (hr₅.grows.trans hch₆.step)
      exact ⟨hch₆, safe_unlockWal sort hf₆ (fun σ' hg _ => hhas₆.grow hg)⟩

theorem safe_applyReplicate (k : Nat) (op : Op) (hc : Carries m σ (.replicate n k op)) :
    (logic sort m).Safe i (.node n) (Manager.applyReplicate k op)
      (fun ok σ => ok = true → Has m σ n k op) σ := by
  refine safe_act sort ?_
  intro σ₁ io (current : Nat) σ₂ hr hi hok he
  have hch := change_plain sort (a := .lsn) hi trivial hok he
  have hc₂ : Carries m σ₂ (.replicate n k op) := (hc.grow hr.grows).grow hch.step
  have hcur : current = (σ₂.1.log n).length := by
    obtain ⟨node, hn, rfl⟩ := exec_node sort he
    obtain ⟨rfl, rfl⟩ := Prod.mk.inj (Option.some.inj hn)
    rw [World.log_setNode_self]
    rfl
  refine ⟨hch, ?_⟩
  split
  · -- a duplicate: the log reaches this far, and all logs begin what was minted
    rename_i hle
    intro σ₃ hr₃ _ _
    exact (has_of_le hch.inv hc₂ (hcur ▸ hle) (mem_logs_of_exec sort he)).grow hr₃.grows
  · split
    · exact fun _ _ _ h => absurd h (by simp)
    · exact safe_applyReplicated sort k op hc₂

/-- **REPLICATE.** -/
theorem safe_onReplicate (k : Nat) (op : Op) (hi : Inv m σ) (hc : Carries m σ (.replicate n k op)) :
    (logic sort m).Safe i (.node n) (Manager.onReplicate k op)
      (fun r σ => Tells m σ (.replicate n k op) r) σ := by
  refine Logic.Safe.bind (L := logic sort m) ((safe_applyReplicate sort k op hc).weaken ?_) hi
  intro ok σ₁ _ hhas _
  split
  · rename_i htrue
    refine safe_act sort ?_
    intro σ₂ io r σ₃ hr₂ hi₂ _ he
    obtain ⟨hch, hack⟩ := change_ack sort hi₂ ((hhas htrue).grow hr₂.grows) he
    refine ⟨hch, ?_⟩
    rintro σ₄ hr₄ - n' k' op' ⟨⟩
    exact hack.grow hr₄.grows
  · exact fun _ _ _ => trivial

/-! ## SYNC_FROM -/

/-- A delta read off a log file that ends the log. -/
theorem safe_walDeltaAfter {α : Type} (k : Nat) {f : List (Op × Nat) → ClusterProg α}
    {Q : α → World × Past → Prop}
    (hf : ∀ delta (σ' : World × Past), Grows m σ σ' → Inv m σ' →
      (∀ e ∈ delta, opAt σ'.2.minted e.2 = some e.1) → (logic sort m).Safe i (.node n) (f delta) Q σ') :
    (logic sort m).Safe i (.node n) (Manager.act (.walDeltaAfter k) >>= f) Q σ := by
  refine safe_act sort ?_
  intro σ₁ io (delta : List (Op × Nat)) σ₂ hr hi hok he
  have hch := change_plain sort (a := .walDeltaAfter k) hi trivial hok he
  refine ⟨hch, hf delta σ₂ (hr.grows.trans hch.step) hch.inv ?_⟩
  intro e hmem
  obtain ⟨node, hn, rfl⟩ := exec_node sort he
  obtain ⟨hfree, hn⟩ := Option.ite_none_right_eq_some.mp hn
  obtain ⟨rfl, rfl⟩ := Prod.mk.inj (Option.some.inj hn)
  exact opAt_extend (hi.logs n) (Replica.mem_walDeltaAfter (hi.wal n hfree) hmem).1

theorem plain_copyRows (k : Nat) (order : List Field) (rows : List (Field × Cols)) (missed : Bool) :
    (Manager.copyRows k order rows missed).Only ActPlain CallPlain := by
  induction order generalizing rows missed with
  | nil => trivial
  | cons key order ih => exact ⟨trivial, fun (q : Cols × Bool) => ih _ _⟩

/-- **A snapshot without a hole is a piece of what has been minted.** -/
theorem safe_snapshotBlob :
    (logic sort m).Safe i (.node n) Manager.snapshotBlob
      (fun image σ => none ∉ image.log → image.log <+: σ.2.minted) σ := by
  refine safe_act sort ?_
  intro σ₁ io (header : Header) σ₂ _ hi hok he
  have hch := change_plain sort (a := .snapHeader) hi trivial hok he
  have hlog : header.log <+: σ₂.2.minted := by
    obtain ⟨node, hn, rfl⟩ := exec_node sort he
    obtain ⟨-, hn⟩ := Option.ite_none_right_eq_some.mp hn
    obtain ⟨rfl, rfl⟩ := Prod.mk.inj (Option.some.inj hn)
    exact hi.logs n
  have hcopy : (logic sort m).Safe i (.node n) (Manager.copyRows header.log.length header.order [] false)
      (fun _ σ => header.log <+: σ.2.minted ∧ True) σ₂ :=
    (safe_plain sort (plain_copyRows _ _ _ _) i (.node n) σ₂).persist (fun hg h => h.trans hg.minted) hlog
  refine ⟨hch, Logic.Safe.bind (L := logic sort m) (hcopy.weaken ?_) hch.inv⟩
  intro rows σ₃ _ hlog₃ _
  refine safe_act sort ?_
  intro σ₄ io₄ r₄ σ₅ hr₄ hi₄ hok₄ he₄
  have hch₅ := change_plain sort (a := .snapEnd) hi₄ trivial hok₄ he₄
  refine ⟨hch₅, ?_⟩
  intro σ₆ hr₆ _ hwhole
  have hgrow := (hr₄.grows.trans hch₅.step).trans hr₆.grows
  unfold Header.image at hwhole ⊢
  split
  · -- the image of a snapshot that missed something has a hole
    exact absurd hwhole (by simp [*])
  · exact hlog₃.1.trans hgrow.minted

/-- **What `build_sync_response` sends is a piece of what has been minted.** -/
theorem safe_buildSyncResponse (c : Call) (ver lsn : Nat) :
    (logic sort m).Safe i (.node n) (Manager.buildSyncResponse ver lsn) (fun r σ => Tells m σ c r) σ := by
  have hdelta : ∀ delta (σ : World × Past), (∀ e ∈ delta, opAt σ.2.minted e.2 = some e.1) →
      (logic sort m).Safe i (.node n) (pure (.sync (.delta delta))) (fun r σ => Tells m σ c r) σ :=
    fun delta σ h σ' hr _ e he => opAt_extend hr.grows.minted (h e he)
  have hsnap : ∀ σ : World × Past, Inv m σ → (logic sort m).Safe i (.node n)
      (Manager.snapshotBlob >>= fun image => pure (.sync (.snapshot image)))
      (fun r σ => Tells m σ c r) σ := by
    intro σ hi
    refine Logic.Safe.bind (L := logic sort m) ((safe_snapshotBlob sort).weaken ?_) hi
    intro image σ' _ himage _ σ'' hr _ hw
    exact (himage hw).trans hr.grows.minted
  refine safe_act sort ?_
  intro σ₁ io (localLsn : Nat) σ₂ _ hi hok he
  refine ⟨change_plain sort (a := .lsn) hi trivial hok he, ?_⟩
  split
  · -- the requester is not behind
    exact safe_walDeltaAfter sort lsn (fun delta σ' _ _ h => hdelta delta σ' h)
  · refine safe_act sort ?_
    intro σ₃ io₃ (localVer : Nat) σ₄ _ hi₃ hok₃ he₃
    have hch₄ := change_plain sort (a := .checkpointVersion) hi₃ trivial hok₃ he₃
    refine ⟨hch₄, ?_⟩
    split
    · -- the versions are the same: a delta, if the log file reaches back far enough
      refine safe_walDeltaAfter sort lsn (fun delta σ' _ hi' h => ?_)
      cases delta with
      | nil => exact hsnap σ' hi'
      | cons e delta =>
          obtain ⟨op, first⟩ := e
          show (logic sort m).Safe i (.node n) (if first ≠ lsn + 1 then _ else _) _ σ'
          split
          · exact hsnap σ' hi'
          · exact hdelta _ σ' h
    · exact hsnap σ₄ hch₄.inv

/-- Loading an answer to SYNC_FROM, not at the one primary. -/
theorem safe_install (hne : m.fixed ≠ some n) {c : Call} {o : Outcome Reply}
    (ho : ∀ r, o = .reply r → Tells m σ c r) :
    (logic sort m).Safe i (.node n) (Manager.install o) (fun _ _ => True) σ := by
  unfold Manager.install
  split
  · exact safe_loadSnapshotBlob sort hne (ho _ rfl)
  · exact safe_applyWalDeltaBlob sort (ho _ rfl)
  · exact fun _ _ _ => trivial

/-- **BECOME_SECONDARY.** A demotion the condition allows is not of the one primary. -/
theorem safe_becomeSecondaryAndSync (source : NodeId) (hi : Inv m σ) :
    (logic sort m).Safe i (.node n) (Manager.becomeSecondaryAndSync source) (fun _ _ => True) σ := by
  have hdemote : (logic sort m).Safe i (.node n) Manager.demoteToSecondary
      (fun _ _ => m.fixed ≠ some n) σ := by
    refine safe_act sort ?_
    intro σ₁ io r σ₂ _ hi hok he
    refine ⟨change_plain sort (a := .clearReplicas false) hi trivial hok he, ?_⟩
    intro σ₃ io₃ r₃ σ₄ _ hi₃ hok₃ he₃
    refine ⟨change_plain sort (a := .setPrimary false) hi₃ trivial hok₃ he₃, fun _ _ _ hf => ?_⟩
    have hone := hok₃.1
    rw [hf] at hone
    have hone : false = true ↔ n = n := hone.1
    exact absurd (hone.mpr rfl) (by simp)
  refine Logic.Safe.bind (L := logic sort m) (hdemote.weaken ?_) hi
  intro _ σ₁ _ hne _
  refine safe_act sort ?_
  intro σ₂ io (ver : Nat) σ₃ _ hi₂ hok₂ he₂
  refine ⟨change_plain sort (a := .checkpointVersion) hi₂ trivial hok₂ he₂, safe_act sort ?_⟩
  intro σ₄ io₄ (lsn : Nat) σ₅ _ hi₄ hok₄ he₄
  refine ⟨change_plain sort (a := .lsn) hi₄ trivial hok₄ he₄, ?_⟩
  exact Logic.Safe.request (L := logic sort m) (fun _ _ _ _ _ => trivial)
    (fun o σ₆ _ _ ho => safe_install sort hne ho)

/-! ## Client writes -/

/-- A client write at work: it holds the lock, at the one primary if there is one. -/
structure Locked (m : Mode) (i : Nat) (n : NodeId) (σ : World × Past) : Prop where
  lock : (σ.1.node n).writing = some i
  fixed : ∀ b, m.fixed = some b → n = b

/-- It has logged an operation of its own. -/
structure Owns (m : Mode) (i : Nat) (n : NodeId) (k : Nat) (op : Op) (σ : World × Past) : Prop where
  locked : Locked m i n σ
  current : σ.2.current i = some (k, op)
  carries : Void m k ∨ opAt σ.2.minted k = some op

/-- And has brought it into the map. -/
structure Mine (m : Mode) (i : Nat) (n : NodeId) (k : Nat) (op : Op) (σ : World × Past) : Prop where
  owns : Owns m i n k op σ
  cell : m.fixed = some n → (σ.1.node n).tablet.rows.cell op.cell = op.value

theorem Mine.locked {k : Nat} {op : Op} (h : Mine m i n k op σ) : Locked m i n σ := h.owns.locked

theorem Locked.rely (h : Locked m i n σ) (hr : Rely m i (.node n) σ σ') : Locked m i n σ' :=
  ⟨((hr.keeps n rfl).lock h.lock).writing, h.fixed⟩

theorem Owns.rely {k : Nat} {op : Op} (h : Owns m i n k op σ) (hr : Rely m i (.node n) σ σ') :
    Owns m i n k op σ' :=
  ⟨h.locked.rely hr, hr.current.trans h.current,
    h.carries.imp id (fun hop => opAt_extend hr.grows.minted hop)⟩

theorem Mine.rely {k : Nat} {op : Op} (h : Mine m i n k op σ) (hr : Rely m i (.node n) σ σ') :
    Mine m i n k op σ' := by
  refine ⟨h.owns.rely hr, fun hf => ?_⟩
  rw [((hr.keeps n rfl).lock h.locked.lock).rows hf]
  exact h.cell hf

/-- Actions that change neither the role nor the lock, and log nothing on the node's own
account. -/
def Silent : NodeAct → Prop
  | .lockWrite => False
  | .answer _ => False
  | .clearReplicas _ => False
  | .setPrimary _ => False
  | .addReplica _ => False
  | .logOp _ => False
  | .cput _ _ _ _ => False
  | .del _ _ => False
  | _ => True

theorem Silent.not_managing {a : NodeAct} (ha : Silent a) : ¬ Node.Managing a := by
  cases a <;> first | exact ha.elim | exact id

theorem note_silent {a : NodeAct} (ha : Silent a) (p : Past) (r : a.Res) :
    (p.note i n a r).current = p.current ∧ (p.note i n a r).minted = p.minted := by
  unfold Past.note
  split <;> first | exact ha.elim | exact ⟨rfl, rfl⟩ | skip
  unfold Past.count
  split <;> exact ⟨rfl, rfl⟩

/-- What a silent action of the write itself leaves alone. -/
theorem Locked.exec {io : Nat} {a : NodeAct} {r : a.Res} (h : Locked m i n σ) (ha : Silent a)
    (he : (watched sort).exec i (.node n) io (.node a) σ = some (r, σ')) : Locked m i n σ' := by
  obtain ⟨node, hn, rfl⟩ := exec_node sort he
  refine ⟨?_, h.fixed⟩
  rw [World.setNode_self, Node.exec_tablet ha.not_managing hn]
  exact h.lock

theorem Owns.exec {k io : Nat} {op : Op} {a : NodeAct} {r : a.Res} (h : Owns m i n k op σ) (ha : Silent a)
    (he : (watched sort).exec i (.node n) io (.node a) σ = some (r, σ')) : Owns m i n k op σ' := by
  have hlocked := h.locked.exec sort ha he
  obtain ⟨node, hn, rfl⟩ := exec_node sort he
  obtain ⟨hcurrent, hminted⟩ := note_silent (i := i) (n := n) ha (σ.2.seeLog n node.tablet.log) r
  refine ⟨hlocked, ?_, ?_⟩
  · rw [hcurrent]; exact h.current
  · rw [hminted]; exact h.carries

/-- Actions that leave the map alone besides. -/
theorem Mine.exec {k io : Nat} {op : Op} {a : NodeAct} {r : a.Res} (h : Mine m i n k op σ) (ha : Silent a)
    (hrows : ∀ node, (σ.1.node n).exec i io a = some (r, node) → node.tablet.rows = (σ.1.node n).tablet.rows)
    (he : (watched sort).exec i (.node n) io (.node a) σ = some (r, σ')) : Mine m i n k op σ' := by
  have howns := h.owns.exec sort ha he
  obtain ⟨node, hn, rfl⟩ := exec_node sort he
  refine ⟨howns, ?_⟩
  rw [World.setNode_self, hrows node hn]
  exact h.cell

/-! ### Forwarding -/

/-- A REPLICATE that is answered `+OK` has been acknowledged. -/
theorem safe_forwardToReplica (q : NodeId) {k : Nat} {op : Op} {l : Place}
    (hc : Void m k ∨ opAt σ.2.minted k = some op) :
    (logic sort m).Safe i l (Manager.forwardToReplica q k op)
      (fun ok σ => ok = true → Acked m σ q k op) σ := by
  have hreq : ∀ σ', Grows m σ σ' → Carries m σ' (.replicate q k op) :=
    fun σ' hg => Carries.grow (c := .replicate q k op) hc hg
  have hok : ∀ o (σ : World × Past), (∀ r, o = .reply r → Tells m σ (.replicate q k op) r) →
      ∀ σ', Grows m σ σ' → Manager.isOk o = true → Acked m σ' q k op := by
    intro o σ hrep σ' hg ho
    unfold Manager.isOk at ho
    split at ho
    · exact Acked.grow (hrep .ok rfl q k op rfl) hg
    · exact absurd ho (by simp)
  refine Logic.Safe.request (L := logic sort m) (fun σ₁ _ hr _ _ => hreq σ₁ hr.grows) ?_
  intro o σ₁ hr₁ _ hrep
  cases o with
  | sendFailed =>
      refine Logic.Safe.request (L := logic sort m)
        (fun σ₂ _ hr _ _ => hreq σ₂ (hr₁.grows.trans hr.grows)) ?_
      intro o σ₂ _ _ hrep σ₃ hr₃ _
      exact hok o σ₂ hrep σ₃ hr₃.grows
  | refused => exact fun σ₂ hr₂ _ => hok .refused σ₁ nofun σ₂ hr₂.grows
  | noReply => exact fun σ₂ hr₂ _ => hok .noReply σ₁ nofun σ₂ hr₂.grows
  | reply rep => exact fun σ₂ hr₂ _ => hok (.reply rep) σ₁ hrep σ₂ hr₂.grows

theorem safe_forwardRepairing (self q : NodeId) {k : Nat} {op : Op} (hi : Inv m σ)
    (hmine : Mine m i n k op σ) :
    (logic sort m).Safe i (.node n) (Manager.forwardRepairing self q k op)
      (fun ok σ => Mine m i n k op σ ∧ (ok = true → Acked m σ q k op)) σ := by
  have hforward : ∀ σ, Mine m i n k op σ → (logic sort m).Safe i (.node n) (Manager.forwardToReplica q k op)
      (fun ok σ => Mine m i n k op σ ∧ (ok = true → Acked m σ q k op)) σ :=
    fun σ h => (safe_forwardToReplica sort q h.owns.carries).keep (Manager.asks_forwardToReplica q k op)
      (fun hr h => Mine.rely h hr) (fun h => h.elim) h
  refine Logic.Safe.bind (L := logic sort m) ((hforward σ hmine).weaken ?_) hi
  intro ok σ₁ hi₁ hσ₁ _
  split
  · exact fun σ₂ hr _ => ⟨hσ₁.1.rely hr, fun h => (hσ₁.2 ‹_›).grow hr.grows⟩
  · -- a resync, and the request once more
    refine Logic.Safe.request (L := logic sort m) (fun _ _ _ _ _ => trivial) ?_
    intro o σ₂ hr₂ hi₂ _
    show (logic sort m).Safe i (.node n) (if Manager.isOk o then _ else _) _ σ₂
    split
    · exact hforward σ₂ (hσ₁.1.rely hr₂)
    · exact fun σ₃ hr₃ _ => ⟨(hσ₁.1.rely hr₂).rely hr₃, fun h => absurd h (by simp)⟩

theorem safe_forwardEach (self : NodeId) {k : Nat} {op : Op} (ps : List ReplicaPtr) (acked : Nat)
    (hmine : Mine m i n k op σ) :
    (logic sort m).Safe i (.node n) (Manager.forwardEach self k op ps acked)
      (fun _ σ => Mine m i n k op σ) σ := by
  induction ps generalizing acked σ with
  | nil => exact fun σ' hr _ => hmine.rely hr
  | cons ptr ps ih =>
      refine safe_act sort ?_
      intro σ₁ io (q : NodeId) σ₂ hr hi hok he
      have hch := change_plain sort (a := .readReplica ptr) hi trivial hok he
      have hmine₂ := (hmine.rely hr).exec sort (a := .readReplica ptr) trivial
        (fun _ hn => by rw [← (Prod.mk.inj (Option.some.inj hn)).2]) he
      refine ⟨hch, Logic.Safe.bind (L := logic sort m)
        ((safe_forwardRepairing sort self q hch.inv hmine₂).weaken ?_) hch.inv⟩
      intro ok σ₃ _ hσ₃ _
      -- the replica is counted for the operation that is still this thread's own
      refine safe_act sort ?_
      intro σ₄ io₄ r₄ σ₅ hr₄ hi₄ hok₄ he₄
      have hmine₄ := hσ₃.1.rely hr₄
      have hch₅ : (logic sort m).Change i σ₄ σ₅ := by
        cases ok with
        | true => exact change_count sort hi₄ hmine₄.owns.current ((hσ₃.2 rfl).grow hr₄.grows) he₄
        | false => exact change_plain sort (a := .setReplicaAlive ptr q false) hi₄ trivial hok₄ he₄
      have hmine₅ := hmine₄.exec sort (a := .setReplicaAlive ptr q ok) trivial
        (fun _ hn => by rw [← (Prod.mk.inj (Option.some.inj hn)).2]) he₄
      exact ⟨hch₅, ih _ hmine₅⟩

/-- **`forward_to_all`.** -/
theorem safe_forwardToAll {k : Nat} {op : Op} (hmine : Mine m i n k op σ) :
    (logic sort m).Safe i (.node n) (Manager.forwardToAll n k op) (fun _ σ => Mine m i n k op σ) σ := by
  refine safe_act sort ?_
  intro σ₁ io (ps : List ReplicaPtr) σ₂ hr hi hok he
  have hch := change_plain sort (a := .copyReplicas) hi trivial hok he
  have hmine₂ := (hmine.rely hr).exec sort (a := .copyReplicas) trivial
    (fun _ hn => by rw [← (Prod.mk.inj (Option.some.inj hn)).2]) he
  refine ⟨hch, ?_⟩
  split
  · exact fun σ₃ hr₃ _ => hmine₂.rely hr₃
  · exact Logic.Safe.bind (L := logic sort m) ((safe_forwardEach sort n ps 0 hmine₂).weaken
      (fun _ σ₃ _ h _ σ₄ hr₄ _ => h.rely hr₄)) hch.inv

/-! ### Logging -/

/-- Where the condition lets a node log, its log is all that has been minted. -/
theorem Inv.at_end (h : Inv m σ) (hl : Locked m i n σ) {io : Nat} {a : NodeAct}
    (hok : m.Ok i (.node n) io (.node a) σ) (ha : mints io (σ.1.node n) a = true) :
    σ.1.log n = σ.2.minted := by
  cases hf : m.fixed with
  | some b =>
      rw [hl.fixed b hf]
      exact (h.leads b hf).log
  | none =>
      have hfresh := hok.1
      rw [hf] at hfresh
      have hlen : σ.2.minted.length ≤ (σ.1.log n).length := hfresh ha
      exact (h.logs n).eq_of_length (Nat.le_antisymm (h.logs n).length_le hlen)

/-- After logging an operation. -/
theorem mint_spec (h : Inv m σ) (hl : Locked m i n σ) (hend : σ.1.log n = σ.2.minted) {op : Op}
    {t : Replica} (ht : Logs op (σ.1.node n).tablet t)
    (hwal : ∀ i', i' ≠ i → (σ.1.node n).tablet.walMu ≠ some i') (hfits : (σ.1.node n).tablet.WalFits) :
    (logic sort m).Change i σ (σ.1.setNode n ((σ.1.node n).withTablet t),
        (σ.2.seeLog n t.log).mint i ((σ.1.node n).tablet.lsn + 1) op)
      ∧ Owns m i n ((σ.1.node n).tablet.lsn + 1) op (σ.1.setNode n ((σ.1.node n).withTablet t),
        (σ.2.seeLog n t.log).mint i ((σ.1.node n).tablet.lsn + 1) op) := by
  obtain ⟨w, p⟩ := σ
  refine ⟨change_mint sort h ht rfl hend hl.fixed ⟨hl.lock, hwal⟩ hfits, ⟨?_, hl.fixed⟩,
    Function.update_self .., .inr ?_⟩
  · rw [World.setNode_self]
    exact hl.lock
  · have hend : (w.node n).tablet.log = p.minted := hend
    have hlt : p.minted.length < (w.node n).tablet.lsn + 1 := by
      rw [Replica.lsn, hend]; exact Nat.lt_succ_self _
    rw [minted_mint hlt, Replica.lsn, hend]
    exact opAt_append_last _ _

/-- After looking for a cell in vain, or without room on disk. -/
theorem idle_spec (h : Inv m σ) (hl : Locked m i n σ) (seen : Log) (current : Option (Nat × Op)) :
    (logic sort m).Change i σ (σ.1.setNode n (σ.1.node n),
        { σ.2.seeLog n seen with current := Function.update σ.2.current i current })
      ∧ Locked m i n (σ.1.setNode n (σ.1.node n),
        { σ.2.seeLog n seen with current := Function.update σ.2.current i current }) := by
  refine ⟨change_note sort h seen rfl rfl (List.Subset.refl _) (fun i' hi => Function.update_of_ne hi ..)
    h.acks h.counted h.kept, ?_, hl.fixed⟩
  rw [World.setNode_self]
  exact hl.lock

/-- The same without a new record. -/
theorem idle_spec_same (h : Inv m σ) (hl : Locked m i n σ) (seen : Log) :
    (logic sort m).Change i σ (σ.1.setNode n (σ.1.node n), σ.2.seeLog n seen)
      ∧ Locked m i n (σ.1.setNode n (σ.1.node n), σ.2.seeLog n seen) := by
  have hspec := idle_spec sort h hl seen (σ.2.current i)
  rw [Function.update_eq_self] at hspec
  exact hspec

/-- The record of a client's `put`. -/
theorem change_logOp (h : Inv m σ) {io : Nat} {op : Op} {r : Option Nat} (hl : Locked m i n σ)
    (hf : Filing i (σ.1.node n)) (hok : m.Ok i (.node n) io (.node (.logOp op)) σ)
    (he : (watched sort).exec i (.node n) io (.node (.logOp op)) σ = some (r, σ')) :
    (logic sort m).Change i σ σ' ∧ Filing i (σ'.1.node n) ∧ Locked m i n σ'
      ∧ ∀ k, r = some k → Owns m i n k op σ' := by
  obtain ⟨node, hn, rfl⟩ := exec_node sort he
  obtain ⟨hr, rfl⟩ := Prod.mk.inj (Option.some.inj hn)
  by_cases h0 : io = 0
  · have hidle : (σ.1.node n).tablet.logOp io op = (none, (σ.1.node n).tablet) := if_pos h0
    rw [hidle] at hr ⊢
    obtain rfl := hr
    obtain ⟨hch, hl₂⟩ := idle_spec_same sort h hl (σ.1.node n).tablet.log
    refine ⟨hch, ?_, hl₂, nofun⟩
    rw [World.setNode_self]
    exact hf
  · have hlog : (σ.1.node n).tablet.logOp io op
        = (some ((σ.1.node n).tablet.lsn + 1), (σ.1.node n).tablet.record op) := if_neg h0
    rw [hlog] at hr ⊢
    obtain rfl := hr
    have hwal : ∀ i', i' ≠ i → (σ.1.node n).tablet.walMu ≠ some i' := by
      intro i' hi hw
      rw [hf.walMu] at hw
      exact hi (Option.some.inj hw).symm
    obtain ⟨hch, howns⟩ := mint_spec sort h hl (h.at_end hl hok (decide_eq_true h0)) (.record _ op) hwal hf.fits
    refine ⟨hch, ?_, howns.locked, fun k hk => ?_⟩
    · rw [World.setNode_self]
      exact ⟨hf.walMu, hf.fits.record op⟩
    · obtain rfl := Option.some.inj hk
      exact howns

/-- **`put`.** -/
theorem safe_put {row col val : Field} (hl : Locked m i n σ) :
    (logic sort m).Safe i (.node n) (Manager.put row col val)
      (fun lsn σ => Locked m i n σ ∧ ∀ k, lsn = some k → Mine m i n k (.put row col val) σ) σ := by
  refine safe_act sort ?_
  intro σ₁ io r σ₂ hr hi _ he
  obtain ⟨hch, hf⟩ := change_lockWal sort hi he
  have hl₂ := (hl.rely hr).exec sort (a := .lockWal) trivial he
  refine ⟨hch, safe_act sort ?_⟩
  intro σ₃ io₃ (lsn : Option Nat) σ₄ hr₃ hi₃ hok₃ he₃
  obtain ⟨hch₄, hf₄, hl₄, howns⟩ := change_logOp sort hi₃ (hl₂.rely hr₃) (hf.rely hr₃) hok₃ he₃
  refine ⟨hch₄, ?_⟩
  cases lsn with
  | none =>
      -- the disk took nothing, and the lock is given back
      refine safe_act sort ?_
      intro σ₅ io₅ r₅ σ₆ hr₅ hi₅ _ he₅
      have hl₆ := (hl₄.rely hr₅).exec sort (a := .unlockWal) trivial he₅
      exact ⟨change_unlockWal sort hi₅ (hf₄.rely hr₅) he₅, fun σ₇ hr₇ _ => ⟨hl₆.rely hr₇, nofun⟩⟩
  | some k =>
      -- here a snapshot may be taken that counts the operation and lacks it
      refine safe_act sort ?_
      intro σ₅ io₅ r₅ σ₆ hr₅ hi₅ _ he₅
      have howns₅ := (howns k rfl).rely hr₅
      obtain ⟨hch₆, hf₆, hcell⟩ := change_applyRow sort hi₅ (hf₄.rely hr₅) (fun _ => howns₅.locked.lock) he₅
      have hmine₆ : Mine m i n k (.put row col val) σ₆ :=
        ⟨howns₅.exec sort (a := .applyRow _ false) trivial he₅, fun _ => hcell⟩
      refine ⟨hch₆, safe_act sort ?_⟩
      intro σ₇ io₇ r₇ σ₈ hr₇ hi₇ _ he₇
      have hmine₈ := (hmine₆.rely hr₇).exec sort (a := .unlockWal) trivial
        (fun _ hn => by rw [← (Prod.mk.inj (Option.some.inj hn)).2]; rfl) he₇
      refine ⟨change_unlockWal sort hi₇ (hf₆.rely hr₇) he₇, fun σ₉ hr₉ _ => ?_⟩
      have hmine₉ := hmine₈.rely hr₉
      refine ⟨hmine₉.locked, fun k' hk => ?_⟩
      obtain rfl := Option.some.inj hk
      exact hmine₉

/-- **`cput`.** -/
theorem safe_cput {α : Type} {row col v1 v2 : Field} {f : Option Nat → ClusterProg α}
    {Q : α → World × Past → Prop} (hl : Locked m i n σ)
    (hnone : ∀ σ', Inv m σ' → Locked m i n σ' → (logic sort m).Safe i (.node n) (f none) Q σ')
    (hsome : ∀ k σ', Inv m σ' → Mine m i n k (.put row col v2) σ' →
      (logic sort m).Safe i (.node n) (f (some k)) Q σ') :
    (logic sort m).Safe i (.node n) (Manager.act (.cput row col v1 v2) >>= f) Q σ := by
  refine safe_act sort ?_
  intro σ₁ io (lsn : Option Nat) σ₂ hr hi hok he
  have hl₁ := hl.rely hr
  obtain ⟨node, hn, rfl⟩ := exec_node sort he
  obtain ⟨hfree, hn⟩ := Option.ite_none_right_eq_some.mp hn
  obtain ⟨hr', rfl⟩ := Prod.mk.inj (Option.some.inj hn)
  rw [Replica.cput_eq] at hr' ⊢
  split at hr'
  · rename_i hfound
    obtain rfl := hr'
    rw [if_pos hfound]
    have hwal : ∀ i', i' ≠ i → (σ₁.1.node n).tablet.walMu ≠ some i' := by simp [hfree]
    obtain ⟨hch, howns⟩ := mint_spec sort hi hl₁
      (hi.at_end hl₁ hok (decide_eq_true hfound)) (.record_apply _ _) hwal (hi.wal n hfree)
    refine ⟨hch, hsome _ _ hch.inv ⟨howns, fun _ => ?_⟩⟩
    rw [World.setNode_self]
    exact Rows.cell_apply_self _ (.put row col v2)
  · rename_i hmissed
    obtain rfl := hr'
    rw [if_neg hmissed]
    obtain ⟨hch, hl₂⟩ := idle_spec_same sort hi hl₁ (σ₁.1.node n).tablet.log
    exact ⟨hch, hnone _ hch.inv hl₂⟩

/-- **`del`.** When it finds nothing the write can only forward LSN 0. -/
theorem safe_del {α : Type} {row col : Field} {f : Option (Option Nat) → ClusterProg α}
    {Q : α → World × Past → Prop} (hl : Locked m i n σ)
    (hnone : ∀ σ', Inv m σ' → Locked m i n σ' → (logic sort m).Safe i (.node n) (f none) Q σ')
    (hvoid : ∀ σ', Inv m σ' → Locked m i n σ' → σ'.2.current i = some (0, .del row col) →
      (m.fixed = some n → (σ.1.node n).tablet.rows.cell (row, col) = none) →
      (logic sort m).Safe i (.node n) (f (some none)) Q σ')
    (hsome : ∀ k σ', Inv m σ' → Mine m i n k (.del row col) σ' →
      (logic sort m).Safe i (.node n) (f (some (some k))) Q σ') :
    (logic sort m).Safe i (.node n) (Manager.act (.del row col) >>= f) Q σ := by
  refine safe_act sort ?_
  intro σ₁ io (lsn : Option (Option Nat)) σ₂ hr hi hok he
  have hl₁ := hl.rely hr
  obtain ⟨node, hn, rfl⟩ := exec_node sort he
  obtain ⟨hfree, hn⟩ := Option.ite_none_right_eq_some.mp hn
  obtain ⟨hr', rfl⟩ := Prod.mk.inj (Option.some.inj hn)
  rw [Replica.del_eq] at hr' ⊢
  split at hr'
  · rename_i hgone
    obtain rfl := hr'
    rw [if_pos hgone]
    obtain ⟨hch, hl₂⟩ := idle_spec sort hi hl₁ (σ₁.1.node n).tablet.log (some (0, .del row col))
    refine ⟨hch, hvoid _ hch.inv hl₂ (Function.update_self ..) (fun hf => ?_)⟩
    -- the map has not changed since, as the write holds the lock of the one primary
    rw [← ((hr.keeps n rfl).lock hl.lock).rows hf, ← (hi.leads n hf).sound.rows.get]
    exact hgone
  · rename_i hfound
    rw [if_neg hfound]
    split at hr'
    · rename_i h0
      obtain rfl := hr'
      rw [if_pos h0]
      obtain ⟨hch, hl₂⟩ := idle_spec_same sort hi hl₁ (σ₁.1.node n).tablet.log
      exact ⟨hch, hnone _ hch.inv hl₂⟩
    · rename_i h0
      obtain rfl := hr'
      rw [if_neg h0]
      have hwal : ∀ i', i' ≠ i → (σ₁.1.node n).tablet.walMu ≠ some i' := by simp [hfree]
      obtain ⟨hch, howns⟩ := mint_spec sort hi hl₁
        (hi.at_end hl₁ hok (decide_eq_true ⟨hfound, h0⟩)) (.record_apply _ _) hwal (hi.wal n hfree)
      refine ⟨hch, hsome _ _ hch.inv ⟨howns, fun _ => ?_⟩⟩
      rw [World.setNode_self]
      exact Rows.cell_apply_self _ (.del row col)

/-! ### From the test to the answer -/

theorem safe_finish (status : KVPutStatus) (hl : Locked m i n σ) :
    (logic sort m).Safe i (.node n) (Manager.finish status) (fun _ _ => True) σ := by
  refine safe_act sort ?_
  intro σ₁ io r σ₂ hr hi _ he
  exact ⟨change_answer sort hi (hl.rely hr).lock he, fun _ _ _ => trivial⟩

theorem safe_restore (row col val : Field) (hi : Inv m σ) (hl : Locked m i n σ) :
    (logic sort m).Safe i (.node n) (Manager.restore n row col val) (fun _ σ => Locked m i n σ) σ := by
  refine Logic.Safe.bind (L := logic sort m) ((safe_put sort hl).weaken ?_) hi
  intro (lsn : Option Nat) σ₁ hi₁ hput _
  cases lsn with
  | none => exact fun σ₂ hr _ => hput.1.rely hr
  | some k =>
      exact Logic.Safe.bind (L := logic sort m) ((safe_forwardToAll sort (hput.2 k rfl)).weaken
        (fun _ _ _ h _ _ hr _ => (h.rely hr).locked)) hi₁

/-- Taking back what this very write has put. -/
theorem safe_retract {k : Nat} {row col val : Field} (hmine : Mine m i n k (.put row col val) σ) :
    (logic sort m).Safe i (.node n) (Manager.retract n row col) (fun _ σ => Locked m i n σ) σ := by
  refine safe_del sort hmine.locked ?_ ?_ ?_
  · exact fun σ' _ hl' σ'' hr _ => hl'.rely hr
  · intro σ' hi hl' hcur hgone
    -- with one primary the value is still there
    have hnone : m.fixed = none := by
      cases hf : m.fixed with
      | none => rfl
      | some b =>
          obtain rfl := hmine.locked.fixed b hf
          have hcell := hmine.cell hf
          have hgone := hgone hf
          exact absurd (hgone.symm.trans hcell) (by simp [Op.value])
    have hvoid : Mine m i n 0 (.del row col) σ' :=
      ⟨⟨hl', hcur, .inl ⟨hnone, rfl⟩⟩, fun hf => absurd (hnone.symm.trans hf) (by simp)⟩
    exact Logic.Safe.bind (L := logic sort m) ((safe_forwardToAll sort hvoid).weaken
      (fun _ _ _ h _ _ hr _ => (h.rely hr).locked)) hi
  · intro k σ' hi hmine'
    exact Logic.Safe.bind (L := logic sort m) ((safe_forwardToAll sort hmine').weaken
      (fun _ _ _ h _ _ hr _ => (h.rely hr).locked)) hi

/-- The opening of a client write. -/
theorem safe_opening {row col : Field} {body : Option Field → ClusterProg KVPutStatus}
    (hb : ∀ old σ, Inv m σ → Locked m i n σ →
      (logic sort m).Safe i (.node n) (body old) (fun _ _ => True) σ) :
    (logic sort m).Safe i (.node n) (Manager.opening row col body) (fun _ _ => True) σ := by
  refine safe_act sort ?_
  intro σ₁ io (passed : Bool) σ₂ _ hi hok he
  refine ⟨change_plain sort (a := .isPrimary) hi trivial hok he, ?_⟩
  cases passed with
  | false => exact fun _ _ _ => trivial
  | true =>
      -- only the one primary passes
      have hfixed : ∀ b, m.fixed = some b → n = b := by
        intro b hb
        obtain ⟨node, hn, -⟩ := exec_node sort he
        exact (hi.leads b hb).only n (Prod.mk.inj (Option.some.inj hn)).1
      refine safe_act sort ?_
      intro σ₃ io₃ r₃ σ₄ _ hi₃ _ he₃
      obtain ⟨hch, hlock⟩ := change_lockWrite sort hi₃ he₃
      have hl₄ : Locked m i n σ₄ := ⟨hlock, hfixed⟩
      refine ⟨hch, safe_act sort ?_⟩
      intro σ₅ io₅ old σ₆ hr₅ hi₅ hok₅ he₅
      have hch₆ := change_plain sort (a := .get row col) hi₅ trivial hok₅ he₅
      exact ⟨hch₆, hb old σ₆ hch₆.inv ((hl₄.rely hr₅).exec sort (a := .get row col) trivial he₅)⟩

/-- The end of a client write. -/
theorem safe_closing {k : Nat} {op : Op} {rollback : ClusterProg Unit} (hi : Inv m σ)
    (hmine : Mine m i n k op σ)
    (hrb : ∀ σ, Inv m σ → Mine m i n k op σ →
      (logic sort m).Safe i (.node n) rollback (fun _ σ => Locked m i n σ) σ) :
    (logic sort m).Safe i (.node n) (Manager.closing n k op rollback) (fun _ _ => True) σ := by
  refine Logic.Safe.bind (L := logic sort m) ((safe_forwardToAll sort hmine).weaken ?_) hi
  intro ok σ₁ hi₁ hmine₁ _
  split
  · exact safe_finish sort .ok hmine₁.locked
  · exact Logic.Safe.bind (L := logic sort m) ((hrb σ₁ hi₁ hmine₁).weaken
      (fun _ _ _ hl _ => safe_finish sort _ hl)) hi₁

/-- **A client write is safe.** -/
theorem safe_client (i : Nat) (n : NodeId) (cw : ClientWrite) (σ : World × Past) :
    (logic sort m).Safe i (.node n) (cw.prog n) (fun _ _ => True) σ := by
  cases cw with
  | put row col val =>
      refine safe_opening sort (fun old σ hi hl => ?_)
      refine Logic.Safe.bind (L := logic sort m) ((safe_put sort hl).weaken ?_) hi
      intro (lsn : Option Nat) σ₁ hi₁ hput _
      cases lsn with
      | none => exact safe_finish sort _ hput.1
      | some k =>
          refine safe_closing sort hi₁ (hput.2 k rfl) (fun σ₂ hi₂ hmine₂ => ?_)
          cases old with
          | none => exact safe_retract sort hmine₂
          | some v => exact safe_restore sort row col v hi₂ hmine₂.locked
  | cput row col v1 v2 =>
      refine safe_opening sort (fun old σ hi hl => ?_)
      split
      · exact safe_finish sort _ hl
      · refine safe_cput sort hl (fun σ' _ hl' => safe_finish sort _ hl') ?_
        intro k σ' hi' hmine
        exact safe_closing sort hi' hmine
          (fun σ₂ hi₂ hmine₂ => safe_restore sort row col v1 hi₂ hmine₂.locked)
  | delete row col =>
      refine safe_opening sort (fun old σ hi hl => ?_)
      refine safe_del sort hl (fun σ' _ hl' => safe_finish sort _ hl')
        (fun σ' _ hl' _ _ => safe_finish sort _ hl') ?_
      intro k σ' hi' hmine
      refine safe_closing sort hi' hmine (fun σ₂ hi₂ hmine₂ => ?_)
      cases old with
      | none => exact fun _ hr _ => hmine₂.locked.rely hr
      | some v => exact safe_restore sort row col v hi₂ hmine₂.locked

/-! ## All together -/

/-- **Every handler is safe.** -/
theorem safe_handler (j : Nat) (c : Call) (hi : Inv m σ) (hc : Carries m σ c) :
    (logic sort m).Safe j (.node c.target) (Manager.handler c) (fun r σ => Tells m σ c r) σ := by
  cases c with
  | replicate n k op => exact safe_onReplicate sort k op hi hc
  | syncFrom n ver lsn => exact safe_buildSyncResponse sort _ ver lsn
  | becomeSecondary n source =>
      refine Logic.Safe.bind (L := logic sort m)
        ((safe_becomeSecondaryAndSync sort source hi).weaken ?_) hi
      intro ok σ₁ _ _ _
      split
      · exact fun _ _ _ _ _ _ h => absurd h (by simp)
      · exact fun _ _ _ => trivial
  | becomePrimary n =>
      refine safe_act sort ?_
      intro σ₁ io₁ _ σ₂ _ hi₁ hok₁ he₁
      refine ⟨change_plain sort (a := .clearReplicas true) hi₁ trivial hok₁ he₁, safe_act sort ?_⟩
      intro σ₃ io₃ _ σ₄ _ hi₃ hok₃ he₃
      exact ⟨change_plain sort (a := .setPrimary true) hi₃ trivial hok₃ he₃,
        fun _ _ _ _ _ _ h => absurd h (by simp)⟩
  | addReplica n id =>
      refine safe_act sort ?_
      intro σ₁ io₁ _ σ₂ _ hi₁ hok₁ he₁
      exact ⟨change_plain sort (a := .addReplica id) hi₁ trivial hok₁ he₁,
        fun _ _ _ _ _ _ h => absurd h (by simp)⟩
  | ping n =>
      refine safe_act sort ?_
      intro σ₁ io₁ _ σ₂ _ hi₁ hok₁ he₁
      exact ⟨change_plain sort (a := .status) hi₁ trivial hok₁ he₁, fun _ _ _ => trivial⟩

/-- **Everything that can be started is safe.** -/
theorem safe_main (r : Root) (i : Nat) (hi : Inv m σ) :
    (logic sort m).Safe i r.place (r.main sort) (fun _ _ => True) σ := by
  cases r with
  | client n cw =>
      exact Logic.Safe.bind (L := logic sort m) ((safe_client sort i n cw σ).weaken
        (fun _ _ _ _ _ _ _ _ => trivial)) hi
  | checkpoint n =>
      exact Logic.Safe.bind (L := logic sort m) ((safe_checkpoint sort).weaken
        (fun _ _ _ _ _ _ _ _ => trivial)) hi
  | heartbeat => exact safe_lift sort _ i _ σ
  | lookup =>
      exact Logic.Safe.bind (L := logic sort m) ((safe_lift sort _ i _ σ).weaken
        (fun _ _ _ _ _ _ _ _ => trivial)) hi

/-- Copies of one log, each as far as it goes, with log files that end them. -/
structure Copies (w : World) (log : Log) : Prop where
  logs : ∀ n, w.log n <+: log
  wal : ∀ n, (w.node n).tablet.WalFits

/-- The one primary has all of it. -/
structure Headed (p : NodeId) (w : World) (log : Log) : Prop where
  copies : Copies w log
  leads : Leads p (w, Past.init log)

theorem Copies.inv {log : Log} (h : Copies w log) (hp : ∀ p, m.fixed = some p → Leads p (w, Past.init log)) :
    Inv m (w, Past.init log) where
  logs := h.logs
  leads := hp
  wal := fun n _ => h.wal n
  acks := nofun
  counted := nofun
  kept := fun _ => nofun

theorem inv_of_reach {log : Log} (hw : Inv m (w, Past.init log)) {c : Config (watched sort)}
    (h : Reach (w, Past.init log) (Within m.Ok m.Returns) c) : Inv m c.st :=
  (Logic.sound_within (L := logic sort m) hw (fun r i _ hi => safe_main sort r i hi)
    (fun j c _ hi hc => safe_handler sort j c hi hc) h).inv

/-! ## Tests for the conditions -/

/-- `Mode.Ok`, tested. -/
def Mode.okTest (m : Mode) (_ : Nat) (l : Place) (io : Nat) (a : Act) (σ : World × Past) : Bool :=
  match l, a with
  | .node n, .node a =>
      (match m.fixed, a with
        | some p, .setPrimary b => decide (b = true ↔ n = p)
        | some p, .ckptWrite => decide (n = p → (σ.1.node n).tablet.rows.Fits)
        | some _, _ => true
        | none, a => decide (mints io (σ.1.node n) a = true → σ.2.minted.length ≤ (σ.1.log n).length))
      && match a with
        | .readSnapshot image => decide image.Fits
        | .readAstray => false
        | .install image =>
            decide (none ∉ image.log ∧ (m.mono = true → (σ.1.log n).length ≤ image.log.length))
        | .ckptWrite => decide (io = 0 → (σ.1.node n).tablet.WalFits)
        | .ckptTruncate => decide (io = 0 → (σ.1.node n).tablet.WalFits)
        | _ => true
  | _, _ => true

theorem Mode.ok_of_test (m : Mode) (i : Nat) (l : Place) (io : Nat) (a : Act) (σ : World × Past)
    (h : m.okTest i l io a σ = true) : m.Ok i l io a σ := by
  obtain ⟨fixed, mono⟩ := m
  cases l with
  | coord =>
      cases fixed with
      | none => exact ⟨trivial, trivial, fun _ => trivial⟩
      | some p => exact ⟨⟨trivial, trivial⟩, trivial, fun _ => trivial⟩
  | node n =>
      cases a with
      | coord a =>
          cases fixed with
          | none => exact ⟨trivial, trivial, fun _ => trivial⟩
          | some p => exact ⟨⟨trivial, trivial⟩, trivial, fun _ => trivial⟩
      | node a =>
          obtain ⟨hrole, hwhole⟩ := Bool.and_eq_true_iff.mp h
          refine ⟨?_, ?_, ?_⟩
          · cases fixed with
            | none =>
                have hfresh := of_decide_eq_true hrole
                exact hfresh
            | some p =>
                cases a with
                | setPrimary b =>
                    have hone := of_decide_eq_true hrole
                    exact ⟨hone, trivial⟩
                | ckptWrite =>
                    have hlegible := of_decide_eq_true hrole
                    exact ⟨trivial, hlegible⟩
                | _ => exact ⟨trivial, trivial⟩
          · cases a with
            | readSnapshot image =>
                have hfits := of_decide_eq_true hwhole
                exact hfits
            | readAstray => exact absurd hwhole (by simp)
            | install image => exact (of_decide_eq_true hwhole).1
            | ckptWrite | ckptTruncate =>
                have hfits := of_decide_eq_true hwhole
                exact hfits
            | _ => trivial
          · cases a with
            | install image => exact (of_decide_eq_true hwhole).2
            | _ => exact fun _ => trivial

/-- `Mode.Returns`, tested. -/
def Mode.returnsTest (m : Mode) (l : Place) (σ : World × Past) : Bool :=
  match l with
  | .node n => decide ((σ.1.node n).tablet.diskLog <+: σ.1.log n
      ∧ (m.fixed = some n ∨ m.mono = true → σ.1.log n <+: (σ.1.node n).tablet.diskLog))
  | .coord => true

theorem Mode.returns_of_test (m : Mode) (l : Place) (σ : World × Past) (h : m.returnsTest l σ = true) :
    m.Returns l σ := by
  cases l with
  | node n =>
      have hdisk := of_decide_eq_true h
      exact hdisk
  | coord => trivial

/-- Runs of a mode, tested. -/
theorem Mode.within_of_test (m : Mode) (c : Config (watched sort)) (mv : Move (watched sort))
    (h : withinTest m.okTest m.returnsTest c mv = true) : Within m.Ok m.Returns c mv :=
  Process.within_of_test m.ok_of_test m.returns_of_test c mv h

/-! ## Agreement -/

/-- Two nodes that both reach LSN `k` have the same operation there. -/
def Agree (w : World) : Prop :=
  ∀ n q k, k ≤ (w.log n).length → k ≤ (w.log q).length → opAt (w.log n) k = opAt (w.log q) k

/-- Any node may be primary, as long as no LSN is handed out twice. -/
def Mode.anyone : Mode := { fixed := none, mono := false }

/--
**Logs agree.**

In every run that starts with copies of one log and in which no LSN is handed out
twice, all nodes have the same operation wherever they have one.
-/
theorem agree_of_reach {w : World} {log : Log} (hw : Copies w log) {c : Config (watched sort)}
    (h : Reach (w, Past.init log) (Within Mode.anyone.Ok Mode.anyone.Returns) c) : Agree c.st.1 := by
  have hinv := inv_of_reach sort (m := .anyone) (hw.inv (fun p hp => absurd hp (by simp [Mode.anyone]))) h
  intro n q k hn hq
  rw [opAt_prefix_of_le (hinv.logs n) hn, opAt_prefix_of_le (hinv.logs q) hq]

section Trio

open Trio

theorem copies_world : Copies Trio.world [] := ⟨fun _ => List.prefix_refl _, fun _ => List.suffix_refl _⟩

/-- `a` crashes after a write, and `b` takes over and serves another. -/
def failover : List (Line (watched Trio.sort)) :=
  [.move (.start (.client a (.put x x y))), .drive up 100 0,
   .move (.restart (.node a)),
   .move (.start .heartbeat), .drive (down a) 100 3,
   .move (.start .heartbeat), .drive (down a) 100 6,
   .move (.start .heartbeat), .drive (down a) 100 9,
   .move (.start (.client b (.put x y y))), .drive up 100 20]

theorem agree_of_reach_failover : ∃ c : Config (watched Trio.sort),
    (c.st.1.log a).length = 1 ∧ (c.st.1.log b).length = 2 ∧ Agree c.st.1 := by
  obtain ⟨c, hr, hc⟩ := reach_of_play (Mode.within_of_test Trio.sort .anyone) (Trio.world, Past.init [])
    failover (fun σ => decide ((σ.1.log a).length = 1 ∧ (σ.1.log b).length = 2)) (by decide +kernel)
  obtain ⟨ha, hb⟩ := of_decide_eq_true hc
  exact ⟨c, ha, hb, agree_of_reach Trio.sort copies_world hr⟩

/-- `a` is only slow: it is missed three times, `b` takes over and serves a write, and
so does `a`. -/
def twoPrimaries : List (Line (watched Trio.sort)) :=
  [.move (.start .heartbeat), .drive (down a) 100 0,
   .move (.start .heartbeat), .drive (down a) 100 3,
   .move (.start .heartbeat), .drive (down a) 100 6,
   .move (.start (.client b (.put x x y))), .drive up 100 17,
   .move (.start (.client a (.put x x x))), .drive up 100 19]

/-- **Both hand out LSN 1.** -/
theorem not_agree_twoPrimaries : ¬ ∀ c : Config (watched Trio.sort),
    Reach (Trio.world, Past.init []) Always c → Agree c.st.1 := by
  intro h
  obtain ⟨c, hr, hc⟩ := reach_always_of_play (Trio.world, Past.init []) twoPrimaries
    (fun σ => decide (opAt (σ.1.log a) 1 = some (.put x x x) ∧ opAt (σ.1.log b) 1 = some (.put x x y)))
    (by decide +kernel)
  obtain ⟨ha, hb⟩ := of_decide_eq_true hc
  have heq := h c hr a b 1 (opAt_eq_some ha).2.1 (opAt_eq_some hb).2.1
  rw [ha, hb] at heq
  exact absurd heq (by decide)

end Trio

/-! ## One primary -/

/-- Every log is a prefix of the primary's, and every replica that was counted for an
operation of the primary had logged it when it acknowledged it. -/
structure Follows (p : NodeId) (σ : World × Past) : Prop where
  logs : ∀ n, σ.1.log n <+: σ.1.log p
  counted : ∀ r k op, (r, k, op) ∈ σ.2.counted → opAt (σ.1.log p) k = some op ∧
    ∃ a ∈ σ.2.acks, a.node = r ∧ a.lsn = k ∧ a.op = op ∧ a.held = true

theorem Inv.follows {p : NodeId} (h : Inv m σ) (hp : m.fixed = some p) : Follows p σ := by
  have hlog := (h.leads p hp).log
  have hvoid : ∀ k, ¬ Void m k := fun k hk => absurd (hk.1.symm.trans hp) (by simp)
  refine ⟨fun n => hlog ▸ h.logs n, ?_⟩
  intro r k op he
  obtain hv | ⟨a, ha, rfl, rfl, rfl⟩ := h.counted (r, k, op) he
  · exact absurd hv (hvoid k)
  · obtain hv | ⟨hop, hheld⟩ := h.acks a ha
    · exact absurd hv (hvoid a.lsn)
    · exact ⟨hlog ▸ hop, a, ha, rfl, rfl, rfl, hheld⟩

/-- `p` is the only primary. -/
def Mode.one (p : NodeId) : Mode := { fixed := some p, mono := false }

theorem Headed.inv {b : NodeId} {log : Log} (h : Headed b w log) (hm : m.fixed = some b) : Inv m (w, Past.init log) :=
  h.copies.inv (fun q hq => by
    obtain rfl := Option.some.inj (hm.symm.trans hq)
    exact h.leads)

/--
**Secondaries follow the primary.**

In every run with one primary and no election that starts with copies of its log, in
which snapshots that are loaded are whole and restarts bring back the logs.
-/
theorem follows_of_reach {p : NodeId} {w : World} {log : Log} (hw : Headed p w log)
    {c : Config (watched sort)}
    (h : Reach (w, Past.init log) (Within (Mode.one p).Ok (Mode.one p).Returns) c) : Follows p c.st :=
  (inv_of_reach sort (hw.inv rfl) h).follows rfl

section Trio

open Trio

/-- `a` cannot reach `b` with a write, asks it to resync, and stops waiting once it has
built the snapshot for it. The next write finds a gap at `b` and resyncs it. -/
def overlapping : List (Line (watched Trio.sort)) :=
  [.move (.start (.checkpoint a)), .drive up 10 0,
   .move (.start (.client a (.put x x y))), .drive up 9 1, .move (.refuse 1),
   .move (.send 1), .move (.deliver 2), .drive up 4 2,
   .move (.send 2), .move (.deliver 3), .drive up 10 3,
   .move (.giveUp 1 false), .drive up 100 1,
   .move (.start (.client a (.put x y y))), .drive up 100 5]

theorem headed_world : Headed a Trio.world [] := by
  refine ⟨copies_world, rfl, fun n h => of_decide_eq_true h, ?_, ?_⟩
  · exact fun row hrow => absurd hrow Finmap.notMem_empty
  · exact fun row hrow => absurd hrow Finmap.notMem_empty

theorem follows_of_reach_overlapping : ∃ c : Config (watched Trio.sort),
    (b, 2, .put x y y) ∈ c.st.2.counted ∧ Follows a c.st := by
  obtain ⟨c, hr, hc⟩ := reach_of_play (Mode.within_of_test Trio.sort (.one a)) (Trio.world, Past.init [])
    overlapping (fun σ => decide ((b, 2, .put x y y) ∈ σ.2.counted)) (by decide +kernel)
  exact ⟨c, of_decide_eq_true hc, follows_of_reach Trio.sort headed_world hr⟩

/-- The same, but `b` asks for the log only when the next write has been appended to the
log file and is not yet in the map. -/
def holed : List (Line (watched Trio.sort)) :=
  [.move (.start (.checkpoint a)), .drive up 10 0,
   .move (.start (.client a (.put x x y))), .drive up 9 1, .move (.refuse 1),
   .move (.send 1), .move (.deliver 2), .drive up 4 2, .move (.send 2),
   .move (.giveUp 1 false), .drive up 100 1,
   .move (.start (.client a (.put y x x))), .drive up 5 5,
   .move (.deliver 3), .drive up 10 3, .move (.receive 2), .drive up 10 2,
   .drive up 100 5]

/-- No election, tested. -/
def onePrimaryTest (p : NodeId) (_ : Nat) (l : Place) (_ : Nat) (a : Act) (_ : World × Past) : Bool :=
  match l, a with
  | .node n, .node (.setPrimary b) => decide (b = true ↔ n = p)
  | _, _ => true

theorem onePrimary_of_test (p : NodeId) (i : Nat) (l : Place) (io : Nat) (a : Act) (σ : World × Past)
    (h : onePrimaryTest p i l io a σ = true) : OnePrimary p l a := by
  unfold OnePrimary
  split
  · have h := of_decide_eq_true h
    exact h
  · trivial

/-- **The snapshot counts an operation that it lacks**, and `b` acknowledges it as a
duplicate. -/
theorem not_follows_holed : ¬ ∀ c : Config (watched Trio.sort),
    Reach (Trio.world, Past.init []) (When (fun _ l _ act _ => OnePrimary a l act)) c → Follows a c.st := by
  intro h
  obtain ⟨c, hr, hc⟩ := reach_of_play (when_of_test (onePrimary_of_test a)) (Trio.world, Past.init []) holed
    (fun σ => decide ((b, 2, .put y x x) ∈ σ.2.counted)
      && σ.2.acks.all (fun e => decide (e.node = b → e.held = false))) (by decide +kernel)
  obtain ⟨hcounted, hacks⟩ := Bool.and_eq_true_iff.mp hc
  obtain ⟨-, e, he, hb, -, -, hheld⟩ := (h c hr).counted b 2 _ (of_decide_eq_true hcounted)
  have hnot := of_decide_eq_true (List.all_eq_true.mp hacks e he) hb
  rw [hheld] at hnot
  exact absurd hnot (by simp)

end Trio

/-- Whoever has acknowledged an operation still has it, and it is the primary's. -/
def Kept (p : NodeId) (σ : World × Past) : Prop :=
  ∀ a ∈ σ.2.acks, a.lsn ≤ (σ.1.log a.node).length ∧ opAt (σ.1.log a.node) a.lsn = some a.op
    ∧ opAt (σ.1.log p) a.lsn = some a.op

/-- `p` is the only primary, no snapshot is older than what it replaces, and no restart
loses anything. -/
def Mode.oneGrowing (p : NodeId) : Mode := { fixed := some p, mono := true }

/--
**What has been acknowledged stays.**

In every run with one primary and no election that starts with copies of its log, in
which snapshots that are loaded are whole and replace no longer log, and restarts bring
back the logs.
-/
theorem kept_of_reach {p : NodeId} {w : World} {log : Log} (hw : Headed p w log)
    {c : Config (watched sort)}
    (h : Reach (w, Past.init log) (Within (Mode.oneGrowing p).Ok (Mode.oneGrowing p).Returns) c) :
    Kept p c.st := by
  have hinv := inv_of_reach sort (hw.inv (m := .oneGrowing p) rfl) h
  intro a ha
  obtain ⟨hvoid, -⟩ | hop := hinv.kept rfl a ha
  · exact absurd hvoid (by simp [Mode.oneGrowing])
  · exact ⟨(opAt_eq_some hop).2.1, hop, opAt_extend ((hinv.follows rfl).logs a.node) hop⟩

section Trio

open Trio

theorem kept_of_reach_overlapping : ∃ c : Config (watched Trio.sort),
    (∃ e ∈ c.st.2.acks, e.node = b ∧ e.lsn = 2) ∧ Kept a c.st := by
  obtain ⟨c, hr, hc⟩ := reach_of_play (Mode.within_of_test Trio.sort (.oneGrowing a))
    (Trio.world, Past.init []) overlapping
    (fun σ => σ.2.acks.any (fun e => decide (e.node = b ∧ e.lsn = 2))) (by decide +kernel)
  obtain ⟨e, he, hb⟩ := List.any_eq_true.mp hc
  exact ⟨c, ⟨e, he, of_decide_eq_true hb⟩, kept_of_reach Trio.sort headed_world hr⟩

/-- Then the first resync gets its answer. -/
def lateSnapshot : List (Line (watched Trio.sort)) :=
  overlapping ++ [.move (.receive 2), .move (.act 2 1), .move (.act 2 1), .move (.act 2 1)]

/-- **The snapshot takes `b` back behind what it has acknowledged.** -/
theorem not_kept_lateSnapshot : ¬ ∀ c : Config (watched Trio.sort),
    Reach (Trio.world, Past.init []) (Within (Mode.one a).Ok (Mode.one a).Returns) c → Kept a c.st := by
  intro h
  obtain ⟨c, hr, hc⟩ := reach_of_play (Mode.within_of_test Trio.sort (.one a)) (Trio.world, Past.init [])
    lateSnapshot (fun σ => σ.2.acks.any (fun e => decide (e.lsn = 2 ∧ (σ.1.log e.node).length = 1)))
    (by decide +kernel)
  obtain ⟨e, he, hbad⟩ := List.any_eq_true.mp hc
  obtain ⟨hlsn, hlen⟩ := of_decide_eq_true hbad
  have hle := (h c hr e he).1
  omega

end Trio

end NCloud.Agreement
