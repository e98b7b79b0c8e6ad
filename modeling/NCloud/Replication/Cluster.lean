import NCloud.Replication.Manager
import Mathlib.Data.List.Sort
import Mathlib.Data.Nat.Digits.Defs

/-!
# The cluster

The storage nodes of one tablet group and their coordinator as one system of
processes: what each action does to the state, what can be started from outside (client
writes, checkpoints, the heartbeat, lookups), and what a restart keeps.

An action that needs a lock waits while another thread holds it. A thread that is half
way through a function when its node restarts is gone, and so is what it held; the
files stay as it left them.
-/

namespace NCloud

open Process Wire

/-- Where a thread runs. -/
inductive Place where
  | node (n : NodeId)
  | coord
  deriving DecidableEq

/-- Every node and the coordinator. -/
structure World where
  node : NodeId → Node
  coord : Coord

namespace World

/-- Change one node. -/
def setNode (w : World) (n : NodeId) (node : Node) : World :=
  { w with node := Function.update w.node n node }

@[simp] theorem setNode_self (w : World) (n : NodeId) (node : Node) : (w.setNode n node).node n = node :=
  Function.update_self ..

@[simp] theorem setNode_of_ne {w : World} {n m : NodeId} {node : Node} (h : m ≠ n) :
    (w.setNode n node).node m = w.node m :=
  Function.update_of_ne h ..

/-- What holds of every node still does when one is changed, if it holds of the new one. -/
theorem forall_setNode {P : NodeId → Node → Prop} {w : World} {n : NodeId} {node : Node} (hnew : P n node)
    (hold : ∀ q, q ≠ n → P q (w.node q)) (q : NodeId) : P q ((w.setNode n node).node q) := by
  by_cases hq : q = n
  · subst hq
    rw [setNode_self]
    exact hnew
  · rw [setNode_of_ne hq]
    exact hold q hq

theorem setNode_eq_self (w : World) (n : NodeId) : w.setNode n (w.node n) = w := by
  unfold setNode
  rw [Function.update_eq_self]

theorem setNode_setNode (w : World) (n : NodeId) (x y : Node) : (w.setNode n x).setNode n y = w.setNode n y := by
  unfold setNode
  rw [Function.update_idem]

theorem setNode_comm (w : World) {n m : NodeId} (h : n ≠ m) (x y : Node) :
    (w.setNode n x).setNode m y = (w.setNode m y).setNode n x := by
  unfold setNode
  rw [Function.update_comm h]

/-- The log of a node. -/
def log (w : World) (n : NodeId) : Log := (w.node n).tablet.log

theorem log_setNode_self (w : World) (n : NodeId) (node : Node) :
    (w.setNode n node).log n = node.tablet.log := by
  rw [log, setNode_self]

theorem log_setNode_of_ne {w : World} {n q : NodeId} (h : q ≠ n) (node : Node) :
    (w.setNode n node).log q = w.log q := by
  rw [log, setNode_of_ne h, log]

@[simp] theorem setNode_coord (w : World) (n : NodeId) (node : Node) :
    (w.setNode n node).coord = w.coord := rfl

end World

/-! ## Actions -/

namespace Node

/-- The same node with another tablet. -/
def withTablet (node : Node) (t : Replica) : Node := { node with tablet := t }

/-- An entry of the replica list read through its pointer. When the entry has been freed
the source promises nothing, and the reader finds some bytes or other. -/
def readReplica (node : Node) (io : Nat) (r : ReplicaPtr) : NodeId :=
  if r.made = node.cleared then r.id else (Nat.digits 256 io).map UInt8.ofNat

/-- A snapshot as it is read. When a count has wrapped its LSN may still load, with some
rows or other. -/
def readSnapshot (node : Node) (io : Nat) (image : Image) : Option Image :=
  if image.Fits then some image
  else (node.garble.snapshot io).map (fun rows =>
    { log := image.log.map (fun _ => none), ver := image.ver, rows := rows })

/-- The tablet once its checkpoint file has been written, with what the file will be read
as. A file that does not load keeps the process from starting. -/
def ckptWrite (node : Node) (io : Nat) : Replica :=
  if node.tablet.rows.Fits then node.tablet.ckptWrite
  else
    let (rows, bloom) := node.garble.ckpt io
    { node.tablet with ckpt := { node.tablet.ckptWrite.ckpt with rows := rows, bloom := bloom } }

theorem ckptWrite_of_fits {node : Node} {io : Nat} (h : node.tablet.rows.Fits) :
    node.ckptWrite io = node.tablet.ckptWrite :=
  if_pos h

/-- The checkpoint file is all that changes. -/
theorem ckptWrite_eq (node : Node) (io : Nat) : ∃ ckpt, node.ckptWrite io = { node.tablet with ckpt := ckpt } := by
  unfold ckptWrite
  split
  · exact ⟨_, rfl⟩
  · exact ⟨_, rfl⟩

/-- What one action does; `none` means that the thread has to wait. The number says how
many records the disk takes, and settles what the source leaves open. -/
def exec (i io : Nat) (node : Node) : (a : NodeAct) → Option (a.Res × Node)
  | .isPrimary => some (node.isPrimary, node)
  | .lockWrite => if node.writing = none then some ((), { node with writing := some i }) else none
  | .answer _ => some ((), { node with writing := none })
  | .get row col => some (node.tablet.get row col, node)
  | .lockWal =>
      if node.tablet.walMu = none then some ((), node.withTablet { node.tablet with walMu := some i })
      else none
  | .unlockWal => some ((), node.withTablet { node.tablet with walMu := none })
  | .logOp op =>
      let q := node.tablet.logOp io op
      some (q.1, node.withTablet q.2)
  | .logNext n op =>
      let q := node.tablet.logNext io n op
      some (q.1, node.withTablet q.2)
  | .applyRow op exclusive =>
      -- a snapshot keeps out whoever needs `rows_mu_` exclusively
      if (exclusive = true ∨ op.cell.1 ∉ node.tablet.rows) ∧ node.tablet.readers ≠ 0 then none
      else some ((), node.withTablet (node.tablet.apply op))
  | .cput row col v1 v2 =>
      if node.tablet.walMu = none then
        let q := node.tablet.cput io row col v1 v2
        some (q.1, node.withTablet q.2)
      else none
  | .del row col =>
      if node.tablet.walMu = none then
        let q := node.tablet.del io row col
        some (q.1, node.withTablet q.2)
      else none
  | .copyReplicas => some (node.replicas.map (fun id => ⟨id, node.cleared⟩), node)
  | .readReplica r => some (node.readReplica io r, node)
  | .setReplicaAlive _ _ _ => some ((), node)
  | .lsn => some (node.tablet.lsn, node)
  | .checkpointVersion => some (node.tablet.ver, node)
  | .ack _ _ => some (node.tablet.lsn, node)
  | .walDeltaAfter n => if node.tablet.walMu = none then some (node.tablet.walDeltaAfter n, node) else none
  | .snapHeader =>
      let order := node.walk io node.tablet.rows
      if order.Nodup ∧ order.toFinset = node.tablet.rows.keys then
        some (node.tablet.header order, node.withTablet { node.tablet with readers := node.tablet.readers + 1 })
      else none
  | .snapRow n key =>
      (node.tablet.rows.lookup key).map (fun cols => ((cols, node.tablet.misses n key cols), node))
  | .snapEnd => some ((), node.withTablet { node.tablet with readers := node.tablet.readers - 1 })
  | .readSnapshot image => some (node.readSnapshot io image, node)
  | .readAstray => some (node.garble.delta io, node)
  | .install image =>
      if node.tablet.readers = 0 then some ((), node.withTablet (node.tablet.install image)) else none
  | .ckptWrite =>
      if node.tablet.readers = 0 then
        if io = 0 then some (false, node) else some (true, node.withTablet (node.ckptWrite io))
      else none
  | .ckptTruncate =>
      if io = 0 then some (false, node) else some (true, node.withTablet node.tablet.ckptTruncate)
  | .clearReplicas _ => some ((), { node with replicas := [], cleared := node.cleared + 1 })
  | .setPrimary b => some ((), { node with isPrimary := b })
  | .addReplica id =>
      some ((), { node with replicas := if id ∈ node.replicas then node.replicas
                                        else node.replicas ++ [id] })
  | .status => some ((node.tablet.lsn, node.pid), node)

/-- Actions that change the role, the replica list or `primary_write_mu_`. -/
def Managing : NodeAct → Prop
  | .lockWrite => True
  | .answer _ => True
  | .clearReplicas _ => True
  | .setPrimary _ => True
  | .addReplica _ => True
  | _ => False

/-- The others touch the tablet at most. -/
theorem exec_tablet {i io : Nat} {node node' : Node} {a : NodeAct} {r : a.Res} (ha : ¬ Managing a)
    (h : node.exec i io a = some (r, node')) : node' = node.withTablet node'.tablet := by
  cases a <;> first
    | exact absurd trivial ha
    | (obtain ⟨-, rfl⟩ := Prod.mk.inj (Option.some.inj h); rfl)
    | skip
  case lockWal =>
    obtain ⟨-, h⟩ := Option.ite_none_right_eq_some.mp h
    obtain ⟨-, rfl⟩ := Prod.mk.inj (Option.some.inj h); rfl
  case applyRow =>
    obtain ⟨-, h⟩ := Option.ite_none_left_eq_some.mp h
    obtain ⟨-, rfl⟩ := Prod.mk.inj (Option.some.inj h); rfl
  case cput =>
    obtain ⟨-, h⟩ := Option.ite_none_right_eq_some.mp h
    obtain ⟨-, rfl⟩ := Prod.mk.inj (Option.some.inj h); rfl
  case del =>
    obtain ⟨-, h⟩ := Option.ite_none_right_eq_some.mp h
    obtain ⟨-, rfl⟩ := Prod.mk.inj (Option.some.inj h); rfl
  case walDeltaAfter =>
    obtain ⟨-, h⟩ := Option.ite_none_right_eq_some.mp h
    obtain ⟨-, rfl⟩ := Prod.mk.inj (Option.some.inj h); rfl
  case snapHeader =>
    obtain ⟨-, h⟩ := Option.ite_none_right_eq_some.mp h
    obtain ⟨-, rfl⟩ := Prod.mk.inj (Option.some.inj h); rfl
  case snapRow =>
    obtain ⟨cols, -, h⟩ := Option.map_eq_some_iff.mp h
    obtain ⟨-, rfl⟩ := Prod.mk.inj h; rfl
  case install =>
    obtain ⟨-, h⟩ := Option.ite_none_right_eq_some.mp h
    obtain ⟨-, rfl⟩ := Prod.mk.inj (Option.some.inj h); rfl
  case ckptWrite =>
    obtain ⟨-, h⟩ := Option.ite_none_right_eq_some.mp h
    split at h
    · obtain ⟨-, rfl⟩ := Prod.mk.inj (Option.some.inj h); rfl
    · obtain ⟨-, rfl⟩ := Prod.mk.inj (Option.some.inj h); rfl
  case ckptTruncate =>
    simp only [exec] at h
    split at h
    · obtain ⟨-, rfl⟩ := Prod.mk.inj (Option.some.inj h); rfl
    · obtain ⟨-, rfl⟩ := Prod.mk.inj (Option.some.inj h); rfl

/-- The role changes where it is set. -/
theorem exec_isPrimary {i io : Nat} {node node' : Node} {a : NodeAct} {r : a.Res}
    (ha : ∀ b, a ≠ .setPrimary b) (h : node.exec i io a = some (r, node')) :
    node'.isPrimary = node.isPrimary := by
  by_cases hm : Managing a
  · cases a with
    | lockWrite =>
        obtain ⟨-, h⟩ := Option.ite_none_right_eq_some.mp h
        obtain ⟨-, rfl⟩ := Prod.mk.inj (Option.some.inj h); rfl
    | setPrimary b => exact absurd rfl (ha b)
    | answer _ | clearReplicas _ | addReplica _ =>
        obtain ⟨-, rfl⟩ := Prod.mk.inj (Option.some.inj h); rfl
    | _ => exact hm.elim
  · rw [exec_tablet hm h]
    rfl

/-- The process starts again on the same disk, as a secondary without replicas. -/
def restart (node : Node) : Node :=
  { node with
    tablet := node.tablet.recover
    isPrimary := false
    replicas := []
    cleared := node.cleared + 1
    writing := none
    pid := node.pid + 1 }

end Node

namespace Coord

/-- The coordinator's critical sections. -/
def exec (c : Coord) : (a : CoordAct) → coordSig.Res a × Coord
  | .view => (c, c)
  | .store n => ((), c.update n.id (fun _ => n))
  | .markAlive id => ((), c.update id (fun n => { n with alive := true }))
  | .storeWinner id =>
      ((), if (c.find id).isNone then c
        else (c.swapHead id).update id (fun n => { n with alive := true }))
  | .storeRecovered id => ((), (c.swapHead id).update id (fun n => { n with alive := true }))

end Coord

/-! ## The system -/

/-- A client write. -/
inductive ClientWrite where
  | put (row col val : Field)
  | cput (row col expected replacement : Field)
  | delete (row col : Field)

/-- What it runs. -/
def ClientWrite.prog (self : NodeId) : ClientWrite → ClusterProg KVPutStatus
  | .put row col val => Manager.replicatedPut self row col val
  | .cput row col expected replacement => Manager.replicatedCput self row col expected replacement
  | .delete row col => Manager.replicatedDelete self row col

/-- What can be started from outside. -/
inductive Root where
  | client (n : NodeId) (w : ClientWrite)
  | checkpoint (n : NodeId)
  | heartbeat
  | lookup

/-- The coordinator's requests among all requests. -/
def CoordCall.toCall : CoordCall → Call
  | .ping n => .ping n
  | .becomePrimary n => .becomePrimary n
  | .becomeSecondary n source => .becomeSecondary n source
  | .addReplica primary id => .addReplica primary id

/-- And what it makes of the answers. -/
def Reply.toCoord : Reply → CoordReply
  | .ok => .ok
  | .err => .err
  | .pong lsn pid => .pong lsn pid
  | .sync _ => .err

/-- The coordinator inside the cluster. -/
def coordHom : Hom coordSig clusterSig where
  act := .coord
  res := fun _ r => r
  call := CoordCall.toCall
  reply := Reply.toCoord

/-- The coordinator's programs are quiet. -/
theorem quiet_lift {α : Type} (p : CoordProg α) : Quiet (p.lift coordHom) :=
  Prog.only_lift coordHom (fun _ => trivial) (fun _ => trivial) p

/-- Where a request goes. -/
def Call.target : Call → NodeId
  | .replicate n _ _ => n
  | .syncFrom n _ _ => n
  | .becomePrimary n => n
  | .becomeSecondary n _ => n
  | .addReplica n _ => n
  | .ping n => n

namespace World

/-- Actions of nodes act on the node that performs them, the coordinator's on the
coordinator. -/
def exec (i : Nat) (l : Place) (io : Nat) (a : Act) (w : World) : Option (clusterSig.Res a × World) :=
  match l, a with
  | .node n, .node a => ((w.node n).exec i io a).map (fun q => (q.1, w.setNode n q.2))
  | .coord, .coord a => some ((w.coord.exec a).1, { w with coord := (w.coord.exec a).2 })
  | _, _ => none

variable {i io : Nat} {w w' : World}

theorem exec_node {n : NodeId} {a : NodeAct} {r : a.Res}
    (h : exec i (.node n) io (.node a) w = some (r, w')) :
    ∃ node, (w.node n).exec i io a = some (r, node) ∧ w' = w.setNode n node := by
  have h : ((w.node n).exec i io a).map (fun q => (q.1, w.setNode n q.2)) = some (r, w') := h
  obtain ⟨⟨r', node⟩, hn, heq⟩ := Option.map_eq_some_iff.mp h
  obtain ⟨rfl, rfl⟩ := Prod.mk.inj heq
  exact ⟨node, hn, rfl⟩

theorem exec_coord {a : CoordAct} {r : coordSig.Res a}
    (h : exec i .coord io (.coord a) w = some (r, w')) :
    r = (w.coord.exec a).1 ∧ w' = { w with coord := (w.coord.exec a).2 } := by
  obtain ⟨rfl, rfl⟩ := Prod.mk.inj (Option.some.inj h)
  exact ⟨rfl, rfl⟩

/-- A node restarts. The coordinator does not. -/
def restart (l : Place) (w : World) : World :=
  match l with
  | .node n => w.setNode n (w.node n).restart
  | .coord => w

theorem node_restart_self (w : World) (n : NodeId) : (w.restart (.node n)).node n = (w.node n).restart :=
  setNode_self ..

theorem node_restart_of_ne (w : World) {l : Place} {n : NodeId} (h : l ≠ .node n) :
    (w.restart l).node n = w.node n := by
  cases l with
  | coord => rfl
  | node q => exact setNode_of_ne (fun hn => h (by rw [hn]))

/-- What holds of every node still does after a restart, if it holds of the node that comes
back. -/
theorem forall_restart {P : NodeId → Node → Prop} {w : World} {l : Place}
    (hnew : ∀ n, l = .node n → P n (w.node n).restart) (hold : ∀ q, P q (w.node q)) (q : NodeId) :
    P q ((w.restart l).node q) := by
  cases l with
  | coord => exact hold q
  | node n => exact forall_setNode (hnew n rfl) (fun q _ => hold q) q

end World

/-- The programs that can be started. -/
def Root.main (sort : List CoordProg.Candidate → List CoordProg.Candidate) : Root → ClusterProg Unit
  | .client n w => do
      let _ ← w.prog n
  | .checkpoint _ => do
      let _ ← Manager.checkpoint
  | .heartbeat => (CoordProg.heartbeat sort).lift coordHom
  | .lookup => (CoordProg.handleLookup.lift coordHom) >>= fun _ => .ret ()

/-- Where they run. -/
def Root.place : Root → Place
  | .client n _ => .node n
  | .checkpoint n => .node n
  | .heartbeat => .coord
  | .lookup => .coord

/-- The cluster. -/
def cluster (sort : List CoordProg.Candidate → List CoordProg.Candidate) : System clusterSig where
  St := World
  Loc := Place
  Root := Root
  place := Root.place
  main := Root.main sort
  target := fun c => .node c.target
  handler := Manager.handler
  exec := World.exec
  sent := fun _ _ w => w
  lost := fun _ w => w
  mortal := fun l => decide (l ≠ .coord)
  restart := World.restart

instance (sort : List CoordProg.Candidate → List CoordProg.Candidate) :
    DecidableEq (cluster sort).Loc :=
  inferInstanceAs (DecidableEq Place)

/-! ## A group of three -/

namespace Trio

/-- `std::sort` by LSN, the highest first. -/
def sort : List CoordProg.Candidate → List CoordProg.Candidate :=
  List.insertionSort (fun a b => b.lsn ≤ a.lsn)

/-- Three nodes. -/
def a : NodeId := [97]

def b : NodeId := [98]

def c : NodeId := [99]

/-- Some field. -/
def x : Field := ⟨[120], by decide⟩

def y : Field := ⟨[121], by decide⟩

/-- Empty tablets, whose rows will be `x` and `y` at most; `a` is primary and has the
others as replicas. -/
def world : World where
  node := fun n =>
    { tablet := .empty
      isPrimary := n = a
      replicas := if n = a then [b, c] else []
      cleared := 0
      writing := none
      pid := 1
      walk := fun _ rows => [x, y].filter (fun row => decide (row ∈ rows))
      garble := ⟨fun _ => none, fun _ => (∅, .empty), fun _ => []⟩ }
  coord :=
    { nodes := [{ id := a, processId := 1 }, { id := b, processId := 1 }, { id := c, processId := 1 }]
      nodeIds := [a, b, c] }

/-- Requests to a node that does not answer. -/
def down (n : NodeId) (c : Call) : Bool := c.target = n

/-- Everyone answers. -/
def up (_ : Call) : Bool := false

end Trio

end NCloud
