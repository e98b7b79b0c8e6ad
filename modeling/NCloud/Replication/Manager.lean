import NCloud.Coordinator.Programs

/-!
# The replication manager

`replication.h`, the replication half of `server.cc` and what they call of `tablet.cc`
for one tablet, as programs. An action is what the source does under one lock without
anything that others could see in between: a read of an atomic, an append to the log
file, the update of one row, one row of a snapshot. What happens between two actions is
anybody's guess. A request to another node is answered by that node's handler, may be
lost, and may arrive long after its sender has stopped waiting.
-/

namespace NCloud

open Process Wire

/-- `KVPutStatus`. -/
inductive KVPutStatus where
  | ok
  | quorumUnavailable
  | mismatch
  | error
  deriving DecidableEq

/-- Requests between nodes, and from the coordinator to them. -/
inductive Call where
  | replicate (node : NodeId) (lsn : Nat) (op : Op)
  | syncFrom (node : NodeId) (ver lsn : Nat)
  | becomePrimary (node : NodeId)
  | becomeSecondary (node source : NodeId)
  | addReplica (primary id : NodeId)
  | ping (node : NodeId)

/-- Their answers. -/
inductive Reply where
  | ok
  | err
  | pong (lsn pid : Nat)
  | sync (blob : SyncBlob)

/-- Actions of a storage node. -/
inductive NodeAct where
  /-- The test of `is_primary_` that opens a client write. -/
  | isPrimary
  /-- Take `primary_write_mu_`. -/
  | lockWrite
  /-- Return from a client write, which releases `primary_write_mu_`. -/
  | answer (status : KVPutStatus)
  | get (row col : Field)
  /-- Take `wal_mu_`. -/
  | lockWal
  | unlockWal
  /-- `write_wal_put` of a `put`. -/
  | logOp (op : Op)
  /-- `write_wal_put` or `write_wal_delete` of an operation that comes with its LSN. -/
  | logNext (lsn : Nat) (op : Op)
  /-- The row update under `rows_mu_`, shared if the row exists and the caller lets it. -/
  | applyRow (op : Op) (exclusive : Bool)
  | cput (row col v1 v2 : Field)
  | del (row col : Field)
  /-- `forward_to_all` copies the pointers in `replicas_`. -/
  | copyReplicas
  /-- It reads an entry through its pointer. -/
  | readReplica (r : ReplicaPtr)
  /-- `replica->alive = ok`, and `++acked` when it is; the message went to `id`. -/
  | setReplicaAlive (r : ReplicaPtr) (id : NodeId) (ok : Bool)
  | lsn
  | checkpointVersion
  /-- The `+OK LSN=` line for a REPLICATE that carried `lsn` and `op`. -/
  | ack (lsn : Nat) (op : Op)
  | walDeltaAfter (lsn : Nat)
  /-- `snapshot_blob` takes `rows_mu_` and writes its header. -/
  | snapHeader
  /-- It copies a row. -/
  | snapRow (lsn : Nat) (key : Field)
  /-- It returns. -/
  | snapEnd
  /-- `load_snapshot_blob` reads the blob. -/
  | readSnapshot (image : Image)
  /-- It swaps the map and the counters. -/
  | install (image : Image)
  /-- `apply_wal_delta_blob` reads on from the wrong place. -/
  | readAstray
  /-- `checkpoint_locked` up to the rename. -/
  | ckptWrite
  /-- The rest of it. -/
  | ckptTruncate
  /-- `clear_replicas`; the flag tells BECOME_PRIMARY from BECOME_SECONDARY. -/
  | clearReplicas (promoting : Bool)
  | setPrimary (b : Bool)
  | addReplica (id : NodeId)
  /-- The LSN and the process id that answer a PING. -/
  | status

/-- What they return. -/
def NodeAct.Res : NodeAct → Type
  | isPrimary => Bool
  | get _ _ => Option Field
  | logOp _ => Option Nat
  | logNext _ _ => Receipt
  | cput _ _ _ _ => Option Nat
  | del _ _ => Option (Option Nat)
  | copyReplicas => List ReplicaPtr
  | readReplica _ => NodeId
  | lsn => Nat
  | checkpointVersion => Nat
  | ack _ _ => Nat
  | walDeltaAfter _ => List (Op × Nat)
  | snapHeader => Header
  | snapRow _ _ => Cols × Bool
  | readSnapshot _ => Option Image
  | readAstray => List (Op × Nat)
  | ckptWrite => Bool
  | ckptTruncate => Bool
  | status => Nat × Nat
  | _ => Unit

/-- Actions of the whole cluster. -/
inductive Act where
  | node (a : NodeAct)
  | coord (a : CoordAct)

/-- The signature of the cluster. -/
def clusterSig : Sig where
  Act := Act
  Res := fun
    | .node a => a.Res
    | .coord a => coordSig.Res a
  Call := Call
  Reply := Reply

/-- Programs of the cluster. -/
abbrev ClusterProg := Prog clusterSig

/-- Actions other than a client write's OK and a promotion. -/
def Act.Quiet : Act → Prop
  | .node (.answer .ok) => False
  | .node (.setPrimary true) => False
  | _ => True

/-- Actions a client write does between its test and its answer. -/
def Act.Inner : Act → Prop
  | .node .lockWrite => True
  | .node (.get _ _) => True
  | .node .lockWal => True
  | .node .unlockWal => True
  | .node (.logOp _) => True
  | .node (.applyRow _ _) => True
  | .node (.cput _ _ _ _) => True
  | .node (.del _ _) => True
  | .node .copyReplicas => True
  | .node (.readReplica _) => True
  | .node (.setReplicaAlive _ _ _) => True
  | _ => False

/-- Programs of such actions. -/
def Quiet {α : Type} (p : ClusterProg α) : Prop := p.Only Act.Quiet (fun _ => True)

/-- The same without requests. -/
def Local {α : Type} (p : ClusterProg α) : Prop := p.Only Act.Quiet (fun _ => False)

theorem Local.quiet {α : Type} {p : ClusterProg α} (h : Local p) : Quiet p :=
  h.mono (fun _ h => h) (fun _ h => h.elim)

/-- Programs of these actions. -/
def Inner {α : Type} (p : ClusterProg α) : Prop := p.Only Act.Inner (fun _ => True)

theorem Act.Inner.quiet {a : Act} (h : a.Inner) : a.Quiet := by
  unfold Act.Quiet
  split
  · exact h.elim
  · exact h.elim
  · trivial

theorem Inner.quiet {α : Type} {p : ClusterProg α} (h : Inner p) : Quiet p :=
  h.mono (fun _ => Act.Inner.quiet) (fun _ h => h)

/-- Programs of requests alone. -/
def Asks {α : Type} (p : ClusterProg α) : Prop := p.Only (fun _ => False) (fun _ => True)

theorem Asks.inner {α : Type} {p : ClusterProg α} (h : Asks p) : Inner p :=
  h.mono (fun _ => False.elim) (fun _ h => h)

namespace Manager

/-- One action at the node that runs the program. -/
def act (a : NodeAct) : ClusterProg a.Res := perform (S := clusterSig) (.node a)

/-- One request. -/
def send (c : Call) : ClusterProg (Outcome Reply) := request (S := clusterSig) c

/-! ## The tablet -/

/-- `put`. -/
def put (row col val : Field) : ClusterProg (Option Nat) := do
  act .lockWal
  match ← act (.logOp (.put row col val)) with
  | none =>
      act .unlockWal
      return none
  | some lsn =>
      act (.applyRow (.put row col val) false)
      act .unlockWal
      return some lsn

/-- `apply_replicated_put` and `apply_replicated_delete`. -/
def applyReplicated (lsn : Nat) (op : Op) : ClusterProg Bool := do
  act .lockWal
  match ← act (.logNext lsn op) with
  | .known =>
      act .unlockWal
      return true
  | .refused =>
      act .unlockWal
      return false
  | .logged =>
      act (.applyRow op true)
      act .unlockWal
      return true

/-- The loop of `apply_wal_delta_blob` over entries none of which it misreads. -/
def applyRest : List (Op × Nat) → ClusterProg Bool
  | [] => return true
  | (op, lsn) :: rest => do
      match ← act (.logNext lsn op) with
      | .known => applyRest rest
      | .refused => return false
      | .logged =>
          act (.applyRow op true)
          applyRest rest

/-- The loop of `apply_wal_delta_blob`. An entry that it has already is skipped by its
length, which it adds up in 32 bits. -/
def applyEntries : List (Op × Nat) → ClusterProg Bool
  | [] => return true
  | (op, lsn) :: rest => do
      match ← act (.logNext lsn op) with
      | .known =>
          if op.size < 2 ^ 32 then applyEntries rest
          else
            let astray : List (Op × Nat) ← act .readAstray
            applyRest astray
      | .refused => return false
      | .logged =>
          act (.applyRow op true)
          applyEntries rest

/-- `apply_wal_delta_blob`. -/
def applyWalDeltaBlob (entries : List (Op × Nat)) : ClusterProg Bool := do
  act .lockWal
  let ok ← applyEntries entries
  act .unlockWal
  return ok

/-- `checkpoint_locked`. -/
def checkpointLocked : ClusterProg Bool := do
  let written : Bool ← act .ckptWrite
  if written then act .ckptTruncate else return false

/-- `checkpoint`. -/
def checkpoint : ClusterProg Bool := do
  act .lockWal
  let ok ← checkpointLocked
  act .unlockWal
  return ok

/-- `load_snapshot_blob`. -/
def loadSnapshotBlob (image : Image) : ClusterProg Bool := do
  let read : Option Image ← act (.readSnapshot image)
  match read with
  | none => return false
  | some image =>
      act .lockWal
      act (.install image)
      let ok ← checkpointLocked
      act .unlockWal
      return ok

/-- The loop of `snapshot_blob`: the rows copied, and whether one was copied too early. -/
def copyRows (lsn : Nat) : List Field → List (Field × Cols) → Bool → ClusterProg (List (Field × Cols) × Bool)
  | [], rows, missed => return (rows, missed)
  | key :: order, rows, missed => do
      let (cols, early) ← act (.snapRow lsn key)
      copyRows lsn order (rows ++ [(key, cols)]) (missed || early)

/-- `snapshot_blob`. -/
def snapshotBlob : ClusterProg Image := do
  let header : Header ← act .snapHeader
  let (rows, missed) ← copyRows header.log.length header.order [] false
  act .snapEnd
  return header.image rows missed

/-! ## Forwarding -/

/-- Whether the answer is `+OK`. -/
def isOk : Outcome Reply → Bool
  | .reply .ok => true
  | _ => false

/-- `forward_to_replica`: a write error on the kept connection means one more try on a
new one. -/
def forwardToReplica (r : NodeId) (lsn : Nat) (op : Op) : ClusterProg Bool := do
  match ← send (.replicate r lsn op) with
  | .sendFailed => return isOk (← send (.replicate r lsn op))
  | o => return isOk o

/-- `resync_replica_from_self`. -/
def resyncReplicaFromSelf (self r : NodeId) : ClusterProg Bool := do
  return isOk (← send (.becomeSecondary r self))

/-- The body of the loop of `forward_to_all`. -/
def forwardRepairing (self r : NodeId) (lsn : Nat) (op : Op) : ClusterProg Bool := do
  if ← forwardToReplica r lsn op then return true
  else if ← resyncReplicaFromSelf self r then forwardToReplica r lsn op
  else return false

/-- The loop: how many replicas acknowledged. -/
def forwardEach (self : NodeId) (lsn : Nat) (op : Op) : List ReplicaPtr → Nat → ClusterProg Nat
  | [], acked => return acked
  | p :: ps, acked => do
      let r : NodeId ← act (.readReplica p)
      let ok ← forwardRepairing self r lsn op
      act (.setReplicaAlive p r ok)
      forwardEach self lsn op ps (if ok then acked + 1 else acked)

/-- `required_remote_acks` for a list of so many replicas. -/
def requiredRemoteAcks (replicas : Nat) : Nat := (replicas + 1) / 2 + 1 - 1

/-- `forward_to_all`. -/
def forwardToAll (self : NodeId) (lsn : Nat) (op : Op) : ClusterProg Bool := do
  let replicas : List ReplicaPtr ← act .copyReplicas
  if requiredRemoteAcks replicas.length = 0 then return true
  let acked ← forwardEach self lsn op replicas 0
  return decide (requiredRemoteAcks replicas.length ≤ acked)

/-! ## Client writes -/

/-- `return status`. -/
def finish (status : KVPutStatus) : ClusterProg KVPutStatus := do
  act (.answer status)
  return status

/-- Write back a value after a failed quorum, and forward that. -/
def restore (self : NodeId) (row col val : Field) : ClusterProg Unit := do
  match ← put row col val with
  | some lsn =>
      let _ ← forwardToAll self lsn (.put row col val)
  | none => return ()

/-- Take back a value that was not there before. The delete may find nothing, in which
case the LSN it forwards is the 0 the variable started with. -/
def retract (self : NodeId) (row col : Field) : ClusterProg Unit := do
  match ← act (.del row col) with
  | some lsn =>
      let _ ← forwardToAll self (lsn.getD 0) (.del row col)
  | none => return ()

/-- The rollback of `replicated_put`. -/
def rollbackPut (self : NodeId) (row col : Field) : Option Field → ClusterProg Unit
  | some v => restore self row col v
  | none => retract self row col

/-- The rollback of `replicated_delete`. -/
def rollbackDelete (self : NodeId) (row col : Field) : Option Field → ClusterProg Unit
  | some v => restore self row col v
  | none => return ()

/-- The opening of every client write: the test, the lock, and the value to go back to. -/
def opening (row col : Field) (body : Option Field → ClusterProg KVPutStatus) :
    ClusterProg KVPutStatus := do
  if !(← act .isPrimary) then return .error
  act .lockWrite
  body (← act (.get row col))

/-- Its end: forward what was logged, or roll it back. -/
def closing (self : NodeId) (lsn : Nat) (op : Op) (rollback : ClusterProg Unit) :
    ClusterProg KVPutStatus := do
  if ← forwardToAll self lsn op then finish .ok
  else
    rollback
    finish .quorumUnavailable

/-- `replicated_put`. -/
def replicatedPut (self : NodeId) (row col val : Field) : ClusterProg KVPutStatus :=
  opening row col fun old => do
    match ← put row col val with
    | none => finish .error
    | some lsn => closing self lsn (.put row col val) (rollbackPut self row col old)

/-- `replicated_cput`. -/
def replicatedCput (self : NodeId) (row col expected replacement : Field) : ClusterProg KVPutStatus :=
  opening row col fun old => do
    if old ≠ some expected then finish .mismatch
    else
      match ← act (.cput row col expected replacement) with
      | none => finish .error
      | some lsn => closing self lsn (.put row col replacement) (restore self row col expected)

/-- `replicated_delete`. -/
def replicatedDelete (self : NodeId) (row col : Field) : ClusterProg KVPutStatus :=
  opening row col fun old => do
    match ← act (.del row col) with
    | none => finish .error
    -- nothing to delete
    | some none => finish .ok
    | some (some lsn) => closing self lsn (.del row col) (rollbackDelete self row col old)

/-! ## Replication requests -/

/-- `apply_replicate_put` and `apply_replicate_delete`: the LSN is looked at here, and
once more by the tablet. -/
def applyReplicate (lsn : Nat) (op : Op) : ClusterProg Bool := do
  let current : Nat ← act .lsn
  if lsn ≤ current then return true
  else if lsn ≠ current + 1 then return false
  else applyReplicated lsn op

/-- The REPLICATE branch of `handle_repl_connection`. -/
def onReplicate (lsn : Nat) (op : Op) : ClusterProg Reply := do
  if ← applyReplicate lsn op then
    let _ ← act (.ack lsn op)
    return .ok
  else return .err

/-- `build_sync_response`. -/
def buildSyncResponse (ver lsn : Nat) : ClusterProg Reply := do
  let localLsn : Nat ← act .lsn
  if lsn = localLsn then
    return .sync (.delta (← act (.walDeltaAfter lsn)))
  else
    let localVer : Nat ← act .checkpointVersion
    if ver = localVer ∧ lsn < localLsn then
      let delta : List (Op × Nat) ← act (.walDeltaAfter lsn)
      match delta with
      | [] => return .sync (.snapshot (← snapshotBlob))
      | (_, first) :: _ =>
          if first ≠ lsn + 1 then return .sync (.snapshot (← snapshotBlob))
          else return .sync (.delta delta)
    else return .sync (.snapshot (← snapshotBlob))

/-- The end of `sync_from_primary`: what to do with the answer. -/
def install : Outcome Reply → ClusterProg Bool
  | .reply (.sync (.snapshot image)) => loadSnapshotBlob image
  | .reply (.sync (.delta entries)) => applyWalDeltaBlob entries
  | _ => return false

/-- `sync_from_primary`. -/
def syncFromPrimary (source : NodeId) : ClusterProg Bool := do
  let ver : Nat ← act .checkpointVersion
  let lsn : Nat ← act .lsn
  install (← send (.syncFrom source ver lsn))

/-- `demote_to_secondary`. -/
def demoteToSecondary : ClusterProg Unit := do
  act (.clearReplicas false)
  act (.setPrimary false)

/-- `become_secondary_and_sync`; every caller names a host. -/
def becomeSecondaryAndSync (source : NodeId) : ClusterProg Bool := do
  demoteToSecondary
  syncFromPrimary source

/-- The BECOME_PRIMARY branch. -/
def onBecomePrimary : ClusterProg Reply := do
  act (.clearReplicas true)
  act (.setPrimary true)
  return .ok

/-- What a node does with a request. -/
def handler : Call → ClusterProg Reply
  | .replicate _ lsn op => onReplicate lsn op
  | .syncFrom _ ver lsn => buildSyncResponse ver lsn
  | .becomePrimary _ => onBecomePrimary
  | .becomeSecondary _ source => do
      if ← becomeSecondaryAndSync source then return .ok
      else return .err
  | .addReplica _ id => do
      act (.addReplica id)
      return .ok
  | .ping _ => do
      let (lsn, pid) ← act .status
      return .pong lsn pid

/-! ## Quiet programs -/

theorem quiet_last {a : NodeAct} (h : Act.Quiet (.node a)) : Quiet (act a) :=
  ⟨h, fun _ => trivial⟩

theorem quiet_act {α : Type} {a : NodeAct} {f : a.Res → ClusterProg α} (h : Act.Quiet (.node a))
    (hf : ∀ r, Quiet (f r)) : Quiet (act a >>= f) :=
  ⟨h, hf⟩

theorem local_last {a : NodeAct} (h : Act.Quiet (.node a)) : Local (act a) :=
  ⟨h, fun _ => trivial⟩

theorem local_act {α : Type} {a : NodeAct} {f : a.Res → ClusterProg α} (h : Act.Quiet (.node a))
    (hf : ∀ r, Local (f r)) : Local (act a >>= f) :=
  ⟨h, hf⟩

theorem asks_send (c : Call) : Asks (send c) := ⟨trivial, fun _ => trivial⟩

theorem asks_forwardToReplica (r : NodeId) (lsn : Nat) (op : Op) : Asks (forwardToReplica r lsn op) := by
  refine (asks_send _).bind (fun o => ?_)
  cases o with
  | sendFailed => exact (asks_send _).bind (fun _ => trivial)
  | _ => trivial

theorem asks_resyncReplicaFromSelf (self r : NodeId) : Asks (resyncReplicaFromSelf self r) :=
  (asks_send _).bind (fun _ => trivial)

theorem asks_forwardRepairing (self r : NodeId) (lsn : Nat) (op : Op) :
    Asks (forwardRepairing self r lsn op) := by
  refine (asks_forwardToReplica r lsn op).bind (fun ok => ?_)
  split
  · trivial
  · refine (asks_resyncReplicaFromSelf self r).bind (fun ok => ?_)
    split
    · exact asks_forwardToReplica r lsn op
    · trivial

theorem inner_act {α : Type} {a : NodeAct} {f : a.Res → ClusterProg α} (h : Act.Inner (.node a))
    (hf : ∀ r, Inner (f r)) : Inner (act a >>= f) :=
  ⟨h, hf⟩

theorem inner_put (row col val : Field) : Inner (put row col val) := by
  refine inner_act trivial (fun _ => inner_act trivial (fun (lsn : Option Nat) => ?_))
  cases lsn with
  | none => exact inner_act trivial (fun _ => trivial)
  | some lsn => exact inner_act trivial (fun _ => inner_act trivial (fun _ => trivial))

theorem inner_forwardEach (self : NodeId) (lsn : Nat) (op : Op) (ps : List ReplicaPtr) (acked : Nat) :
    Inner (forwardEach self lsn op ps acked) := by
  induction ps generalizing acked with
  | nil => trivial
  | cons p ps ih =>
      refine inner_act trivial (fun (r : NodeId) => ?_)
      exact (asks_forwardRepairing self r lsn op).inner.bind (fun ok =>
        inner_act trivial (fun _ => ih _))

theorem inner_forwardToAll (self : NodeId) (lsn : Nat) (op : Op) : Inner (forwardToAll self lsn op) := by
  refine inner_act trivial (fun (ps : List ReplicaPtr) => ?_)
  split
  · trivial
  · exact (inner_forwardEach self lsn op ps 0).bind (fun _ => trivial)

theorem inner_restore (self : NodeId) (row col val : Field) : Inner (restore self row col val) := by
  refine (inner_put row col val).bind (fun lsn => ?_)
  cases lsn with
  | none => trivial
  | some lsn => exact (inner_forwardToAll self lsn _).bind (fun _ => trivial)

theorem inner_retract (self : NodeId) (row col : Field) : Inner (retract self row col) := by
  refine inner_act trivial (fun lsn => ?_)
  cases lsn with
  | none => trivial
  | some lsn => exact (inner_forwardToAll self _ _).bind (fun _ => trivial)

theorem inner_rollbackPut (self : NodeId) (row col : Field) (old : Option Field) :
    Inner (rollbackPut self row col old) := by
  cases old with
  | none => exact inner_retract self row col
  | some v => exact inner_restore self row col v

theorem inner_rollbackDelete (self : NodeId) (row col : Field) (old : Option Field) :
    Inner (rollbackDelete self row col old) := by
  cases old with
  | none => trivial
  | some v => exact inner_restore self row col v

theorem local_finish {status : KVPutStatus} (h : status ≠ .ok) : Local (finish status) := by
  cases status with
  | ok => exact absurd rfl h
  | _ => exact local_act trivial (fun _ => trivial)

theorem local_checkpointLocked : Local checkpointLocked := by
  refine local_act trivial (fun (written : Bool) => ?_)
  cases written with
  | true => exact local_last trivial
  | false => trivial

theorem local_checkpoint : Local checkpoint :=
  local_act trivial (fun _ => local_checkpointLocked.bind (fun _ => local_act trivial (fun _ => trivial)))

theorem local_loadSnapshotBlob (image : Image) : Local (loadSnapshotBlob image) := by
  refine local_act trivial (fun (read : Option Image) => ?_)
  cases read with
  | none => trivial
  | some image =>
      exact local_act trivial (fun _ => local_act trivial (fun _ =>
        local_checkpointLocked.bind (fun _ => local_act trivial (fun _ => trivial))))

theorem local_applyReplicated (lsn : Nat) (op : Op) : Local (applyReplicated lsn op) := by
  refine local_act trivial (fun _ => local_act trivial (fun (receipt : Receipt) => ?_))
  cases receipt with
  | known => exact local_act trivial (fun _ => trivial)
  | refused => exact local_act trivial (fun _ => trivial)
  | logged => exact local_act trivial (fun _ => local_act trivial (fun _ => trivial))

theorem local_applyRest (entries : List (Op × Nat)) : Local (applyRest entries) := by
  induction entries with
  | nil => trivial
  | cons e rest ih =>
      refine local_act trivial (fun (receipt : Receipt) => ?_)
      cases receipt with
      | known => exact ih
      | refused => trivial
      | logged => exact local_act trivial (fun _ => ih)

theorem local_applyEntries (entries : List (Op × Nat)) : Local (applyEntries entries) := by
  induction entries with
  | nil => trivial
  | cons e rest ih =>
      refine local_act trivial (fun (receipt : Receipt) => ?_)
      cases receipt with
      | known =>
          show Local (if _ then _ else _)
          split
          · exact ih
          · exact local_act trivial (fun astray => local_applyRest astray)
      | refused => trivial
      | logged => exact local_act trivial (fun _ => ih)

theorem local_applyWalDeltaBlob (entries : List (Op × Nat)) : Local (applyWalDeltaBlob entries) :=
  local_act trivial (fun _ => (local_applyEntries entries).bind (fun _ => local_act trivial (fun _ => trivial)))

theorem local_copyRows (lsn : Nat) (order : List Field) (rows : List (Field × Cols)) (missed : Bool) :
    Local (copyRows lsn order rows missed) := by
  induction order generalizing rows missed with
  | nil => trivial
  | cons key order ih => exact local_act trivial (fun (q : Cols × Bool) => ih _ _)

theorem local_snapshotBlob : Local snapshotBlob :=
  local_act trivial (fun (header : Header) =>
    (local_copyRows header.log.length header.order [] false).bind (fun _ => local_act trivial (fun _ => trivial)))

theorem local_buildSyncResponse (ver lsn : Nat) : Local (buildSyncResponse ver lsn) := by
  have hsnap : Local (snapshotBlob >>= fun image => pure (Reply.sync (.snapshot image))) :=
    local_snapshotBlob.bind (fun _ => trivial)
  refine local_act trivial (fun localLsn => ?_)
  split
  · exact local_act trivial (fun _ => trivial)
  · refine local_act trivial (fun localVer => ?_)
    split
    · refine local_act trivial (fun delta => ?_)
      split
      · exact hsnap
      · split
        · exact hsnap
        · trivial
    · exact hsnap

theorem local_install (o : Outcome Reply) : Local (install o) := by
  unfold install
  split
  · exact local_loadSnapshotBlob _
  · exact local_applyWalDeltaBlob _
  · trivial

theorem local_applyReplicate (lsn : Nat) (op : Op) : Local (applyReplicate lsn op) := by
  refine local_act trivial (fun (current : Nat) => ?_)
  split
  · trivial
  · split
    · trivial
    · exact local_applyReplicated lsn op

theorem local_onReplicate (lsn : Nat) (op : Op) : Local (onReplicate lsn op) := by
  refine (local_applyReplicate lsn op).bind (fun ok => ?_)
  split
  · exact local_act trivial (fun _ => trivial)
  · trivial

theorem quiet_becomeSecondaryAndSync (source : NodeId) : Quiet (becomeSecondaryAndSync source) := by
  refine Prog.Only.bind (quiet_act trivial (fun _ => quiet_last trivial)) (fun _ => ?_)
  refine quiet_act trivial (fun ver => quiet_act trivial (fun lsn => ?_))
  exact (asks_send _).inner.quiet.bind (fun o => (local_install o).quiet)

/-- Handlers other than BECOME_PRIMARY are quiet. -/
theorem quiet_handler {c : Call} (hc : ∀ n, c ≠ .becomePrimary n) : Quiet (handler c) := by
  cases c with
  | replicate n lsn op => exact (local_onReplicate lsn op).quiet
  | syncFrom n ver lsn => exact (local_buildSyncResponse ver lsn).quiet
  | becomePrimary n => exact absurd rfl (hc n)
  | becomeSecondary n source =>
      refine (quiet_becomeSecondaryAndSync source).bind (fun ok => ?_)
      split <;> trivial
  | addReplica n id => exact quiet_act trivial (fun _ => trivial)
  | ping n => exact quiet_act trivial (fun _ => trivial)

end Manager

end NCloud
