import NCloud.Lib.Process
import NCloud.Replication.Node

/-!
# The coordinator

`coordinator.cc` for one tablet group, as programs over the coordinator's own actions
(reading and writing `nodes_` and the group's `node_ids` under their locks) and its
requests to storage nodes. Nothing here knows what a node does with a request.

`nodes_` is an unordered map; the list holds it in the order in which it is walked.
`std::sort` is not stable, so the sort of election candidates is a parameter.
-/

namespace NCloud

open Process

/-- A storage node as the coordinator remembers it. -/
structure StorageNode where
  id : NodeId
  alive : Bool := true
  wasDown : Bool := false
  lsn : Nat := 0
  processId : Nat := 0
  missed : Nat := 0
  deriving DecidableEq

/-- The coordinator's state: `nodes_` and the group's `node_ids`. -/
structure Coord where
  nodes : List StorageNode
  nodeIds : List NodeId

namespace Coord

/-- `nodes_.find`. -/
def find (c : Coord) (id : NodeId) : Option StorageNode := c.nodes.find? (fun n => n.id = id)

/-- Change the entry of `id`, if there is one. -/
def update (c : Coord) (id : NodeId) (f : StorageNode → StorageNode) : Coord :=
  { c with nodes := c.nodes.map (fun n => if n.id = id then f n else n) }

/-- The largest LSN in a list of entries, at least `m`. -/
def maxLsn (m : Nat) (nodes : List StorageNode) : Nat := nodes.foldl (fun m n => max m n.lsn) m

/-- `tablet_max_known_lsn`: over every node of the group, dead ones included. -/
def maxKnownLsn (c : Coord) (ids : List NodeId) : Nat := maxLsn 0 (ids.filterMap c.find)

/-- `std::swap(tg.node_ids[0], *pos)` with the position of `id`. -/
def swapHead (c : Coord) (id : NodeId) : Coord :=
  match c.nodeIds with
  | [] => c
  | head :: rest =>
      if head = id then c
      else if id ∈ rest then { c with nodeIds := id :: rest.replace id head }
      else c

end Coord

/-- Requests the coordinator sends. -/
inductive CoordCall where
  | ping (node : NodeId)
  | becomePrimary (node : NodeId)
  | becomeSecondary (node source : NodeId)
  | addReplica (primary id : NodeId)

/-- Answers it understands. -/
inductive CoordReply where
  | ok
  | err
  | pong (lsn pid : Nat)

/-- Critical sections on the coordinator's state. -/
inductive CoordAct where
  /-- Read both tables. -/
  | view
  /-- Write back what a ping learned. -/
  | store (n : StorageNode)
  /-- `it->second.alive = true`. -/
  | markAlive (id : NodeId)
  /-- The last section of an election: the winner becomes `node_ids[0]`. -/
  | storeWinner (id : NodeId)
  /-- The same in `handle_node_recovery`. -/
  | storeRecovered (id : NodeId)

/-- The coordinator's signature. -/
def coordSig : Sig where
  Act := CoordAct
  Res := fun
    | .view => Coord
    | _ => Unit
  Call := CoordCall
  Reply := CoordReply

/-- Programs of the coordinator. -/
abbrev CoordProg := Prog coordSig

namespace CoordProg

/-- Read `nodes_` and `node_ids`. -/
def view : CoordProg Coord := perform (S := coordSig) .view

/-- Do one of the other sections. -/
def write (a : CoordAct) : CoordProg Unit := .act (S := coordSig) a (fun _ => .ret ())

/-! ## Requests -/

/-- One attempt at a control request: `+OK` or not. -/
def attempt (c : CoordCall) : CoordProg Bool := do
  match ← request (S := coordSig) c with
  | .reply .ok => return true
  | _ => return false

/-- The loop of `promote_node`, `demote_and_sync_node` and `add_replica_to_primary`. -/
def attempts (c : CoordCall) : Nat → CoordProg Bool
  | 0 => return false
  | n + 1 => do
      if ← attempt c then return true
      else attempts c n

/-- `promote_node`. -/
def promoteNode (id : NodeId) : CoordProg Bool := attempts (.becomePrimary id) 3

/-- `demote_and_sync_node`. -/
def demoteAndSyncNode (id primary : NodeId) : CoordProg Bool :=
  attempts (.becomeSecondary id primary) 3

/-- `add_replica_to_primary`. -/
def addReplicaToPrimary (primary id : NodeId) : CoordProg Bool :=
  attempts (.addReplica primary id) 3

/-- `HB_MISS_THRESH`. -/
def HB_MISS_THRESH : Nat := 3

/-- One more missed ping; the flag says that the node has just been marked down. -/
def missPing (node : StorageNode) : StorageNode × Bool :=
  let node := { node with missed := node.missed + 1 }
  if node.alive ∧ node.missed ≥ HB_MISS_THRESH then
    ({ node with alive := false, wasDown := true }, true)
  else (node, false)

/-- A ping that was answered; the flag says that the process is another one. A node that
has recovered is no longer `was_down`. -/
def gotPing (node : StorageNode) (lsn pid : Nat) : StorageNode × Bool :=
  let processId := if pid > 0 then pid else node.processId
  let restarted := decide (node.alive ∧ ¬ node.wasDown ∧ node.processId > 0 ∧ processId > 0 ∧
    node.processId ≠ processId)
  let wasDown := if ¬ node.alive ∧ node.wasDown then false else node.wasDown
  ({ node with missed := 0, alive := true, lsn := lsn, processId := processId, wasDown := wasDown },
    restarted)

/-- `ping_node`: the new entry, whether it has just failed, whether it restarted. -/
def pingNode (node : StorageNode) : CoordProg (StorageNode × Bool × Bool) := do
  match ← request (S := coordSig) (.ping node.id) with
  | .reply (.pong lsn pid) =>
      let (node, restarted) := gotPing node lsn pid
      return (node, false, restarted)
  | _ =>
      let (node, failed) := missPing node
      return (node, failed, false)

/-- `refresh_node_lsn_now`; `none` is `return false`. -/
def refreshNodeLsnNow (node : StorageNode) : CoordProg (Option StorageNode) := do
  match ← request (S := coordSig) (.ping node.id) with
  | .reply (.pong lsn pid) =>
      return some { node with
        missed := 0, alive := true, wasDown := false, lsn := lsn
        processId := if pid > 0 then pid else node.processId }
  | _ => return none

/-- `cache_refreshed_node`. -/
def cacheRefreshedNode (node : StorageNode) : CoordProg Unit := write (.store node)

/-- The loop that every plan runs over its followers: refresh, cache, keep the ones
that answered. -/
def refreshFollowers : List StorageNode → CoordProg (List StorageNode)
  | [] => return []
  | f :: fs => do
      match ← refreshNodeLsnNow f with
      | some f =>
          cacheRefreshedNode f
          return f :: (← refreshFollowers fs)
      | none => refreshFollowers fs

/-! ## Reconfiguring a group -/

/-- Make each follower sync from the primary and register it there. -/
def attachFollowers (primary : NodeId) : List StorageNode → CoordProg Unit
  | [] => return ()
  | f :: fs => do
      if ← demoteAndSyncNode f.id primary then
        let _ ← addReplicaToPrimary primary f.id
      attachFollowers primary fs

/-- `rebuild_primary_replicas`. -/
def rebuildPrimaryReplicas (primary : NodeId) (followers : List StorageNode) : CoordProg Unit := do
  if ← promoteNode primary then attachFollowers primary followers

/-! ## `handle_node_failure` -/

/-- `ElectionCandidate`. -/
structure Candidate where
  primary : StorageNode
  followers : List StorageNode
  lsn : Nat

/-- Nodes of the group that are not `skip` and are believed alive. -/
def aliveIn (c : Coord) (ids : List NodeId) (skip : NodeId → Bool) : List StorageNode :=
  (ids.filter (fun id => ¬ skip id)).filterMap (fun id => (c.find id).filter (fun n => n.alive))

/-- The candidates of an election, before fresh probes. -/
def candidatesOf (c : Coord) (dead : NodeId) : List Candidate :=
  (aliveIn c c.nodeIds (fun id => id = dead)).map (fun n =>
    { primary := n
      followers := aliveIn c c.nodeIds (fun id => id = dead ∨ id = n.id)
      lsn := n.lsn })

/-- Fresh probes of every candidate and its followers. -/
def refreshCandidates : List Candidate → Nat → CoordProg (List Candidate × Nat)
  | [], maxKnown => return ([], maxKnown)
  | c :: cs, maxKnown => do
      match ← refreshNodeLsnNow c.primary with
      | none => refreshCandidates cs maxKnown
      | some p =>
          cacheRefreshedNode p
          let fs ← refreshFollowers c.followers
          let (cs, maxKnown) ← refreshCandidates cs (Coord.maxLsn (max maxKnown p.lsn) fs)
          return ({ primary := p, followers := fs, lsn := p.lsn } :: cs, maxKnown)

/-- The first candidate that is not stale and can be promoted. -/
def pickWinner (maxKnown : Nat) : List Candidate → CoordProg (Option Candidate)
  | [] => return none
  | c :: cs => do
      if c.lsn < maxKnown then pickWinner maxKnown cs
      else if ← promoteNode c.primary.id then return some c
      else pickWinner maxKnown cs

/-- The election loop. -/
def elect (sort : List Candidate → List Candidate) (candidates : List Candidate) (maxKnown : Nat) :
    CoordProg Unit := do
  let (cs, maxKnown) ← refreshCandidates candidates maxKnown
  match ← pickWinner maxKnown (sort cs) with
  | none => return ()
  | some w =>
      attachFollowers w.primary.id w.followers
      write (.storeWinner w.primary.id)

/-- A secondary is gone: rebuild the replica list of the primary. -/
def rebuild (primary : StorageNode) (followers : List StorageNode) : CoordProg Unit := do
  match ← refreshNodeLsnNow primary with
  | none => return ()
  | some p =>
      cacheRefreshedNode p
      let fs ← refreshFollowers followers
      rebuildPrimaryReplicas p.id fs
      write (.markAlive p.id)

/-- `handle_node_failure`. -/
def handleNodeFailure (sort : List Candidate → List Candidate) (dead : NodeId) : CoordProg Unit := do
  let c ← view
  if (c.find dead).isNone then return ()
  match c.nodeIds with
  | [] => return ()
  | head :: rest =>
      if dead ∉ c.nodeIds then return ()
      match (c.find head).filter (fun n => n.alive ∧ head ≠ dead) with
      | some p => rebuild p (aliveIn c rest (fun id => id = dead))
      | none => elect sort (sort (candidatesOf c dead)) (c.maxKnownLsn c.nodeIds)

/-! ## `handle_node_recovery` -/

/-- What the plan knows after its first look. -/
structure RecoveryPlan where
  live : StorageNode
  primary : Option StorageNode
  followers : List StorageNode
  oldPrimary : NodeId
  maxKnown : Nat

/-- The plan for the group. -/
def recoveryPlan (c : Coord) (live : StorageNode) (head : NodeId) : RecoveryPlan :=
  { live := live
    primary := (c.find head).filter (fun n => n.alive)
    followers := aliveIn c c.nodeIds (fun id => id = live.id)
    oldPrimary := head
    maxKnown := Coord.maxLsn live.lsn ((c.nodeIds.filterMap c.find).filter (fun n => n.alive)) }

/-- The primary after the probes: a refreshed follower of that name, or a probe of its
own; without a primary in the plan, a follower with the old primary's name. -/
def refreshPrimary (plan : RecoveryPlan) (followers : List StorageNode) :
    CoordProg (Option StorageNode) := do
  match plan.primary with
  | some p =>
      match followers.find? (fun f => f.id = p.id) with
      | some f => return some f
      | none =>
          match ← refreshNodeLsnNow p with
          | some p =>
              cacheRefreshedNode p
              return some p
          | none => return none
  | none =>
      if plan.oldPrimary ≠ plan.live.id then
        return followers.find? (fun f => f.id = plan.oldPrimary)
      else return none

/-- `handle_node_recovery`. -/
def handleNodeRecovery (liveId : NodeId) : CoordProg Unit := do
  let c ← view
  match c.find liveId, c.nodeIds with
  | some node, head :: _ =>
      if liveId ∉ c.nodeIds then return ()
      let plan := recoveryPlan c node head
      match ← refreshNodeLsnNow plan.live with
      | none => return ()
      | some live =>
          cacheRefreshedNode live
          let followers ← refreshFollowers plan.followers
          let primary ← refreshPrimary plan followers
          let primaryLsn := (primary.map (·.lsn)).getD 0
          let maxKnown := Coord.maxLsn (max (max plan.maxKnown live.lsn) primaryLsn) followers
          if live.lsn < maxKnown ∧ (primary.isNone ∨ primaryLsn < maxKnown) then return ()
          match primary with
          | some p =>
              if plan.oldPrimary ≠ liveId ∧ p.lsn ≥ live.lsn then
                if ← demoteAndSyncNode live.id p.id then
                  if ← addReplicaToPrimary p.id live.id then
                    write (.markAlive liveId)
              else promoteRecovered live followers
          | none => promoteRecovered live followers
  | _, _ => return ()
where
  /-- The branch that promotes the recovered node. -/
  promoteRecovered (live : StorageNode) (followers : List StorageNode) : CoordProg Unit := do
    if ← promoteNode live.id then
      attachFollowers live.id followers
      write (.storeRecovered live.id)

/-! ## The heartbeat -/

/-- The pings of one round: who has just failed and who has just come back. -/
def pingAll : List StorageNode → CoordProg (List NodeId × List NodeId)
  | [] => return ([], [])
  | node :: rest => do
      let (node', failed, restarted) ← pingNode node
      write (.store node')
      let (dead, live) ← pingAll rest
      let recovered := node.wasDown ∧ node'.alive ∧ ¬ node'.wasDown
      return (if failed then node.id :: dead else dead,
        if recovered ∨ restarted then node.id :: live else live)

/-- One after the other. -/
def each (f : NodeId → CoordProg Unit) : List NodeId → CoordProg Unit
  | [] => return ()
  | id :: ids => do
      f id
      each f ids

/-- One turn of `heartbeat_loop`. -/
def heartbeat (sort : List Candidate → List Candidate) : CoordProg Unit := do
  let c ← view
  let (dead, live) ← pingAll c.nodes
  each (handleNodeFailure sort) dead
  each handleNodeRecovery live

/-! ## `handle_lookup` -/

/-- `handle_lookup` for a row of the group: the node named in `+OK`, or `none`. -/
def handleLookup : CoordProg (Option NodeId) := do
  let c ← view
  match c.nodeIds with
  | [] => return none
  | head :: _ =>
      match (c.find head).filter (fun n => n.alive) with
      | none => return none
      | some primary =>
          match ← refreshNodeLsnNow primary with
          | none => return none
          | some primary =>
              cacheRefreshedNode primary
              let now ← view
              if primary.lsn < now.maxKnownLsn c.nodeIds then
                match ← refreshNodeLsnNow primary with
                | some primary =>
                    cacheRefreshedNode primary
                    let now ← view
                    return if primary.lsn < now.maxKnownLsn c.nodeIds then none else some primary.id
                | none => return none
              else return some primary.id

end CoordProg

end NCloud
