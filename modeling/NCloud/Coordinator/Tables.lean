import NCloud.Lib.Exchange
import NCloud.Lib.Reader

/-!
# The coordinator with all its tablets

`coordinator.cc` as programs over its two tables, `nodes_` and `tablets_`, and its
requests to storage nodes. A critical section under the locks is one action; what a
routine has copied out of a table stays as it was while others write to the table.

What a storage node says of itself in the answer to a ping is a `PingInfo`, which holds
what `parse_ping_metadata` finds in the text.

`Coordinator.Programs` has the same routines for one group alone, beside a model of the
storage nodes.
-/

namespace NCloud.Coordinator

open Process Wire

abbrev NodeId := Bytes

abbrev TabletName := Bytes

/-! ## The tables -/

/-- An entry of `nodes_`. Its role is only ever printed. -/
structure StorageNode where
  id : NodeId
  host : String
  port : Int
  alive : Bool := true
  wasDown : Bool := false
  lsn : Nat := 0
  tabletLsns : List (TabletName × Nat) := []
  processId : Nat := 0
  missed : Nat := 0
  deriving DecidableEq

/-- What a ping is answered with: `LSN=`, `TABLET_LSNS=` and `PID=`, the last 0 if it is
missing. -/
structure PingInfo where
  lsn : Option Nat
  tabletLsns : List (TabletName × Nat)
  pid : Nat
  deriving DecidableEq

/-- An entry of `tablets_`. -/
structure TabletGroup where
  name : TabletName
  rowStart : Bytes
  rowEnd : Bytes
  nodeIds : List NodeId
  deriving DecidableEq

namespace StorageNode

/-- `node_tablet_lsn`. -/
def tabletLsn (node : StorageNode) (tablet : TabletName) : Nat :=
  (node.tabletLsns.lookup tablet).getD node.lsn

/-- `parse_ping_metadata`. -/
def parsePingMetadata (node : StorageNode) (info : PingInfo) : StorageNode :=
  { node with
    lsn := info.lsn.getD node.lsn
    tabletLsns := if info.tabletLsns = [] then node.tabletLsns else info.tabletLsns
    processId := if info.pid > 0 then info.pid else node.processId }

/-- What `refresh_node_lsn_now` makes of an answer. -/
def refreshed (node : StorageNode) (info : PingInfo) : StorageNode :=
  parsePingMetadata { node with missed := 0, alive := true, wasDown := false } info

/-- What the heartbeat writes back. -/
def writeBack (entry node : StorageNode) : StorageNode :=
  { entry with
    missed := node.missed, alive := node.alive, wasDown := node.wasDown, lsn := node.lsn
    tabletLsns := node.tabletLsns, processId := node.processId }

end StorageNode

namespace TabletGroup

/-- Whether a row is in the range; an empty bound is none. -/
def covers (tg : TabletGroup) (row : Bytes) : Bool :=
  (decide (tg.rowStart = []) || decide (tg.rowStart ≤ row)) &&
    (decide (tg.rowEnd = []) || decide (row < tg.rowEnd))

end TabletGroup

/-- `std::swap` of the first element and the one at `i`. -/
def swapFront {α : Type} (i : Nat) : List α → List α
  | [] => []
  | head :: rest =>
      match i with
      | 0 => head :: rest
      | i + 1 =>
          match rest[i]? with
          | some x => x :: rest.set i head
          | none => head :: rest

/-- The same with the place of `id`. -/
def swapTo (id : NodeId) (ids : List NodeId) : List NodeId := swapFront (ids.idxOf id) ids

/-- `id` comes to the front in the first group of that name. -/
def setPrimary (tablet : TabletName) (id : NodeId) : List TabletGroup → List TabletGroup
  | [] => []
  | tg :: rest =>
      if tg.name = tablet then { tg with nodeIds := swapTo id tg.nodeIds } :: rest
      else tg :: setPrimary tablet id rest

/-- Both tables. The list of nodes is in the order in which the map is walked. -/
structure Tables where
  nodes : List StorageNode
  tablets : List TabletGroup

/-- `nodes_.find`, in the table or in a copy of it. -/
def find (nodes : List StorageNode) (id : NodeId) : Option StorageNode :=
  nodes.find? (fun n => decide (n.id = id))

/-- The same if the node is believed alive. -/
def findAlive (nodes : List StorageNode) (id : NodeId) : Option StorageNode :=
  (find nodes id).filter (fun n => n.alive)

/-- The largest LSN for a tablet, at least `m`. -/
def maxLsn (tablet : TabletName) (m : Nat) (nodes : List StorageNode) : Nat :=
  nodes.foldl (fun m n => max m (n.tabletLsn tablet)) m

/-- `tablet_max_known_lsn`: over every node of the group, dead ones included. -/
def tabletMaxKnownLsn (nodes : List StorageNode) (tg : TabletGroup) : Nat :=
  maxLsn tg.name 0 (tg.nodeIds.filterMap (find nodes))

namespace Tables

/-- Change the entry of `id`, if there is one. -/
def update (c : Tables) (id : NodeId) (f : StorageNode → StorageNode) : Tables :=
  { c with nodes := c.nodes.map (fun n => if n.id = id then f n else n) }

end Tables

/-! ## Actions and requests -/

/-- Requests, and the test whether the replication port can be connected to. -/
inductive Call where
  | ping (node : NodeId)
  | connectRepl (node : NodeId)
  | becomePrimary (node : NodeId) (tablet : TabletName)
  | becomeSecondary (node source : NodeId) (tablet : TabletName)
  | addReplica (primary id : NodeId) (tablet : TabletName)
  deriving DecidableEq

/-- Answers. -/
inductive Reply where
  | ok
  | err
  | pong (info : PingInfo)
  deriving DecidableEq

/-- Critical sections. -/
inductive Act where
  | readNodes
  | readTablets
  | readBoth
  /-- `cache_refreshed_node`. -/
  | store (node : StorageNode)
  /-- The section in `heartbeat_loop`. What was copied out of the table, what the ping
  has made of it, and whether the node goes on the list of those that came back. -/
  | writeBack (copy node : StorageNode) (live : Bool)
  /-- `it->second.alive = true`. -/
  | markAlive (id : NodeId)
  /-- The last section of an election. -/
  | storeWinner (tablet : TabletName) (id : NodeId)
  /-- The last section of a recovery that promotes. -/
  | storeRecovered (tablet : TabletName) (id : NodeId)
  /-- The last section of a complete round of `configure_initial_tablet_roles`. -/
  | storeTablets (tgs : List TabletGroup)
  /-- `handle_node_recovery` is called. -/
  | recovering (id : NodeId)
  /-- `heartbeat_loop` wakes up, and goes back to sleep. -/
  | wake
  | sleep
  deriving DecidableEq

/-- What they return. -/
def Act.Res : Act → Type
  | readNodes => List StorageNode
  | readTablets => List TabletGroup
  | readBoth => Tables
  | _ => Unit

/-- The signature. -/
def sig : Sig where
  Act := Act
  Res := Act.Res
  Call := Call
  Reply := Reply

instance : DecidableEq sig.Call := inferInstanceAs (DecidableEq Call)

/-- What a critical section does to the tables. -/
def exec : (a : Act) → Tables → a.Res × Tables
  | .readNodes, c => (c.nodes, c)
  | .readTablets, c => (c.tablets, c)
  | .readBoth, c => (c, c)
  | .store node, c => ((), c.update node.id (fun e => e.writeBack node))
  | .writeBack _ node _, c => ((), c.update node.id (fun e => e.writeBack node))
  | .markAlive id, c => ((), c.update id (fun e => { e with alive := true }))
  | .storeWinner tablet id, c =>
      ((), if (find c.nodes id).isSome then
          { c with tablets := setPrimary tablet id c.tablets }.update id (fun e => { e with alive := true })
        else c)
  | .storeRecovered tablet id, c =>
      ((), { c with tablets := setPrimary tablet id c.tablets }.update id (fun e => { e with alive := true }))
  | .storeTablets tgs, c => ((), { c with tablets := tgs })
  | .recovering _, c => ((), c)
  | .wake, c => ((), c)
  | .sleep, c => ((), c)

/-- Programs of the coordinator. -/
abbrev CoordProg := Prog sig

/-- A section that returns nothing. -/
def write (a : Act) : CoordProg Unit := .act (S := sig) a (fun _ => .ret ())

/-- One after the other. -/
def each {α : Type} (f : α → CoordProg Unit) : List α → CoordProg Unit
  | [] => return ()
  | x :: xs => do
      f x
      each f xs

/-! ## Requests -/

/-- Three attempts at a control request: `+OK` or not. -/
def attempts (c : Call) : Nat → CoordProg Bool
  | 0 => return false
  | n + 1 => do
      match ← request (S := sig) c with
      | .reply .ok => return true
      | _ => attempts c n

/-- `promote_node`. -/
def promoteNode (id : NodeId) (tablet : TabletName) : CoordProg Bool :=
  attempts (.becomePrimary id tablet) 3

/-- `demote_and_sync_node`. -/
def demoteAndSyncNode (id primary : NodeId) (tablet : TabletName) : CoordProg Bool :=
  attempts (.becomeSecondary id primary tablet) 3

/-- `add_replica_to_primary`. -/
def addReplicaToPrimary (primary id : NodeId) (tablet : TabletName) : CoordProg Bool :=
  attempts (.addReplica primary id tablet) 3

/-- `repl_port_ready`. -/
def replPortReady (id : NodeId) : CoordProg Bool := do
  match ← request (S := sig) (.connectRepl id) with
  | .reply .ok => return true
  | _ => return false

/-- One more missed ping; the flag says that the node has just been marked down. -/
def missPing (thresh : Nat) (node : StorageNode) : StorageNode × Bool :=
  let node := { node with missed := node.missed + 1 }
  if node.alive ∧ node.missed ≥ thresh then ({ node with alive := false, wasDown := true }, true)
  else (node, false)

/-- A ping that was answered; the flag says that the process is another one. -/
def gotPing (node : StorageNode) (info : PingInfo) : StorageNode × Bool :=
  let node' := StorageNode.parsePingMetadata { node with missed := 0, alive := true } info
  (if ¬ node.alive ∧ node.wasDown then { node' with wasDown := false } else node',
    decide (node.alive ∧ ¬ node.wasDown ∧ node.processId > 0 ∧ node'.processId > 0 ∧
      node.processId ≠ node'.processId))

/-- `ping_node`: the entry, whether it has just failed, whether its process restarted. -/
def pingNode (thresh : Nat) (node : StorageNode) : CoordProg (StorageNode × Bool × Bool) := do
  match ← request (S := sig) (.ping node.id) with
  | .reply (.pong info) => return ((gotPing node info).1, false, (gotPing node info).2)
  | _ => return ((missPing thresh node).1, (missPing thresh node).2, false)

/-- `refresh_node_lsn_now`; `none` is `return false`. -/
def refreshNodeLsnNow (node : StorageNode) : CoordProg (Option StorageNode) := do
  match ← request (S := sig) (.ping node.id) with
  | .reply (.pong info) => return some (node.refreshed info)
  | _ => return none

/-- `refresh_node_lsn_now`, and `cache_refreshed_node` if there was an answer. -/
def refreshAndCache (node : StorageNode) : CoordProg (Option StorageNode) := do
  match ← refreshNodeLsnNow node with
  | some node =>
      write (.store node)
      return some node
  | none => return none

/-- The loop that every plan runs over its followers: the ones that answered. -/
def refreshFollowers : List StorageNode → CoordProg (List StorageNode)
  | [] => return []
  | f :: fs => do
      match ← refreshAndCache f with
      | some f => return f :: (← refreshFollowers fs)
      | none => refreshFollowers fs

/-- Make each follower sync from the primary and register it there. -/
def attachFollowers (primary : NodeId) (tablet : TabletName) : List StorageNode → CoordProg Unit
  | [] => return ()
  | f :: fs => do
      if ← demoteAndSyncNode f.id primary tablet then
        let _ ← addReplicaToPrimary primary f.id tablet
      attachFollowers primary tablet fs

/-- `rebuild_primary_replicas`. -/
def rebuildPrimaryReplicas (primary : NodeId) (tablet : TabletName) (followers : List StorageNode) :
    CoordProg Unit := do
  if ← promoteNode primary tablet then attachFollowers primary tablet followers

/-- Nodes of a group that are not left out and are believed alive. -/
def aliveIn (nodes : List StorageNode) (ids : List NodeId) (skip : NodeId → Bool) : List StorageNode :=
  (ids.filter (fun id => ¬ skip id)).filterMap (findAlive nodes)

/-! ## `handle_node_failure` -/

/-- `ElectionCandidate`. -/
structure Candidate where
  primary : StorageNode
  followers : List StorageNode
  lsn : Nat

/-- `ReplicaRebuildPlan`. -/
structure RebuildPlan where
  tablet : TabletName
  primary : StorageNode
  followers : List StorageNode

/-- `FailurePlan`. -/
structure FailurePlan where
  tablet : TabletName
  candidates : List Candidate
  maxKnown : Nat

/-- A group that has lost a secondary. -/
def rebuildPlan (nodes : List StorageNode) (dead : NodeId) (tg : TabletGroup) : Option RebuildPlan :=
  match tg.nodeIds with
  | [] => none
  | head :: rest =>
      if dead ∉ head :: rest ∨ head = dead then none
      else
        (findAlive nodes head).map (fun p =>
          { tablet := tg.name, primary := p, followers := aliveIn nodes rest (fun id => id = dead) })

/-- The candidates of a group, before fresh probes. -/
def candidatesOf (nodes : List StorageNode) (dead : NodeId) (tg : TabletGroup) : List Candidate :=
  (aliveIn nodes tg.nodeIds (fun id => id = dead)).map (fun n =>
    { primary := n
      followers := aliveIn nodes tg.nodeIds (fun id => id = dead ∨ id = n.id)
      lsn := n.tabletLsn tg.name })

/-- A group that has lost its primary. -/
def failurePlan (sort : List Candidate → List Candidate) (nodes : List StorageNode) (dead : NodeId)
    (tg : TabletGroup) : Option FailurePlan :=
  match tg.nodeIds with
  | [] => none
  | head :: rest =>
      if dead ∉ head :: rest ∨ (head ≠ dead ∧ (findAlive nodes head).isSome) then none
      else
        match sort (candidatesOf nodes dead tg) with
        | [] => none
        | cs => some { tablet := tg.name, candidates := cs, maxKnown := tabletMaxKnownLsn nodes tg }

/-- A secondary is gone: rebuild the replica list of the primary. -/
def rebuild (plan : RebuildPlan) : CoordProg Unit := do
  match ← refreshAndCache plan.primary with
  | none => return ()
  | some p =>
      let fs ← refreshFollowers plan.followers
      rebuildPrimaryReplicas p.id plan.tablet fs
      write (.markAlive p.id)

/-- Fresh probes of every candidate and its followers. -/
def refreshCandidates (tablet : TabletName) : List Candidate → Nat → CoordProg (List Candidate × Nat)
  | [], maxKnown => return ([], maxKnown)
  | c :: cs, maxKnown => do
      match ← refreshAndCache c.primary with
      | none => refreshCandidates tablet cs maxKnown
      | some p =>
          let fs ← refreshFollowers c.followers
          let (cs, maxKnown) ←
            refreshCandidates tablet cs (maxLsn tablet (max maxKnown (p.tabletLsn tablet)) fs)
          return ({ primary := p, followers := fs, lsn := p.tabletLsn tablet } :: cs, maxKnown)

/-- The first candidate that is not stale and can be promoted. -/
def pickWinner (tablet : TabletName) (maxKnown : Nat) : List Candidate → CoordProg (Option Candidate)
  | [] => return none
  | c :: cs => do
      if c.lsn < maxKnown then pickWinner tablet maxKnown cs
      else if ← promoteNode c.primary.id tablet then return some c
      else pickWinner tablet maxKnown cs

/-- An election. -/
def elect (sort : List Candidate → List Candidate) (plan : FailurePlan) : CoordProg Unit := do
  let (cs, maxKnown) ← refreshCandidates plan.tablet plan.candidates plan.maxKnown
  match ← pickWinner plan.tablet maxKnown (sort cs) with
  | none => return ()
  | some w =>
      attachFollowers w.primary.id plan.tablet w.followers
      write (.storeWinner plan.tablet w.primary.id)

/-- `handle_node_failure`. -/
def handleNodeFailure (sort : List Candidate → List Candidate) (dead : NodeId) : CoordProg Unit := do
  let c ← perform (S := sig) .readBoth
  match find c.nodes dead with
  | none => return ()
  | some _ =>
      each rebuild (c.tablets.filterMap (rebuildPlan c.nodes dead))
      each (elect sort) (c.tablets.filterMap (failurePlan sort c.nodes dead))

/-! ## `handle_node_recovery` -/

/-- `RecoveryPlan`, less what is worked out again after the probes. -/
structure RecoveryPlan where
  tablet : TabletName
  live : StorageNode
  primary : Option StorageNode
  followers : List StorageNode
  oldPrimary : NodeId
  maxKnown : Nat

/-- The plan for a group. -/
def recoveryPlan (nodes : List StorageNode) (live : StorageNode) (tg : TabletGroup) : Option RecoveryPlan :=
  match tg.nodeIds with
  | [] => none
  | head :: rest =>
      if live.id ∉ head :: rest then none
      else
        some
          { tablet := tg.name
            live := live
            primary := findAlive nodes head
            followers := aliveIn nodes (head :: rest) (fun id => id = live.id)
            oldPrimary := head
            maxKnown := maxLsn tg.name (live.tabletLsn tg.name) ((head :: rest).filterMap (findAlive nodes)) }

/-- The primary after the probes: a refreshed follower of that name, or a probe of its
own; without a primary in the plan, a follower with the old primary's name. -/
def refreshPrimary (plan : RecoveryPlan) (followers : List StorageNode) :
    CoordProg (Option StorageNode) := do
  match plan.primary with
  | some p =>
      match followers.find? (fun f => decide (f.id = p.id)) with
      | some f => return some f
      | none => refreshAndCache p
  | none =>
      if plan.oldPrimary ≠ plan.live.id then
        return followers.find? (fun f => decide (f.id = plan.oldPrimary))
      else return none

/-- The recovered node becomes primary. -/
def promoteRecovered (tablet : TabletName) (live : StorageNode) (followers : List StorageNode) :
    CoordProg Unit := do
  if ← promoteNode live.id tablet then
    attachFollowers live.id tablet followers
    write (.storeRecovered tablet live.id)

/-- It becomes a secondary. -/
def rejoin (tablet : TabletName) (live primary : StorageNode) : CoordProg Unit := do
  if ← demoteAndSyncNode live.id primary.id tablet then
    if ← addReplicaToPrimary primary.id live.id tablet then
      write (.markAlive live.id)

/-- One plan. -/
def recover (plan : RecoveryPlan) : CoordProg Unit := do
  match ← refreshAndCache plan.live with
  | none => return ()
  | some live =>
      let followers ← refreshFollowers plan.followers
      let primary ← refreshPrimary plan followers
      let liveLsn := live.tabletLsn plan.tablet
      let primaryLsn := (primary.map (·.tabletLsn plan.tablet)).getD 0
      let maxKnown := maxLsn plan.tablet (max (max plan.maxKnown liveLsn) primaryLsn) followers
      if liveLsn < maxKnown ∧ (primary.isNone ∨ primaryLsn < maxKnown) then return ()
      match primary with
      | some p =>
          if plan.oldPrimary ≠ live.id ∧ primaryLsn ≥ liveLsn then rejoin plan.tablet live p
          else promoteRecovered plan.tablet live followers
      | none => promoteRecovered plan.tablet live followers

/-- `handle_node_recovery`. -/
def handleNodeRecovery (live : NodeId) : CoordProg Unit := do
  write (.recovering live)
  let c ← perform (S := sig) .readBoth
  match find c.nodes live with
  | none => return ()
  | some node => each recover (c.tablets.filterMap (recoveryPlan c.nodes node))

/-! ## `configure_initial_tablet_roles` -/

/-- A node of the copy, with a fresh answer if it is believed alive and gives one. -/
def refreshIfAlive (node : StorageNode) : CoordProg StorageNode := do
  if node.alive then return (← refreshAndCache node).getD node
  return node

/-- A copy of `nodes_` with fresh answers. -/
def refreshAlive : List StorageNode → CoordProg (List StorageNode)
  | [] => return []
  | node :: rest => do
      let node ← refreshIfAlive node
      return node :: (← refreshAlive rest)

/-- The check of the replication ports: whether all nodes are there and all ports are
ready, and whether no port was found not ready. -/
def checkPorts (snap : List StorageNode) : List NodeId → CoordProg (Bool × Bool)
  | [] => return (true, true)
  | id :: ids => do
      match findAlive snap id with
      | none =>
          let (_, ready) ← checkPorts snap ids
          return (false, ready)
      | some node =>
          let portReady ← replPortReady node.id
          let (allOk, ready) ← checkPorts snap ids
          return (allOk && portReady, ready && portReady)

/-- The first live replica with the largest LSN: index and LSN. -/
def bestOf (snap : List StorageNode) (tablet : TabletName) :
    Nat → List NodeId → Option (Nat × Nat) → Option (Nat × Nat)
  | _, [], best => best
  | i, id :: ids, best =>
      match findAlive snap id with
      | none => bestOf snap tablet (i + 1) ids best
      | some node =>
          let lsn := node.tabletLsn tablet
          bestOf snap tablet (i + 1) ids
            (match best with
              | none => some (i, lsn)
              | some (j, bestLsn) => if lsn > bestLsn then some (i, lsn) else some (j, bestLsn))

/-- The order planned for a group. -/
def planTablet (snap : List StorageNode) (tg : TabletGroup) : TabletGroup :=
  match bestOf snap tg.name 0 tg.nodeIds none with
  | none => tg
  | some (best, _) => { tg with nodeIds := swapFront best tg.nodeIds }

/-- Whether every replica of a group is believed alive. -/
def allAlive (snap : List StorageNode) (tg : TabletGroup) : Bool :=
  tg.nodeIds.all (fun id => (findAlive snap id).isSome)

/-- Promote the first node of every group. -/
def promoteAll (snap : List StorageNode) : List TabletGroup → CoordProg Bool
  | [] => return true
  | tg :: tgs => do
      match tg.nodeIds with
      | [] => promoteAll snap tgs
      | head :: _ =>
          match findAlive snap head with
          | none =>
              let _ ← promoteAll snap tgs
              return false
          | some p =>
              let ok ← promoteNode p.id tg.name
              return (← promoteAll snap tgs) && ok

/-- Up to so many attempts to connect. -/
def awaitPort (id : NodeId) : Nat → CoordProg Unit
  | 0 => return ()
  | n + 1 => do
      if ← replPortReady id then return ()
      else awaitPort id n

/-- Wait for the ports of the primaries. -/
def awaitPorts (snap : List StorageNode) (tg : TabletGroup) : CoordProg Unit := do
  match tg.nodeIds.head?.bind (findAlive snap) with
  | none => return ()
  | some p => awaitPort p.id 20

/-- Sync the secondaries of a group and register them under the primary. -/
def syncFollowers (snap : List StorageNode) (primary : NodeId) (tablet : TabletName) :
    List NodeId → CoordProg Bool
  | [] => return true
  | id :: ids => do
      match findAlive snap id with
      | none =>
          let _ ← syncFollowers snap primary tablet ids
          return false
      | some f =>
          if ← demoteAndSyncNode f.id primary tablet then
            let ok ← addReplicaToPrimary primary f.id tablet
            return (← syncFollowers snap primary tablet ids) && ok
          else
            let _ ← syncFollowers snap primary tablet ids
            return false

/-- The same for every group. -/
def syncAll (snap : List StorageNode) : List TabletGroup → CoordProg Bool
  | [] => return true
  | tg :: tgs => do
      match tg.nodeIds with
      | [] => syncAll snap tgs
      | head :: rest =>
          match findAlive snap head with
          | none =>
              let _ ← syncAll snap tgs
              return false
          | some p =>
              let ok ← syncFollowers snap p.id tg.name rest
              return (← syncAll snap tgs) && ok

/-- One round: whether it was complete. -/
def configureRound (tgs : List TabletGroup) : CoordProg Bool := do
  let snap ← refreshAlive (← perform (S := sig) .readNodes)
  let (portsOk, ready) ← checkPorts snap (tgs.flatMap TabletGroup.nodeIds).eraseDups
  if !ready then return false
  let planned := tgs.map (planTablet snap)
  let promoted ← promoteAll snap planned
  let allOk := portsOk && tgs.all (allAlive snap) && promoted
  if allOk then each (awaitPorts snap) planned
  let synced ← syncAll snap planned
  if allOk && synced then
    write (.storeTablets planned)
    return true
  return false

/-- The rounds that are left. -/
def configureRounds (tgs : List TabletGroup) : Nat → CoordProg Unit
  | 0 => return ()
  | n + 1 => do
      if ← configureRound tgs then return ()
      else configureRounds tgs n

/-- `configure_initial_tablet_roles`. -/
def configureInitialTabletRoles : CoordProg Unit := do
  configureRounds (← perform (S := sig) .readTablets) 8

/-! ## The heartbeat -/

/-- The pings of one tick: who has just failed and who has just come back. -/
def pingAll (thresh : Nat) : List StorageNode → CoordProg (List NodeId × List NodeId)
  | [] => return ([], [])
  | copy :: rest => do
      let (node, failed, restarted) ← pingNode thresh copy
      let live := decide ((copy.wasDown ∧ node.alive ∧ ¬ node.wasDown) ∨ restarted)
      write (.writeBack copy node live)
      let (dead, back) ← pingAll thresh rest
      return (if failed then copy.id :: dead else dead, if live then copy.id :: back else back)

/-- One tick of `heartbeat_loop`. -/
def heartbeat (thresh : Nat) (sort : List Candidate → List Candidate) : CoordProg Unit := do
  write .wake
  let (dead, back) ← pingAll thresh (← perform (S := sig) .readNodes)
  each (handleNodeFailure sort) dead
  each handleNodeRecovery back
  write .sleep

/-! ## Lookups -/

/-- The answer to a lookup. -/
inductive LookupReply where
  | ok (host : String) (port : Int)
  | error (text : String)
  deriving DecidableEq

/-- The line that is sent. -/
def LookupReply.text : LookupReply → String
  | ok host port => "+OK " ++ host ++ " " ++ toString port ++ " primary\r\n"
  | error text => "-ERR " ++ text ++ "\r\n"

/-- The second chance of a primary that seems stale. -/
def retryStale (tg : TabletGroup) (primary : StorageNode) (maxKnown : Nat) : CoordProg LookupReply := do
  if primary.tabletLsn tg.name < maxKnown then
    match ← refreshAndCache primary with
    | some primary =>
        let nodes ← perform (S := sig) .readNodes
        if primary.tabletLsn tg.name < tabletMaxKnownLsn nodes tg then
          return .error "primary stale; waiting for freshest replica"
        return .ok primary.host primary.port
    | none => return .error "primary stale; waiting for freshest replica"
  else return .ok primary.host primary.port

/-- The body that `handle_lookup` and `handle_read_lookup` have in common. -/
def lookupPrimary (row : Bytes) : CoordProg LookupReply := do
  let tablets ← perform (S := sig) .readTablets
  match tablets.find? (fun tg => tg.covers row) with
  | none => return .error "no tablet for row"
  | some tg =>
      let nodes ← perform (S := sig) .readNodes
      match tg.nodeIds.head?.bind (findAlive nodes) with
      | none => return .error "primary unavailable"
      | some primary =>
          match ← refreshAndCache primary with
          | none => return .error "primary unavailable"
          | some primary =>
              let nodes ← perform (S := sig) .readNodes
              retryStale tg primary (tabletMaxKnownLsn nodes tg)

/-- `handle_lookup`. -/
def handleLookup (row : Bytes) : CoordProg LookupReply := lookupPrimary row

/-- `handle_read_lookup`. -/
def handleReadLookup (row : Bytes) : CoordProg LookupReply := lookupPrimary row

end NCloud.Coordinator
