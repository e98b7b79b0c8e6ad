import NCloud.Coordinator.Promotion

/-!
# The heartbeat

What `heartbeat_loop` calls, and when. A tick copies `nodes_`, pings the copies one after
the other and writes each back before it goes on. The flags of an entry that only ticks
change are a function of what its pings came to (`Flags`), so the calls of a tick can be
told from the pings alone.
-/

namespace NCloud.Coordinator

open Process Wire

/-! ## One ping -/

/-- What comes of a request. -/
abbrev Heard := Outcome sig.Reply

/-- What a good reply says; anything else is a miss. -/
def pong : Heard → Option PingInfo
  | .reply (Reply.pong info) => some info
  | _ => none

/-- What `ping_node` returns, with the entry it leaves. -/
structure Pinged where
  node : StorageNode
  failed : Bool
  restarted : Bool

/-- `ping_node` once the outcome is known. -/
def pinged (thresh : Nat) (copy : StorageNode) (heard : Heard) : Pinged :=
  match pong heard with
  | some info => ⟨(gotPing copy info).1, false, (gotPing copy info).2⟩
  | none => ⟨(missPing thresh copy).1, (missPing thresh copy).2, false⟩

/-- `just_recovered`. -/
def Pinged.recovered (copy : StorageNode) (t : Pinged) : Bool :=
  decide (copy.wasDown ∧ t.node.alive ∧ ¬ t.node.wasDown)

theorem pinged_of_miss {heard : Heard} (h : pong heard = none) (thresh : Nat) (copy : StorageNode) :
    pinged thresh copy heard = ⟨(missPing thresh copy).1, (missPing thresh copy).2, false⟩ := by
  rw [pinged, h]

theorem pinged_of_pong {heard : Heard} {info : PingInfo} (h : pong heard = some info) (thresh : Nat)
    (copy : StorageNode) : pinged thresh copy heard = ⟨(gotPing copy info).1, false, (gotPing copy info).2⟩ := by
  rw [pinged, h]

theorem pingNode_eq (thresh : Nat) (copy : StorageNode) :
    pingNode thresh copy = request (S := sig) (.ping copy.id) >>= fun heard =>
      pure ((pinged thresh copy heard).node, (pinged thresh copy heard).failed, (pinged thresh copy heard).restarted) := by
  rw [pingNode]
  refine congrArg (request (S := sig) (.ping copy.id) >>= ·) (funext fun (heard : Heard) => ?_)
  cases heard with
  | refused => rfl
  | sendFailed => rfl
  | noReply => rfl
  | reply r => cases r <;> rfl

/-- The entry that is written back is the one the ping has left. -/
theorem writeBack_pinged (thresh : Nat) (copy : StorageNode) (heard : Heard) :
    (pinged thresh copy heard).node.id = copy.id ∧
      copy.writeBack (pinged thresh copy heard).node = (pinged thresh copy heard).node := by
  cases hpong : pong heard with
  | none =>
      rw [pinged_of_miss hpong, missPing]
      split
      · exact ⟨rfl, rfl⟩
      · exact ⟨rfl, rfl⟩
  | some info =>
      rw [pinged_of_pong hpong, gotPing]
      split
      · exact ⟨rfl, rfl⟩
      · exact ⟨rfl, rfl⟩

/-! ## The flags of an entry -/

/-- How many of the last pings were missed; the last ping comes first. -/
def misses (past : List (Heard)) : Nat := (past.takeWhile (fun heard => (pong heard).isNone)).length

/-- The last positive PID that was heard. -/
def cachedPid (pid₀ : Nat) : List (Heard) → Nat
  | [] => pid₀
  | heard :: past =>
      match pong heard with
      | some info => if info.pid > 0 then info.pid else cachedPid pid₀ past
      | none => cachedPid pid₀ past

theorem misses_cons_of_miss {heard : Heard} (h : pong heard = none) (past : List (Heard)) :
    misses (heard :: past) = misses past + 1 := by
  rw [misses, List.takeWhile_cons_of_pos (by rw [h]; rfl)]
  rfl

theorem misses_cons_of_pong {heard : Heard} {info : PingInfo} (h : pong heard = some info)
    (past : List (Heard)) : misses (heard :: past) = 0 := by
  rw [misses, List.takeWhile_cons_of_neg (by rw [h]; exact Bool.false_ne_true)]
  rfl

/-- What the flags say after these pings. -/
structure Flags (thresh pid₀ : Nat) (past : List (Heard)) (node : StorageNode) : Prop where
  missed : node.missed = misses past
  alive : node.alive = true ↔ misses past < thresh
  wasDown : node.wasDown = true ↔ thresh ≤ misses past
  pid : node.processId = cachedPid pid₀ past

section Step

variable {thresh pid₀ : Nat} {past : List (Heard)} {node : StorageNode} {heard : Heard}
  {info : PingInfo}

/-- A missed ping. -/
theorem Flags.miss (h : Flags thresh pid₀ past node) (hmiss : pong heard = none) :
    Flags thresh pid₀ (heard :: past) (pinged thresh node heard).node := by
  have hmissed := h.missed
  have halive := h.alive
  have hdown := h.wasDown
  have hcount := misses_cons_of_miss hmiss past
  have hpid : cachedPid pid₀ (heard :: past) = cachedPid pid₀ past := by rw [cachedPid, hmiss]
  rw [pinged_of_miss hmiss, missPing]
  by_cases hfail : node.alive = true ∧ node.missed + 1 ≥ thresh
  · rw [if_pos hfail]
    refine ⟨?_, ?_, ?_, ?_⟩
    · show node.missed + 1 = _
      omega
    · show false = true ↔ _
      simp only [Bool.false_eq_true, false_iff]
      omega
    · show true = true ↔ _
      simp only [true_iff]
      omega
    · exact h.pid.trans hpid.symm
  · rw [if_neg hfail]
    have hstays : node.alive = true → node.missed + 1 < thresh := by
      intro hlive
      have hnot : ¬ node.missed + 1 ≥ thresh := fun hge => hfail ⟨hlive, hge⟩
      omega
    refine ⟨?_, ?_, ?_, ?_⟩
    · show node.missed + 1 = _
      omega
    · show node.alive = true ↔ _
      constructor
      · intro hlive
        have hlt := hstays hlive
        omega
      · intro hlt
        exact halive.mpr (by omega)
    · show node.wasDown = true ↔ _
      rw [hdown]
      constructor
      · omega
      · intro hle
        -- were it alive, this miss would have been the last one allowed
        by_contra hlt
        have hless := hstays (halive.mpr (by omega))
        omega
    · exact h.pid.trans hpid.symm

/-- A good reply. -/
theorem Flags.pong (hthresh : 1 ≤ thresh) (h : Flags thresh pid₀ past node) (hpong : pong heard = some info) :
    Flags thresh pid₀ (heard :: past) (pinged thresh node heard).node := by
  have halive := h.alive
  have hdown := h.wasDown
  have hcount := misses_cons_of_pong hpong past
  have hpid : cachedPid pid₀ (heard :: past) = if info.pid > 0 then info.pid else cachedPid pid₀ past := by
    rw [cachedPid, hpong]
  have hnew : (if info.pid > 0 then info.pid else node.processId) = cachedPid pid₀ (heard :: past) := by
    rw [hpid, h.pid]
  rw [pinged_of_pong hpong, gotPing]
  by_cases hback : ¬ node.alive = true ∧ node.wasDown = true
  · rw [if_pos hback]
    refine ⟨hcount.symm, ?_, ?_, hnew⟩
    · show true = true ↔ _
      simp only [true_iff]
      omega
    · show false = true ↔ _
      simp only [Bool.false_eq_true, false_iff]
      omega
  · rw [if_neg hback]
    have hup : ¬ node.wasDown = true := by
      intro hwas
      refine hback ⟨fun hlive => ?_, hwas⟩
      have hlt := halive.mp hlive
      have hle := hdown.mp hwas
      omega
    refine ⟨hcount.symm, ?_, ?_, hnew⟩
    · show true = true ↔ _
      simp only [true_iff]
      omega
    · show node.wasDown = true ↔ _
      refine ⟨fun hwas => absurd hwas hup, fun hle => ?_⟩
      omega

/-- **The flags follow the pings.** -/
theorem Flags.pinged (hthresh : 1 ≤ thresh) (h : Flags thresh pid₀ past node) (heard : Heard) :
    Flags thresh pid₀ (heard :: past) (pinged thresh node heard).node := by
  cases hpong : Coordinator.pong heard with
  | none => exact h.miss hpong
  | some info => exact h.pong hthresh hpong

/-- When a node is found to have failed. -/
theorem Flags.failed_iff (h : Flags thresh pid₀ past node) (heard : Heard) :
    (Coordinator.pinged thresh node heard).failed = true ↔
      Coordinator.pong heard = none ∧ misses past + 1 = thresh := by
  have hmissed := h.missed
  have halive := h.alive
  cases hpong : Coordinator.pong heard with
  | none =>
      rw [pinged_of_miss hpong, missPing]
      by_cases hfail : node.alive = true ∧ node.missed + 1 ≥ thresh
      · rw [if_pos hfail]
        have hlt := halive.mp hfail.1
        exact ⟨fun _ => ⟨rfl, by omega⟩, fun _ => rfl⟩
      · rw [if_neg hfail]
        constructor
        · exact fun hfalse => absurd hfalse Bool.false_ne_true
        · rintro ⟨-, heq⟩
          exact absurd ⟨halive.mpr (by omega), by omega⟩ hfail
  | some info =>
      rw [pinged_of_pong hpong]
      simp

/-- When it is found to have come back. -/
theorem Flags.recovered_iff (hthresh : 1 ≤ thresh) (h : Flags thresh pid₀ past node) (heard : Heard) :
    (Coordinator.pinged thresh node heard).recovered node = true ↔
      Coordinator.pong heard ≠ none ∧ thresh ≤ misses past := by
  have hafter := h.pinged hthresh heard
  rw [Pinged.recovered, decide_eq_true_eq, h.wasDown, hafter.alive, hafter.wasDown]
  cases hpong : Coordinator.pong heard with
  | none =>
      rw [misses_cons_of_miss hpong]
      simp only [ne_eq, not_true_eq_false, false_and, iff_false]
      omega
  | some info =>
      rw [misses_cons_of_pong hpong]
      simp only [ne_eq, reduceCtorEq, not_false_eq_true, true_and]
      omega

/-- When its process is found to be another one. -/
theorem Flags.restarted_iff (h : Flags thresh pid₀ past node) (heard : Heard) :
    (Coordinator.pinged thresh node heard).restarted = true ↔
      ∃ info, Coordinator.pong heard = some info ∧ misses past < thresh ∧
        0 < cachedPid pid₀ past ∧ 0 < info.pid ∧ info.pid ≠ cachedPid pid₀ past := by
  have halive := h.alive
  have hdown := h.wasDown
  cases hpong : Coordinator.pong heard with
  | none =>
      rw [pinged_of_miss hpong]
      simp
  | some info =>
      rw [pinged_of_pong hpong, gotPing]
      have hpid : (StorageNode.parsePingMetadata { node with missed := 0, alive := true } info).processId =
          if info.pid > 0 then info.pid else node.processId := rfl
      simp only [decide_eq_true_eq, hpid, Option.some.injEq, exists_eq_left']
      rw [h.pid]
      constructor
      · rintro ⟨hlive, -, hold, hnew, hne⟩
        by_cases hpos : info.pid > 0
        · rw [if_pos hpos] at hne
          exact ⟨halive.mp hlive, hold, hpos, Ne.symm hne⟩
        · rw [if_neg hpos] at hne
          exact absurd rfl hne
      · rintro ⟨hlt, hold, hpos, hne⟩
        rw [if_pos hpos]
        refine ⟨halive.mpr hlt, fun hwas => ?_, hold, hpos, Ne.symm hne⟩
        have hle := hdown.mp hwas
        omega

end Step

/-! ## One tick -/

/-- What a node's ping came to. -/
def heardFrom (id : NodeId) : Trace sig → Option Heard
  | [] => none
  | e :: tr =>
      match e.call with
      | .ping n => if n = id then some e.heard else heardFrom id tr
      | _ => heardFrom id tr

/-- The pings of a tick, and what goes on the two lists. -/
def pingRound (thresh : Nat) : CoordProg (List NodeId × List NodeId) := do
  pingAll thresh (← perform (S := sig) .readNodes)

theorem heartbeat_eq (thresh : Nat) (sort : List Candidate → List Candidate) :
    heartbeat thresh sort = (do
      write .wake
      let (dead, back) ← pingRound thresh
      each (handleNodeFailure sort) dead
      each handleNodeRecovery back
      write .sleep) := rfl

theorem heardFrom_cons_self (id : NodeId) (heard : Heard) (silent : Bool) (tr : Trace sig) :
    heardFrom id (⟨Call.ping id, heard, silent⟩ :: tr) = some heard := by
  show (if id = id then some heard else heardFrom id tr) = _
  rw [if_pos rfl]

theorem heardFrom_cons_of_ne {id other : NodeId} (h : other ≠ id) {heard : Heard} {silent : Bool}
    {tr : Trace sig} : heardFrom id (⟨Call.ping other, heard, silent⟩ :: tr) = heardFrom id tr := by
  show (if other = id then some heard else heardFrom id tr) = _
  rw [if_neg h]

theorem count_push_self (id : NodeId) (l : List NodeId) (p : Prop) [Decidable p] :
    (if p then id :: l else l).count id = l.count id + (decide p).toNat := by
  split
  · rename_i h
    rw [List.count_cons_self, decide_eq_true h]
    rfl
  · rename_i h
    rw [decide_eq_false h]
    rfl

theorem count_push_of_ne {id other : NodeId} (h : other ≠ id) {l : List NodeId} {p : Prop} [Decidable p] :
    (if p then other :: l else l).count id = l.count id := by
  split
  · rw [List.count_cons_of_ne h]
  · rfl

section Round

variable {thresh : Nat} {c c' : Tables} {tr : Trace sig} {copy : StorageNode} {copies : List StorageNode}
  {dead back : List NodeId}

/-- One turn of the loop. -/
theorem replay_pingAll_cons
    (h : replay exec (pingAll thresh (copy :: copies)) tr c = some ((dead, back), c')) :
    ∃ heard silent tr' dead' back', tr = ⟨.ping copy.id, heard, silent⟩ :: tr' ∧
      replay exec (pingAll thresh copies) tr'
        (c.update copy.id (fun e => e.writeBack (pinged thresh copy heard).node)) = some ((dead', back'), c') ∧
      dead = (if (pinged thresh copy heard).failed then copy.id :: dead' else dead') ∧
      back = (if (pinged thresh copy heard).recovered copy ∨ (pinged thresh copy heard).restarted
        then copy.id :: back' else back') := by
  rw [pingAll, pingNode_eq, Prog.bind_assoc] at h
  obtain ⟨tr₁, tr₂, heard, c₁, rfl, h₁, h₂⟩ := replay_bind h
  obtain ⟨silent, rfl, rfl⟩ := replay_request h₁
  have hid := (writeBack_pinged thresh copy heard).1
  rw [Prog.pure_bind] at h₂
  obtain ⟨tr₃, tr₄, _, c₂, rfl, h₃, h₄⟩ := replay_bind h₂
  obtain ⟨rfl, -, rfl⟩ := replay_pure (show replay exec (pure ()) tr₃ _ = _ from h₃)
  obtain ⟨tr₅, tr₆, ⟨dead', back'⟩, c₃, rfl, h₅, h₆⟩ := replay_bind h₄
  obtain ⟨rfl, heq, rfl⟩ := replay_pure h₆
  obtain ⟨rfl, rfl⟩ := Prod.mk.inj heq
  refine ⟨heard, silent, tr₅, dead', back', by simp, ?_, rfl, ?_⟩
  · rw [← hid]
    exact h₅
  · simp only [Pinged.recovered, decide_eq_true_eq]

/-- **A round**: each entry is turned once, by its own ping. -/
theorem replay_pingAll (hids : (copies.map (·.id)).Nodup)
    (h : replay exec (pingAll thresh copies) tr c = some ((dead, back), c')) :
    c'.nodes.map (·.id) = c.nodes.map (·.id) ∧
    (∀ id, (∀ copy ∈ copies, copy.id ≠ id) → heardFrom id tr = none ∧
      dead.count id = 0 ∧ back.count id = 0 ∧ find c'.nodes id = find c.nodes id) ∧
    ∀ copy ∈ copies, find c.nodes copy.id = some copy → ∃ heard, heardFrom copy.id tr = some heard ∧
      find c'.nodes copy.id = some (pinged thresh copy heard).node ∧
      dead.count copy.id = (pinged thresh copy heard).failed.toNat ∧
      back.count copy.id = ((pinged thresh copy heard).recovered copy || (pinged thresh copy heard).restarted).toNat := by
  induction copies generalizing tr c dead back with
  | nil =>
      obtain ⟨rfl, heq, rfl⟩ := replay_pure (show replay exec (pure ([], [])) tr c = _ from h)
      obtain ⟨rfl, rfl⟩ := Prod.mk.inj heq
      exact ⟨rfl, fun id _ => ⟨rfl, rfl, rfl, rfl⟩, fun copy hc => absurd hc List.not_mem_nil⟩
  | cons first rest ih =>
      obtain ⟨heard, silent, tr', dead', back', rfl, hrest, rfl, rfl⟩ := replay_pingAll_cons h
      rw [List.map_cons, List.nodup_cons] at hids
      have hother : ∀ copy ∈ rest, copy.id ≠ first.id := by
        intro copy hc heq
        exact hids.1 (heq ▸ List.mem_map_of_mem hc)
      have hkeeps : ∀ e : StorageNode, (e.writeBack (pinged thresh first heard).node).id = e.id := fun _ => rfl
      obtain ⟨hsame, hout, hin⟩ := ih hids.2 hrest
      refine ⟨hsame.trans (ids_update c first.id hkeeps), ?_, ?_⟩
      · intro id hne
        have hfirst := hne first List.mem_cons_self
        obtain ⟨hheard, hdead, hback, hfind⟩ := hout id fun copy hc => hne copy (List.mem_cons_of_mem _ hc)
        rw [find_update c first.id id hkeeps, if_neg (Ne.symm hfirst)] at hfind
        rw [heardFrom_cons_of_ne hfirst, count_push_of_ne hfirst, count_push_of_ne hfirst]
        exact ⟨hheard, hdead, hback, hfind⟩
      · intro copy hc hcopy
        rcases List.mem_cons.mp hc with rfl | hc
        · obtain ⟨-, hdead, hback, hfind⟩ := hout copy.id hother
          rw [find_update c copy.id copy.id hkeeps, if_pos rfl, hcopy, Option.map_some,
            (writeBack_pinged thresh copy heard).2] at hfind
          refine ⟨heard, heardFrom_cons_self copy.id heard silent tr', hfind, ?_, ?_⟩
          · rw [count_push_self, hdead, Nat.zero_add]
            simp only [Bool.decide_eq_true]
          · rw [count_push_self, hback, Nat.zero_add]
            simp only [Bool.decide_or, Bool.decide_eq_true]
        · have hne : first.id ≠ copy.id := Ne.symm (hother copy hc)
          have hstays : find (c.update first.id fun e => e.writeBack (pinged thresh first heard).node).nodes copy.id
              = some copy := by
            rw [find_update c first.id copy.id hkeeps, if_neg (Ne.symm hne), hcopy]
          obtain ⟨heard', hheard, hfind, hdead, hback⟩ := hin copy hc hstays
          refine ⟨heard', ?_, hfind, ?_, ?_⟩
          · rw [heardFrom_cons_of_ne hne, hheard]
          · rw [count_push_of_ne hne, hdead]
          · rw [count_push_of_ne hne, hback]

end Round

/-! ## Every tick -/

/-- A tick: the tables it starts from, its pings, and the nodes that `handle_node_failure`
and `handle_node_recovery` are called for. -/
structure Tick where
  before : Tables
  trace : Trace sig
  dead : List NodeId
  back : List NodeId

/-- What `ping_node` goes by is the same in two entries; LSNs and addresses may differ. -/
structure SameFlags (node node' : StorageNode) : Prop where
  alive : node'.alive = node.alive
  wasDown : node'.wasDown = node.wasDown
  missed : node'.missed = node.missed
  pid : node'.processId = node.processId

/-- Ticks, the last one first. Between two of them others may write to the entry of the node
as long as its four flags stay: that is how the handlers of a tick come in. Only the probes
that they make of the node themselves reset the flags, and are left out. -/
inductive Ticks (thresh : Nat) (id : NodeId) (c₀ : Tables) : List Tick → Tables → Prop where
  | start : Ticks thresh id c₀ [] c₀
  | tick {log : List Tick} {c c' : Tables} {tr : Trace sig} {dead back : List NodeId} :
      Ticks thresh id c₀ log c → replay exec (pingRound thresh) tr c = some ((dead, back), c') →
      Ticks thresh id c₀ (⟨c, tr, dead, back⟩ :: log) c'
  | others {log : List Tick} {c c' : Tables} :
      Ticks thresh id c₀ log c → c'.nodes.map (·.id) = c.nodes.map (·.id) →
      (∀ node, find c.nodes id = some node → ∃ node', find c'.nodes id = some node' ∧ SameFlags node node') →
      Ticks thresh id c₀ log c'

/-- What the pings of a node came to, the last one first. -/
def pastOf (id : NodeId) (log : List Tick) : List Heard := log.filterMap (fun tick => heardFrom id tick.trace)

/-- The calls that change what is believed of a node. -/
inductive Verdict where
  | failure
  | downRecovery
  deriving DecidableEq

/-- Those of a tick. A recovery of a node that was believed alive is a restart. -/
def Tick.verdicts (id : NodeId) (tick : Tick) : List Verdict :=
  (if (findAlive tick.before.nodes id).isSome then [] else List.replicate (tick.back.count id) .downRecovery) ++
    List.replicate (tick.dead.count id) .failure

/-- Failures and recoveries take turns, and a failure comes first. -/
structure Alternating (verdicts : List Verdict) : Prop where
  turns : verdicts.IsChain (· ≠ ·)
  first : ∀ v ∈ verdicts.getLast?, v = .failure

/-- What a tick calls for a node, going by what its pings came to. -/
structure Lawful (thresh pid₀ : Nat) (id : NodeId) (past : List Heard) (heard : Heard) (tick : Tick) : Prop where
  /-- The `thresh`-th miss in a row. -/
  failure : tick.dead.count id = if pong heard = none ∧ misses past + 1 = thresh then 1 else 0
  /-- Nothing is called for a miss. -/
  quiet : pong heard = none → tick.back.count id = 0
  /-- The first good reply of a node that is down. -/
  comesBack : ∀ info, pong heard = some info → thresh ≤ misses past → tick.back.count id = 1
  /-- A good reply of a node believed alive. -/
  restart : ∀ info, pong heard = some info → misses past < thresh →
    tick.back.count id =
      if 0 < info.pid ∧ 0 < cachedPid pid₀ past ∧ info.pid ≠ cachedPid pid₀ past then 1 else 0

section Run

variable {thresh pid₀ : Nat} {id : NodeId} {c₀ c : Tables} {log : List Tick}

theorem count_toNat {P : Prop} [Decidable P] {b : Bool} (h : b = true ↔ P) : b.toNat = if P then 1 else 0 := by
  by_cases hp : P
  · rw [if_pos hp, h.mpr hp]
    rfl
  · rw [if_neg hp, Bool.eq_false_iff.mpr fun hb => hp (h.mp hb)]
    rfl

/-- What a tick does to a node with these flags. -/
theorem Flags.tick (hthresh : 1 ≤ thresh) {past : List Heard} {node : StorageNode}
    (hflags : Flags thresh pid₀ past node) (hids : (c.nodes.map (·.id)).Nodup) (hfind : find c.nodes id = some node)
    {c' : Tables} {tr : Trace sig} {dead back : List NodeId}
    (h : replay exec (pingRound thresh) tr c = some ((dead, back), c')) :
    ∃ heard, heardFrom id tr = some heard ∧ c'.nodes.map (·.id) = c.nodes.map (·.id) ∧
      (∃ node', find c'.nodes id = some node' ∧ Flags thresh pid₀ (heard :: past) node') ∧
      Lawful thresh pid₀ id past heard ⟨c, tr, dead, back⟩ := by
  have hround : replay exec (pingAll thresh c.nodes) tr c = some ((dead, back), c') := h
  obtain ⟨hsame, -, hin⟩ := replay_pingAll hids hround
  obtain rfl := id_of_find hfind
  obtain ⟨heard, hheard, hfind', hdead, hback⟩ := hin node (List.mem_of_find?_eq_some hfind) hfind
  refine ⟨heard, hheard, hsame, ⟨_, hfind', hflags.pinged hthresh heard⟩, ?_⟩
  have hrecovered := hflags.recovered_iff hthresh heard
  have hrestarted := hflags.restarted_iff heard
  refine ⟨hdead.trans (count_toNat (hflags.failed_iff heard)), ?_, ?_, ?_⟩
  · intro hmiss
    have hno : (Coordinator.pinged thresh node heard).recovered node = false :=
      Bool.eq_false_iff.mpr fun hb => (hrecovered.mp hb).1 hmiss
    rw [hback, hno, pinged_of_miss hmiss]
    rfl
  · intro info hpong hdown
    have hyes : (Coordinator.pinged thresh node heard).recovered node = true :=
      hrecovered.mpr ⟨by rw [hpong]; exact nofun, hdown⟩
    rw [hback, hyes, Bool.true_or]
    rfl
  · intro info hpong hup
    have hno : (Coordinator.pinged thresh node heard).recovered node = false := by
      refine Bool.eq_false_iff.mpr fun hb => ?_
      have hle := (hrecovered.mp hb).2
      omega
    rw [hback, hno, Bool.false_or]
    refine count_toNat (hrestarted.trans ?_)
    constructor
    · rintro ⟨info', hinfo', -, hold, hnew, hne⟩
      obtain rfl : info = info' := Option.some.inj (hpong.symm.trans hinfo')
      exact ⟨hnew, hold, hne⟩
    · rintro ⟨hnew, hold, hne⟩
      exact ⟨info, hpong, hup, hold, hnew, hne⟩

/-- What holds of a node between ticks. -/
structure Watched (thresh pid₀ : Nat) (id : NodeId) (log : List Tick) (c : Tables) : Prop where
  ids : (c.nodes.map (·.id)).Nodup
  entry : ∃ node, find c.nodes id = some node ∧ Flags thresh pid₀ (pastOf id log) node
  law : ∀ tick earlier, tick :: earlier <:+ log → ∃ heard, heardFrom id tick.trace = some heard ∧
    Lawful thresh pid₀ id (pastOf id earlier) heard tick
  verdicts : Alternating (log.flatMap (Tick.verdicts id))
  /-- The last verdict on a node that is down was its failure. -/
  latest : (log.flatMap (Tick.verdicts id)).head? = some .failure ↔ thresh ≤ misses (pastOf id log)

theorem Alternating.cons {v : Verdict} {l : List Verdict} (h : Alternating l) (hv : l.head? ≠ some v)
    (hfirst : l = [] → v = .failure) : Alternating (v :: l) where
  turns := by
    cases l with
    | nil => exact .singleton v
    | cons w l =>
        refine List.isChain_cons_cons.mpr ⟨fun heq => hv ?_, h.turns⟩
        rw [heq]
        rfl
  first := by
    cases l with
    | nil =>
        intro w hw
        obtain rfl := Option.some.inj hw
        exact hfirst rfl
    | cons w l =>
        rw [List.getLast?_cons_cons]
        exact h.first

theorem isSome_findAlive {nodes : List StorageNode} {node : StorageNode} (h : find nodes id = some node) :
    (findAlive nodes id).isSome = node.alive := by
  rw [findAlive, h, Option.filter_some]
  cases node.alive with
  | false => rfl
  | true => rfl

/-- **Every tick** keeps it. -/
theorem Watched.tick (hthresh : 1 ≤ thresh) (h : Watched thresh pid₀ id log c) {c' : Tables} {tr : Trace sig}
    {dead back : List NodeId} (hrun : replay exec (pingRound thresh) tr c = some ((dead, back), c')) :
    Watched thresh pid₀ id (⟨c, tr, dead, back⟩ :: log) c' := by
  obtain ⟨node, hfind, hflags⟩ := h.entry
  obtain ⟨heard, hheard, hsame, hentry, hlaw⟩ := hflags.tick hthresh h.ids hfind hrun
  have hpast : pastOf id (⟨c, tr, dead, back⟩ :: log) = heard :: pastOf id log := List.filterMap_cons_some hheard
  have halive : (findAlive c.nodes id).isSome = true ↔ misses (pastOf id log) < thresh := by
    rw [isSome_findAlive hfind]
    exact hflags.alive
  have hfailure := hlaw.failure
  have hlatest := h.latest
  -- the verdict of this tick, and who was the last to speak before and after it
  have hverdict : Alternating ((⟨c, tr, dead, back⟩ :: log).flatMap (Tick.verdicts id)) ∧
      (((⟨c, tr, dead, back⟩ :: log).flatMap (Tick.verdicts id)).head? = some .failure ↔
        thresh ≤ misses (heard :: pastOf id log)) := by
    rw [List.flatMap_cons, Tick.verdicts]
    by_cases hup : misses (pastOf id log) < thresh
    · rw [if_pos (halive.mpr hup), List.nil_append]
      by_cases hfails : pong heard = none ∧ misses (pastOf id log) + 1 = thresh
      · rw [hfailure, if_pos hfails, misses_cons_of_miss hfails.1]
        refine ⟨h.verdicts.cons (fun hhead => ?_) fun _ => rfl, ⟨fun _ => by omega, fun _ => rfl⟩⟩
        have hle := hlatest.mp hhead
        omega
      · rw [hfailure, if_neg hfails]
        refine ⟨h.verdicts, hlatest.trans ?_⟩
        cases hpong : pong heard with
        | none =>
            rw [misses_cons_of_miss hpong]
            have hne : misses (pastOf id log) + 1 ≠ thresh := fun heq => hfails ⟨hpong, heq⟩
            omega
        | some info =>
            rw [misses_cons_of_pong hpong]
            omega
    · have hdown : thresh ≤ misses (pastOf id log) := by omega
      have hnotfailed : ¬ (pong heard = none ∧ misses (pastOf id log) + 1 = thresh) := by omega
      rw [if_neg fun hlive => hup (halive.mp hlive), hfailure, if_neg hnotfailed]
      cases hpong : pong heard with
      | none =>
          rw [hlaw.quiet hpong, misses_cons_of_miss hpong]
          exact ⟨h.verdicts, hlatest.trans ⟨fun _ => by omega, fun _ => hdown⟩⟩
      | some info =>
          rw [hlaw.comesBack info hpong hdown, misses_cons_of_pong hpong]
          have hhead := hlatest.mpr hdown
          refine ⟨h.verdicts.cons ?_ ?_, ?_, fun hle => absurd hle (by omega)⟩
          · rw [hhead]
            exact nofun
          · rintro hnil
            rw [hnil] at hhead
            exact absurd hhead nofun
          · exact fun hfalse => absurd (Option.some.inj hfalse) nofun
  rw [← hpast] at hverdict
  refine ⟨by rw [hsame]; exact h.ids, by rw [hpast]; exact hentry, ?_, hverdict.1, hverdict.2⟩
  intro tick earlier hsuffix
  rcases List.suffix_cons_iff.mp hsuffix with heq | hsuffix
  · obtain ⟨rfl, rfl⟩ := List.cons.inj heq
    exact ⟨heard, hheard, hlaw⟩
  · exact h.law tick earlier hsuffix

theorem Flags.same {past : List Heard} {node node' : StorageNode} (h : Flags thresh pid₀ past node)
    (hsame : SameFlags node node') : Flags thresh pid₀ past node' where
  missed := hsame.missed.trans h.missed
  alive := by rw [hsame.alive]; exact h.alive
  wasDown := by rw [hsame.wasDown]; exact h.wasDown
  pid := hsame.pid.trans h.pid

theorem watched_of_ticks (hthresh : 1 ≤ thresh) (h₀ : Watched thresh pid₀ id [] c₀)
    (h : Ticks thresh id c₀ log c) : Watched thresh pid₀ id log c := by
  induction h with
  | start => exact h₀
  | tick _ hrun ih => exact ih.tick hthresh hrun
  | others _ hids hsame ih =>
      obtain ⟨node, hfind, hflags⟩ := ih.entry
      obtain ⟨node', hfind', hnode'⟩ := hsame node hfind
      exact ⟨by rw [hids]; exact ih.ids, ⟨node', hfind', hflags.same hnode'⟩, ih.law, ih.verdicts, ih.latest⟩

/-- **What the heartbeat calls.** In every run of ticks from an entry that is believed alive
and has missed nothing, `handle_node_failure` is called at the `thresh`-th miss in a row,
`handle_node_recovery` at the first good reply after that, and otherwise at a good reply
with another PID; failures and recoveries from them take turns. -/
theorem heartbeat_calls {node₀ : StorageNode} (hthresh : 1 ≤ thresh) (hids : (c₀.nodes.map (·.id)).Nodup)
    (hnode : find c₀.nodes id = some node₀) (halive : node₀.alive = true) (hdown : node₀.wasDown = false)
    (hmissed : node₀.missed = 0) (h : Ticks thresh id c₀ log c) :
    (∀ tick earlier, tick :: earlier <:+ log → ∃ heard, heardFrom id tick.trace = some heard ∧
      Lawful thresh node₀.processId id (pastOf id earlier) heard tick) ∧
    Alternating (log.flatMap (Tick.verdicts id)) ∧
    ∀ sort, heartbeat thresh sort = (do
      write .wake
      let (dead, back) ← pingRound thresh
      each (handleNodeFailure sort) dead
      each handleNodeRecovery back
      write .sleep) := by
  have hflags : Flags thresh node₀.processId [] node₀ := by
    refine ⟨hmissed, ⟨fun _ => hthresh, fun _ => halive⟩, ?_, rfl⟩
    rw [hdown]
    refine ⟨fun hfalse => absurd hfalse Bool.false_ne_true, fun hle => ?_⟩
    exact absurd (Nat.lt_of_lt_of_le hthresh hle) (Nat.lt_irrefl _)
  have h₀ : Watched thresh node₀.processId id [] c₀ := by
    refine ⟨hids, ⟨node₀, hnode, hflags⟩, fun tick earlier hnil => absurd (List.suffix_nil.mp hnil) nofun,
      ⟨.nil, nofun⟩, ?_⟩
    exact ⟨nofun, fun hle => absurd (Nat.lt_of_lt_of_le hthresh hle) (Nat.lt_irrefl _)⟩
  have hwatched := watched_of_ticks hthresh h₀ h
  exact ⟨hwatched.law, hwatched.verdicts, fun sort => heartbeat_eq thresh sort⟩

end Run

/-- A node that has just been started with. -/
def oneNode : Tables := ⟨[{ id := [110], host := "h", port := 1 }], []⟩

/-- It has missed a ping, and that is one too many. -/
def oneNodeDown : Tables :=
  ⟨[{ id := [110], host := "h", port := 1, alive := false, wasDown := true, missed := 1 }], []⟩

/-- It answers again. -/
def oneNodeBack : Tables := ⟨[{ id := [110], host := "h", port := 1, processId := 7 }], []⟩

/-- The two ticks. -/
def missAndReply : List Tick :=
  [⟨oneNodeDown, [⟨Call.ping [110], .reply (Reply.pong ⟨none, [], 7⟩), false⟩], [], [[110]]⟩,
    ⟨oneNode, [⟨Call.ping [110], .refused, false⟩], [[110]], []⟩]

theorem heartbeat_calls_missAndReply :
    missAndReply.flatMap (Tick.verdicts [110]) = [.downRecovery, .failure] ∧
      Alternating (missAndReply.flatMap (Tick.verdicts [110])) := by
  have hmiss : Ticks 1 [110] oneNode [⟨oneNode, [⟨Call.ping [110], .refused, false⟩], [[110]], []⟩] oneNodeDown :=
    .tick .start rfl
  have hreply : Ticks 1 [110] oneNode missAndReply oneNodeBack := .tick hmiss rfl
  exact ⟨rfl, (heartbeat_calls (Nat.le_refl 1) (by decide) rfl rfl rfl rfl hreply).2.1⟩

end NCloud.Coordinator
