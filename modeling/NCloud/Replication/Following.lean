import NCloud.Lib.Sequential
import NCloud.Replication.Cluster

/-!
# Following a primary

One client write runs by itself: each of its requests is handled or lost, and so is each
answer, at every depth. Whatever a replica is asked to do extends its log towards the
primary's: REPLICATE carries an operation of that log with its LSN, and a resync carries
a part of it or all of its rows. So a replica that has acknowledged an LSN has the
primary's log up to there, and one that has acknowledged the last LSN has all of it.

This module goes through what a replica does on the way, as preconditions of its
programs; `Rollback` goes through the write itself.
-/

namespace NCloud.Rollback

open Process Wire

/-- Acknowledgements: who sent it, and the LSN and the operation that came with the
REPLICATE it answers. -/
abbrev Acks := List (NodeId × Nat × Op)

/-- Write down an acknowledgement by node `m`. -/
def noteAck (m : NodeId) (acks : Acks) : NodeAct → Acks
  | .ack k op => (m, k, op) :: acks
  | _ => acks

variable (sort : List CoordProg.Candidate → List CoordProg.Candidate) (n : NodeId)

/-- The cluster when the disk of `n` always has room for the next record. -/
def durable : System clusterSig :=
  { cluster sort with
    exec := fun i (l : Place) io a w => World.exec i l (if l = .node n then io + 1 else io) a w }

/-- Nothing else is written down. -/
def observer : Observer (durable sort n) where
  Past := Acks
  note := fun _ l a _ _ _ acks =>
    match l, a with
    | .node m, .node a => noteAck m acks a
    | _, _ => acks
  sent := fun _ _ _ acks => acks
  lost := fun _ acks => acks
  restart := fun _ acks => acks

/-- The cluster with the acknowledgements so far. -/
abbrev watched : System clusterSig := (durable sort n).observe (observer sort n)

variable {n}

/-! ## The states in question -/

/-- The replicas' logs are prefixes of that of `n`, nobody is half way through a write,
and the maps hold what the logs say. -/
structure Ready (n : NodeId) (w : World) : Prop where
  behind : ∀ r ∈ (w.node n).replicas, w.log r <+: w.log n
  pending : (w.node n).tablet.pending = none
  cells : ∀ m, m ∈ (w.node n).replicas ∨ m = n →
    ∀ c, (w.node m).tablet.rows.cell c = valueAt (w.log m) c

/-- A row in which `n` holds nothing, at another node. -/
def Blank (n : NodeId) (w : World) (m : NodeId) (row : Field) : Prop :=
  m ≠ n ∧ ∀ col, valueAt (w.log n) (row, col) = none

/-- The filter of the tablet hides rows for which `hid` holds at most. -/
def Shows (hid : Field → Prop) (t : Replica) : Prop :=
  ∀ row ∈ t.rows, t.bloom.mayContain row.1 = true ∨ hid row

/-- The filter of `n` hides no row, no replica's filter hides a row in which `n` holds
something, the log file of `n` ends its log, the counts of rows and columns of `n` have
room for one more cell, and `n` is none of its own replicas. -/
structure Clear (n : NodeId) (w : World) : Prop where
  primary : (w.node n).tablet.Visible
  replicas : ∀ r ∈ (w.node n).replicas, Shows (Blank n w r) (w.node r).tablet
  wal : (w.node n).tablet.WalFits
  room : ∀ op, ((w.node n).tablet.rows.apply op).Fits
  others : n ∉ (w.node n).replicas

theorem Shows.apply {hid : Field → Prop} {t : Replica} (h : Shows hid t) (op : Op) : Shows hid (t.apply op) := by
  intro row hrow
  rcases Replica.mem_or_visible_apply t op hrow with hold | hnew
  · rcases h row hold with hseen | hhid
    · exact .inl (Replica.filterFor_mono t op hseen)
    · exact .inr hhid
  · exact .inl hnew

/-! ## Following a primary -/

/-- A tablet on its way along `log`; `main` tells the one whose log it is. -/
structure Tracks (main : Prop) (hid : Field → Prop) (log : Log) (t : Replica) : Prop where
  behind : t.log <+: log
  cells : ∀ c, t.rows.cell c = valueAt t.log c
  shows : Shows hid t
  wal : main → t.WalFits ∧ t.pending = none

/-- Entries in the order of their LSNs, which are all above `k`. -/
structure Ahead (k : Nat) (entries : List (Op × Nat)) : Prop where
  above : ∀ e ∈ entries, k < e.2
  ascending : entries.Pairwise (fun e e' => e.2 < e'.2)

/-- What an answer to SYNC_FROM says of the log to a node that has `k` operations of it. -/
def Tells (log : Log) (k : Nat) : Reply → Prop
  | .sync (.delta entries) => (∀ e ∈ entries, opAt log e.2 = some e.1) ∧ Ahead k entries
  | .sync (.snapshot image) =>
      image.log = log ∧ (∀ t c, (Replica.install t image).rows.cell c = valueAt log c) ∧ image.Fits
  | _ => True

theorem ahead_walDeltaAfter (t : Replica) (k : Nat) : Ahead k (t.walDeltaAfter k) := by
  have hpairs : ∀ (ops : List Op) (first : Nat), (ops.zipIdx first).Pairwise (fun e e' => e.2 < e'.2) := by
    intro ops
    induction ops with
    | nil => exact fun _ => List.Pairwise.nil
    | cons op ops ih =>
        intro first
        rw [List.zipIdx_cons]
        refine List.Pairwise.cons (fun e he => ?_) (ih (first + 1))
        have hle := (List.mem_zipIdx he).1
        exact Nat.lt_of_lt_of_le (Nat.lt_succ_self first) hle
  exact ⟨fun e he => of_decide_eq_true (List.mem_filter.mp he).2, (hpairs t.wal t.firstEntryLsn).filter _⟩

namespace Tracks

variable {main : Prop} {hid : Field → Prop} {log log' : Log} {t : Replica} {op : Op}

/-- The log goes on. -/
theorem extend (h : Tracks main hid log t) (hlog : log <+: log') : Tracks main hid log' t :=
  ⟨h.behind.trans hlog, h.cells, h.shows, h.wal⟩

/-- The next operation of the log. -/
theorem next (h : Tracks main hid log t) (hop : opAt log (t.lsn + 1) = some op) :
    Tracks main hid log ((t.record op).apply op) := by
  refine ⟨prefix_append_of_opAt h.behind hop, fun c => ?_, (?_ : Shows hid (t.record op)).apply op, fun hm => ?_⟩
  · show (t.rows.apply op).cell c = valueAt (t.log ++ [some op]) c
    rw [valueAt_append]
    by_cases hc : op.cell = c
    · rw [if_pos hc, ← hc, Rows.cell_apply_self]
    · rw [if_neg hc, Rows.cell_apply_of_ne (Ne.symm hc), h.cells c]
  · exact h.shows
  · exact ⟨(h.wal hm).1.record op, rfl⟩

/-- A snapshot of all of it. -/
theorem install (h : Tracks main hid log t) {image : Image} {k : Nat}
    (himage : Tells log k (.sync (.snapshot image))) (hmain : main → t.log = log) :
    Tracks main hid log (t.install image) := by
  obtain ⟨hlog, hcells, -⟩ := himage
  refine ⟨?_, fun c => ?_, fun row hrow => .inl (Replica.visible_install t image row hrow),
    fun hm => ⟨?_, (h.wal hm).2⟩⟩
  · show image.log <+: log
    rw [hlog]
  · show (t.install image).rows.cell c = valueAt image.log c
    rw [hcells, hlog]
  · have hfits := (h.wal hm).1
    unfold Replica.WalFits at hfits ⊢
    show t.wal.map some <:+ image.log
    rw [hlog, ← hmain hm]
    exact hfits

/-- A tablet that has come to the end reads what the log says, but for hidden rows. -/
theorem get_eq (h : Tracks main hid log t) (hend : t.log = log) (row col : Field)
    (hhid : hid row → valueAt log (row, col) = none) : t.get row col = valueAt log (row, col) := by
  have hcell : t.rows.cell (row, col) = valueAt log (row, col) := by
    rw [h.cells, hend]
  by_cases hseen : t.bloom.mayContain row.1 = true
  · rw [← hcell, Replica.get_eq_cell hseen]
  · rw [Replica.get_hidden (by simpa using hseen)]
    by_cases hrow : row ∈ t.rows
    · exact (hhid ((h.shows row hrow).resolve_left hseen)).symm
    · rw [← hcell, Rows.cell_of_notMem hrow]

end Tracks

/-- The log of `n` is `log`, and its replicas follow it. -/
structure Follows (n : NodeId) (w : World) (log : Log) (σ : World × Acks) : Prop where
  self : σ.1.log n = log
  tracks : ∀ m, m ∈ (w.node n).replicas ∨ m = n → Tracks (m = n) (Blank n w m) log (σ.1.node m).tablet
  replicas : (σ.1.node n).replicas ⊆ (w.node n).replicas
  /-- No pointer into the list has been freed. -/
  cleared : (σ.1.node n).cleared = (w.node n).cleared
  /-- What was acknowledged is logged. -/
  acks : ∀ r k op, (r, k, op) ∈ σ.2 → r ∈ (w.node n).replicas ∧ k ≤ (σ.1.log r).length
  /-- The map has been through what was logged since the start. -/
  since : ∃ ops : List Op, log = w.log n ++ ops.map some ∧
    (σ.1.node n).tablet.rows = ops.foldl Rows.apply (w.node n).tablet.rows
  fits : (σ.1.node n).tablet.rows.Fits

variable {w : World} {log : Log} {σ σ' : World × Acks} {i io : Nat}

/-- The start. -/
theorem Clear.follows (h : Clear n w) (hr : Ready n w) : Follows n w (w.log n) (w, []) := by
  have hfits : (w.node n).tablet.rows.Fits := by
    obtain ⟨x⟩ : Nonempty Field := ⟨⟨[], by decide⟩⟩
    exact (h.room (.put x x x)).mono (Rows.inside_put _ x x x)
  refine ⟨rfl, fun m hm => ⟨?_, hr.cells m hm, ?_, ?_⟩, List.Subset.refl _, rfl,
    fun _ _ _ ha => absurd ha List.not_mem_nil, ⟨[], (List.append_nil _).symm, rfl⟩, hfits⟩
  · rcases hm with hm | rfl
    · exact hr.behind m hm
    · exact List.prefix_refl _
  · by_cases hmn : m = n
    · subst hmn
      exact fun row hrow => .inl (h.primary row hrow)
    · exact h.replicas m (hm.resolve_right hmn)
  · rintro rfl
    exact ⟨h.wal, hr.pending⟩

/-- A replica that has acknowledged the last LSN has the whole log. -/
theorem Follows.log_eq (h : Follows n w log σ) {r : NodeId} {op : Op} (ha : (r, log.length, op) ∈ σ.2) :
    σ.1.log r = log := by
  obtain ⟨hr, hk⟩ := h.acks r _ op ha
  exact (h.tracks r (.inl hr)).behind.eq_of_length_le hk

/-- The LSN of the next operation. -/
theorem Follows.lsn (h : Follows n w log σ) : (σ.1.node n).tablet.lsn = log.length := by
  rw [← h.self]
  rfl

/-- The primary reads what the log says. -/
theorem Follows.get (h : Follows n w log σ) (row col : Field) :
    (σ.1.node n).tablet.get row col = valueAt log (row, col) :=
  (h.tracks n (.inr rfl)).get_eq h.self row col (fun hhid => absurd rfl hhid.1)

/-- A node moves on along the log. -/
theorem Follows.setNode (h : Follows n w log σ) {m : NodeId} {node : Node}
    (hgrow : σ.1.log m <+: node.tablet.log)
    (ht : m ∈ (w.node n).replicas ∨ m = n → Tracks (m = n) (Blank n w m) log node.tablet)
    (hrep : m = n → node.replicas ⊆ (w.node n).replicas ∧ node.cleared = (w.node n).cleared)
    (hrows : m = n → node.tablet.rows = (σ.1.node n).tablet.rows) :
    Follows n w log (σ.1.setNode m node, σ.2) := by
  have hlogs : ∀ q, σ.1.log q <+: (σ.1.setNode m node).log q :=
    World.forall_setNode (P := fun q new => σ.1.log q <+: new.tablet.log) hgrow (fun _ _ => List.prefix_refl _)
  have htracks : ∀ q, q ∈ (w.node n).replicas ∨ q = n →
      Tracks (q = n) (Blank n w q) log ((σ.1.setNode m node).node q).tablet :=
    World.forall_setNode
      (P := fun q new => q ∈ (w.node n).replicas ∨ q = n → Tracks (q = n) (Blank n w q) log new.tablet)
      ht (fun q _ => h.tracks q)
  have hlist : ((σ.1.setNode m node).node n).replicas ⊆ (w.node n).replicas ∧
      ((σ.1.setNode m node).node n).cleared = (w.node n).cleared :=
    World.forall_setNode
      (P := fun q new => q = n → new.replicas ⊆ (w.node n).replicas ∧ new.cleared = (w.node n).cleared)
      hrep (by rintro q - rfl; exact ⟨h.replicas, h.cleared⟩) n rfl
  have hmap : ((σ.1.setNode m node).node n).tablet.rows = (σ.1.node n).tablet.rows :=
    World.forall_setNode (P := fun q new => q = n → new.tablet.rows = (σ.1.node n).tablet.rows)
      hrows (by rintro q - rfl; rfl) n rfl
  refine ⟨?_, htracks, hlist.1, hlist.2, fun r k op ha => ?_, ?_, ?_⟩
  rotate_left 2
  · show ∃ ops : List Op, log = _ ∧ ((σ.1.setNode m node).node n).tablet.rows = _
    rw [hmap]
    exact h.since
  · show ((σ.1.setNode m node).node n).tablet.rows.Fits
    rw [hmap]
    exact h.fits
  · -- the log of the primary is not overtaken
    have hle := (hlogs n).length_le
    rw [h.self] at hle
    exact (htracks n (.inr rfl)).behind.eq_of_length_le hle
  · obtain ⟨hr, hk⟩ := h.acks r k op ha
    exact ⟨hr, Nat.le_trans hk (hlogs r).length_le⟩

/-- The primary logs one more operation. -/
theorem Follows.append (h : Follows n w log σ) (op : Op)
    (hroom : ((σ.1.node n).tablet.rows.apply op).Fits) :
    Follows n w (log ++ [some op]) (σ.1.setNode n ((σ.1.node n).withTablet
      (((σ.1.node n).tablet.record op).apply op)), σ.2) := by
  have hpre : log <+: log ++ [some op] := List.prefix_append _ _
  have hop : opAt (log ++ [some op]) ((σ.1.node n).tablet.lsn + 1) = some op := by
    rw [h.lsn]
    exact opAt_append_last log op
  have hnode := ((h.tracks n (.inr rfl)).extend hpre).next hop
  have hself : (σ.1.setNode n ((σ.1.node n).withTablet
      (((σ.1.node n).tablet.record op).apply op))).log n = log ++ [some op] := by
    rw [World.log_setNode_self]
    show σ.1.log n ++ [some op] = log ++ [some op]
    rw [h.self]
  refine ⟨hself, ?_, ?_, ?_, fun r k op' ha => ?_, ?_, ?_⟩
  · exact World.forall_setNode
      (P := fun m new => m ∈ (w.node n).replicas ∨ m = n → Tracks (m = n) (Blank n w m) (log ++ [some op]) new.tablet)
      (fun _ => hnode) (fun m _ hm => (h.tracks m hm).extend hpre)
  · show ((σ.1.setNode n _).node n).replicas ⊆ (w.node n).replicas
    rw [World.setNode_self]
    exact h.replicas
  · show ((σ.1.setNode n _).node n).cleared = (w.node n).cleared
    rw [World.setNode_self]
    exact h.cleared
  · obtain ⟨hr, hk⟩ := h.acks r k op' ha
    refine ⟨hr, ?_⟩
    show k ≤ ((σ.1.setNode n _).log r).length
    by_cases hm : r = n
    · subst hm
      rw [hself, List.length_append]
      rw [h.self] at hk
      omega
    · rw [World.log_setNode_of_ne hm]
      exact hk
  · obtain ⟨ops, hlog, hrows⟩ := h.since
    refine ⟨ops ++ [op], ?_, ?_⟩
    · rw [hlog, List.map_append, List.append_assoc]
      rfl
    · show ((σ.1.setNode n _).node n).tablet.rows = _
      rw [World.setNode_self, List.foldl_append, ← hrows]
      rfl
  · show ((σ.1.setNode n _).node n).tablet.rows.Fits
    rw [World.setNode_self]
    exact hroom

/-- The map after what has been logged since the start. -/
theorem Follows.rows (ops : List Op) (h : Follows n w (w.log n ++ ops.map some) σ) :
    (σ.1.node n).tablet.rows = ops.foldl Rows.apply (w.node n).tablet.rows := by
  obtain ⟨ops', hlog, hrows⟩ := h.since
  have hsame : ops = ops' := List.map_injective_iff.mpr (Option.some_injective Op) (List.append_cancel_left hlog)
  rw [hrows, hsame]

/-- A replica sends an acknowledgement for what it has. -/
theorem Follows.ack (h : Follows n w log σ) {r : NodeId} (hr : r ∈ (w.node n).replicas) {k : Nat}
    (hk : k ≤ (σ.1.log r).length) (op : Op) : Follows n w log (σ.1, (r, k, op) :: σ.2) := by
  refine ⟨h.self, h.tracks, h.replicas, h.cleared, fun r' k' op' ha => ?_, h.since, h.fits⟩
  rcases List.mem_cons.mp ha with hnew | ha
  · obtain ⟨hr', hk'⟩ := Prod.mk.inj hnew
    obtain ⟨rfl, -⟩ := Prod.mk.inj hk'
    rw [hr']
    exact ⟨hr, hk⟩
  · exact h.acks r' k' op' ha

/-! ## Critical sections -/

/-- An action at a node, with room on its disk if it is the primary. -/
theorem exec_node {m : NodeId} {a : NodeAct} {r : a.Res}
    (h : (watched sort n).exec i (.node m) io (.node a) σ = some (r, σ')) :
    ∃ room node, (m = n → room ≠ 0) ∧ (σ.1.node m).exec i room a = some (r, node) ∧
      σ' = (σ.1.setNode m node, noteAck m σ.2 a) := by
  obtain ⟨w, hw, rfl⟩ := System.exec_observe h
  obtain ⟨node, hn, rfl⟩ := World.exec_node hw
  refine ⟨_, node, ?_, hn, rfl⟩
  rintro rfl
  rw [if_pos rfl]
  omega

variable {net : Net clusterSig} {depth : Nat} {α : Type} {Q : α → World × Acks → Prop}

/-- An action that only looks. -/
theorem wp_read {m : NodeId} {a : NodeAct} {f : a.Res → ClusterProg α} (hnote : noteAck m σ.2 a = σ.2)
    (hread : ∀ room r node, (σ.1.node m).exec i room a = some (r, node) → node = σ.1.node m ∧
      Wp (watched sort n) i net (fun _ => True) depth (.node m) (f r) Q σ) :
    Wp (watched sort n) i net (fun _ => True) depth (.node m) (Manager.act a >>= f) Q σ := by
  refine Wp.perform trivial (fun io r σ₁ he => ?_)
  obtain ⟨room, node, -, hn, rfl⟩ := exec_node sort he
  obtain ⟨rfl, hf⟩ := hread room r node hn
  rw [hnote, World.setNode_eq_self]
  exact hf

/-- The same when what it finds is known. -/
theorem wp_look {m : NodeId} {a : NodeAct} {f : a.Res → ClusterProg α} (hnote : noteAck m σ.2 a = σ.2)
    {v : a.Res} (hread : ∀ room, (σ.1.node m).exec i room a = some (v, σ.1.node m))
    (hf : Wp (watched sort n) i net (fun _ => True) depth (.node m) (f v) Q σ) :
    Wp (watched sort n) i net (fun _ => True) depth (.node m) (Manager.act a >>= f) Q σ := by
  refine wp_read sort hnote (fun room r node hn => ?_)
  obtain ⟨rfl, rfl⟩ := Prod.mk.inj (Option.some.inj ((hread room).symm.trans hn))
  exact ⟨rfl, hf⟩

/-- An action that moves a node along the log. -/
theorem wp_write {m : NodeId} {a : NodeAct} {f : a.Res → ClusterProg α} (h : Follows n w log σ)
    (hnote : noteAck m σ.2 a = σ.2)
    (hstep : ∀ room r node, (σ.1.node m).exec i room a = some (r, node) →
      σ.1.log m <+: node.tablet.log
        ∧ (m ∈ (w.node n).replicas ∨ m = n → Tracks (m = n) (Blank n w m) log node.tablet)
        ∧ (m = n → node.replicas = (σ.1.node m).replicas ∧ node.cleared = (σ.1.node m).cleared
          ∧ node.tablet.rows = (σ.1.node m).tablet.rows))
    (hf : ∀ room r node, (σ.1.node m).exec i room a = some (r, node) →
      Follows n w log (σ.1.setNode m node, σ.2) →
      Wp (watched sort n) i net (fun _ => True) depth (.node m) (f r) Q (σ.1.setNode m node, σ.2)) :
    Wp (watched sort n) i net (fun _ => True) depth (.node m) (Manager.act a >>= f) Q σ := by
  refine Wp.perform trivial (fun io r σ₁ he => ?_)
  obtain ⟨room, node, -, hn, rfl⟩ := exec_node sort he
  obtain ⟨hgrow, ht, hrep⟩ := hstep room r node hn
  rw [hnote]
  refine hf room r node hn (h.setNode hgrow ht ?_ ?_)
  · rintro rfl
    obtain ⟨hr, hc, -⟩ := hrep rfl
    rw [hr, hc]
    exact ⟨h.replicas, h.cleared⟩
  · rintro rfl
    exact (hrep rfl).2.2

/-- Locks and roles move, but not the tablet. -/
structure Touch (old new : Node) : Prop where
  log : new.tablet.log = old.tablet.log
  rows : new.tablet.rows = old.tablet.rows
  bloom : new.tablet.bloom = old.tablet.bloom
  wal : new.tablet.wal = old.tablet.wal
  pending : new.tablet.pending = old.tablet.pending
  replicas : new.replicas = old.replicas
  cleared : new.cleared = old.cleared

theorem Tracks.touch {main : Prop} {hid : Field → Prop} {old new : Node} (h : Tracks main hid log old.tablet)
    (ht : Touch old new) : Tracks main hid log new.tablet := by
  refine ⟨?_, ?_, ?_, ?_⟩
  · rw [ht.log]
    exact h.behind
  · rw [ht.log, ht.rows]
    exact h.cells
  · unfold Shows
    rw [ht.rows, ht.bloom]
    exact h.shows
  · unfold Replica.WalFits
    rw [ht.log, ht.wal, ht.pending]
    exact h.wal

/-- Actions that do only that. -/
def Touching : NodeAct → Prop
  | .lockWrite => True
  | .answer _ => True
  | .lockWal => True
  | .unlockWal => True
  | .snapEnd => True
  | .setPrimary _ => True
  | _ => False

theorem touch_exec {a : NodeAct} (ha : Touching a) {room : Nat} {r : a.Res} {old new : Node}
    (h : old.exec i room a = some (r, new)) : Touch old new ∧ noteAck n σ.2 a = σ.2 := by
  cases a with
  | lockWrite =>
      obtain ⟨-, h⟩ := Option.ite_none_right_eq_some.mp h
      obtain ⟨-, rfl⟩ := Prod.mk.inj (Option.some.inj h)
      exact ⟨⟨rfl, rfl, rfl, rfl, rfl, rfl, rfl⟩, rfl⟩
  | lockWal =>
      obtain ⟨-, h⟩ := Option.ite_none_right_eq_some.mp h
      obtain ⟨-, rfl⟩ := Prod.mk.inj (Option.some.inj h)
      exact ⟨⟨rfl, rfl, rfl, rfl, rfl, rfl, rfl⟩, rfl⟩
  | answer _ | unlockWal | snapEnd | setPrimary _ =>
      obtain ⟨-, rfl⟩ := Prod.mk.inj (Option.some.inj h)
      exact ⟨⟨rfl, rfl, rfl, rfl, rfl, rfl, rfl⟩, rfl⟩
  | _ => exact ha.elim

theorem wp_touch {m : NodeId} {a : NodeAct} {f : a.Res → ClusterProg α} (h : Follows n w log σ)
    (ha : Touching a)
    (hf : ∀ r σ₁, Follows n w log σ₁ → (∀ q, (σ₁.1.log q) = σ.1.log q) →
      Wp (watched sort n) i net (fun _ => True) depth (.node m) (f r) Q σ₁) :
    Wp (watched sort n) i net (fun _ => True) depth (.node m) (Manager.act a >>= f) Q σ := by
  refine Wp.perform trivial (fun io r σ₁ he => ?_)
  obtain ⟨room, node, -, hn, rfl⟩ := exec_node sort he
  obtain ⟨ht, hnote⟩ := @touch_exec m σ i a ha room r _ node hn
  rw [hnote]
  refine hf r _ (h.setNode ?_ (fun hm => (h.tracks m hm).touch ht) ?_ ?_) (fun q => ?_)
  · rw [ht.log]
    exact List.prefix_refl _
  · rintro rfl
    rw [ht.replicas, ht.cleared]
    exact ⟨h.replicas, h.cleared⟩
  · rintro rfl
    exact ht.rows
  · show (σ.1.setNode m node).log q = σ.1.log q
    by_cases hq : q = m
    · subst hq
      rw [World.log_setNode_self, ht.log]
      rfl
    · rw [World.log_setNode_of_ne hq]

/-- The row update that goes with a record. -/
theorem wp_applyRow {m : NodeId} {node : Node} {op : Op} {exclusive : Bool} {f : Unit → ClusterProg α}
    (hf : Wp (watched sort n) i net (fun _ => True) depth (.node m) (f ()) Q
      (σ.1.setNode m (node.withTablet (node.tablet.apply op)), σ.2)) :
    Wp (watched sort n) i net (fun _ => True) depth (.node m) (Manager.act (.applyRow op exclusive) >>= f) Q
      (σ.1.setNode m node, σ.2) := by
  refine Wp.perform trivial (fun io r σ₁ he => ?_)
  obtain ⟨room, node', -, hn, rfl⟩ := exec_node sort he
  obtain ⟨-, hn⟩ := Option.ite_none_left_eq_some.mp hn
  obtain ⟨-, rfl⟩ := Prod.mk.inj (Option.some.inj hn)
  have hself : (σ.1.setNode m node).node m = node := World.setNode_self ..
  rw [hself]
  show Wp (watched sort n) i net (fun _ => True) depth (.node m) (f ()) Q
    ((σ.1.setNode m node).setNode m (node.withTablet (node.tablet.apply op)), σ.2)
  rw [World.setNode_setNode]
  exact hf

/-! ## Operations that come with an LSN -/

variable {r : NodeId} {k : Nat} {op : Op}

/-- The record and the row update, for an operation of the log. -/
theorem wp_logNext {f : Receipt → ClusterProg α} {g : ClusterProg α} (hr : r ∈ (w.node n).replicas)
    (hop : opAt log k = some op) (h : Follows n w log σ)
    (hlogged : f .logged = Manager.act (.applyRow op true) >>= fun _ => g)
    (hknown : k ≤ (σ.1.log r).length →
      Wp (watched sort n) i net (fun _ => True) depth (.node r) (f .known) Q σ)
    (hrefused : Wp (watched sort n) i net (fun _ => True) depth (.node r) (f .refused) Q σ)
    (hdone : ∀ σ₁, Follows n w log σ₁ → (σ₁.1.log r).length = k →
      Wp (watched sort n) i net (fun _ => True) depth (.node r) g Q σ₁) :
    Wp (watched sort n) i net (fun _ => True) depth (.node r) (Manager.act (.logNext k op) >>= f) Q σ := by
  refine Wp.perform trivial (fun io receipt σ₁ he => ?_)
  obtain ⟨room, node, -, hn, rfl⟩ := exec_node sort he
  obtain ⟨hreceipt, rfl⟩ := Prod.mk.inj (Option.some.inj hn)
  rcases (σ.1.node r).tablet.logNext_cases room k op with ⟨hq, hle⟩ | hq | ⟨hq, hnext⟩
  · rw [hq] at hreceipt ⊢
    obtain rfl : Receipt.known = receipt := hreceipt
    show Wp (watched sort n) i net (fun _ => True) depth (.node r) (f .known) Q (σ.1.setNode r (σ.1.node r), σ.2)
    rw [World.setNode_eq_self]
    exact hknown hle
  · rw [hq] at hreceipt ⊢
    obtain rfl : Receipt.refused = receipt := hreceipt
    show Wp (watched sort n) i net (fun _ => True) depth (.node r) (f .refused) Q (σ.1.setNode r (σ.1.node r), σ.2)
    rw [World.setNode_eq_self]
    exact hrefused
  · -- the record is the next one of the log
    rw [hq] at hreceipt ⊢
    obtain rfl : Receipt.logged = receipt := hreceipt
    subst hnext
    rw [hlogged]
    refine wp_applyRow sort (hdone _ (h.setNode ?_ (fun hm => (h.tracks r hm).next hop) ?_ ?_) ?_)
    · exact List.prefix_append _ _
    · rintro rfl
      exact ⟨h.replicas, h.cleared⟩
    · -- the log has no next one for the primary itself
      rintro rfl
      have hle := (opAt_eq_some hop).2.1
      rw [h.lsn] at hle
      omega
    · show ((σ.1.setNode r _).log r).length = _
      rw [World.log_setNode_self]
      exact List.length_append

theorem wp_unlockWal {m : NodeId} {x : α} (h : Follows n w log σ)
    (hQ : ∀ σ₁, Follows n w log σ₁ → (∀ q, σ₁.1.log q = σ.1.log q) → Q x σ₁) :
    Wp (watched sort n) i net (fun _ => True) depth (.node m) (Manager.act .unlockWal >>= fun _ => .ret x) Q σ :=
  wp_touch sort h trivial (fun _ σ₁ h₁ hlog => hQ σ₁ h₁ hlog)

theorem wp_applyReplicated (hr : r ∈ (w.node n).replicas) (hop : opAt log k = some op)
    (h : Follows n w log σ) :
    Wp (watched sort n) i net (fun _ => True) depth (.node r) (Manager.applyReplicated k op)
      (fun ok σ' => Follows n w log σ' ∧ (ok = true → k ≤ (σ'.1.log r).length)) σ := by
  refine wp_touch sort h trivial (fun _ σ₁ h₁ _ => ?_)
  refine wp_logNext sort hr hop h₁ rfl (fun hle => ?_) ?_ (fun σ₂ h₂ hle => ?_)
  · refine wp_unlockWal sort h₁ (fun σ₂ h₂ hlog => ⟨h₂, fun _ => ?_⟩)
    rw [hlog]
    exact hle
  · exact wp_unlockWal sort h₁ (fun σ₂ h₂ _ => ⟨h₂, fun hok => absurd hok (by simp)⟩)
  · refine wp_unlockWal sort h₂ (fun σ₃ h₃ hlog => ⟨h₃, fun _ => ?_⟩)
    rw [hlog]
    exact hle.ge

/-- A delta that starts behind the replica's log: no entry is skipped. -/
theorem wp_applyEntries (hr : r ∈ (w.node n).replicas) (entries : List (Op × Nat))
    (hd : ∀ e ∈ entries, opAt log e.2 = some e.1) (ha : Ahead (σ.1.log r).length entries)
    (h : Follows n w log σ) :
    Wp (watched sort n) i net (fun _ => True) depth (.node r) (Manager.applyEntries entries)
      (fun _ σ' => Follows n w log σ') σ := by
  induction entries generalizing σ with
  | nil => exact h
  | cons e rest ih =>
      obtain ⟨op, k⟩ := e
      have hop : opAt log k = some op := hd (op, k) List.mem_cons_self
      have hrest : ∀ e ∈ rest, opAt log e.2 = some e.1 := fun e he => hd e (List.mem_cons_of_mem _ he)
      obtain ⟨hlater, hascending⟩ := List.pairwise_cons.mp ha.ascending
      refine wp_logNext sort hr hop h rfl (fun hle => ?_) h (fun σ₁ h₁ hlen => ?_)
      · have hlt := ha.above (op, k) List.mem_cons_self
        exact absurd hle (Nat.not_le_of_lt hlt)
      · exact ih hrest ⟨fun e he => hlen ▸ hlater e he, hascending⟩ h₁

theorem wp_applyWalDeltaBlob (hr : r ∈ (w.node n).replicas) {entries : List (Op × Nat)}
    (hd : ∀ e ∈ entries, opAt log e.2 = some e.1) (ha : Ahead (σ.1.log r).length entries)
    (h : Follows n w log σ) :
    Wp (watched sort n) i net (fun _ => True) depth (.node r) (Manager.applyWalDeltaBlob entries)
      (fun _ σ' => Follows n w log σ') σ := by
  refine wp_touch sort h trivial (fun _ σ₁ h₁ hlog => ?_)
  refine Wp.bind ((wp_applyEntries sort hr entries hd (by rw [hlog]; exact ha) h₁).mono (fun ok σ₂ h₂ => ?_))
  exact wp_unlockWal sort h₂ (fun σ₃ h₃ _ => h₃)

/-! ## Snapshots -/

/-- Copying the rows of the primary, with nobody half way through a write. -/
theorem wp_copyRows (k : Nat) (order : List Field) (rows : List (Field × Cols))
    (hpending : (σ.1.node n).tablet.pending = none) :
    Wp (watched sort n) i net (fun _ => True) depth (.node n) (Manager.copyRows k order rows false)
      (fun q σ' => σ' = σ ∧ q.2 = false ∧ ∃ more, q.1 = rows ++ more ∧ more.map Prod.fst = order
        ∧ ∀ p ∈ more, (σ.1.node n).tablet.rows.lookup p.1 = some p.2) σ := by
  induction order generalizing rows with
  | nil => exact ⟨rfl, rfl, [], (List.append_nil rows).symm, rfl, fun _ hp => absurd hp List.not_mem_nil⟩
  | cons key order ih =>
      refine wp_read sort rfl (fun room (row : Cols × Bool) node hn => ?_)
      obtain ⟨cols, hcols, heq⟩ := Option.map_eq_some_iff.mp hn
      obtain ⟨rfl, rfl⟩ := Prod.mk.inj heq
      have hmisses : (σ.1.node n).tablet.misses k key cols = false := by
        unfold Replica.misses
        rw [hpending]
      rw [hmisses]
      refine ⟨rfl, (ih (rows ++ [(key, cols)])).mono (fun q σ' hq => ?_)⟩
      obtain ⟨hσ, hmissed, more, hrows, hkeys, hmore⟩ := hq
      refine ⟨hσ, hmissed, (key, cols) :: more, ?_, ?_, ?_⟩
      · rw [hrows, List.append_assoc]
        rfl
      · rw [List.map_cons, hkeys]
      · intro p hp
        rcases List.mem_cons.mp hp with rfl | hp
        · exact hcols
        · exact hmore p hp

/-- **A snapshot of the primary has all of its rows.** -/
theorem wp_snapshotBlob (k : Nat) (h : Follows n w log σ) :
    Wp (watched sort n) i net (fun _ => True) depth (.node n) Manager.snapshotBlob
      (fun image σ' => Follows n w log σ' ∧ (∀ q, σ'.1.log q = σ.1.log q) ∧ Tells log k (.sync (.snapshot image)))
      σ := by
  refine Wp.perform trivial (fun io (header : Header) σ₁ he => ?_)
  obtain ⟨room, node, -, hn, rfl⟩ := exec_node sort he
  obtain ⟨⟨hnodup, hall⟩, hn⟩ := Option.ite_none_right_eq_some.mp hn
  obtain ⟨rfl, hnode⟩ := Prod.mk.inj (Option.some.inj hn)
  have hmain := h.tracks n (.inr rfl)
  have htouch : Touch (σ.1.node n) node := by
    rw [← hnode]
    exact ⟨rfl, rfl, rfl, rfl, rfl, rfl, rfl⟩
  have hgrow : σ.1.log n <+: node.tablet.log := by
    rw [htouch.log]
    exact List.prefix_refl _
  have hrows : ((σ.1.setNode n node).node n).tablet.rows = (σ.1.node n).tablet.rows := by
    rw [World.setNode_self, htouch.rows]
  have hlist : node.replicas ⊆ (w.node n).replicas ∧ node.cleared = (w.node n).cleared := by
    rw [htouch.replicas, htouch.cleared]
    exact ⟨h.replicas, h.cleared⟩
  have hlogs : ∀ q, (σ.1.setNode n node).log q = σ.1.log q :=
    World.forall_setNode (P := fun q new => new.tablet.log = σ.1.log q) htouch.log (fun _ _ => rfl)
  have h₁ := h.setNode hgrow (fun _ => hmain.touch htouch) (fun _ => hlist) (fun _ => htouch.rows)
  refine Wp.bind ((wp_copyRows sort _ _ [] ((h₁.tracks n (.inr rfl)).wal rfl).2).mono ?_)
  intro q σ₂ hq
  obtain ⟨hσ, hmissed, more, hcopied, hkeys, hmore⟩ := hq
  obtain ⟨copied, missed⟩ := q
  obtain rfl : copied = more := hcopied
  subst hσ
  rw [hrows] at hmore
  have hall : ((σ.1.node n).walk room (σ.1.node n).tablet.rows).toFinset = (σ.1.node n).tablet.rows.keys := hall
  refine wp_touch sort h₁ trivial (fun _ σ₃ h₃ hlog₃ => ⟨h₃, fun q => (hlog₃ q).trans (hlogs q), ?_, ?_, ?_⟩)
  · -- nothing is missing, so the header's LSN stands
    have hmissing : (σ.1.node n).tablet.rowMissing = false := by
      unfold Replica.rowMissing
      rw [(hmain.wal rfl).2]
    obtain rfl : missed = false := hmissed
    unfold Header.image Replica.header
    rw [hmissing]
    exact h.self
  · -- every row is listed, and copied as it was in the map
    intro t c
    have hall' : ∀ x ∈ (σ.1.node n).tablet.rows, x ∈ (∅ : Rows) ∨ x ∈ copied.map Prod.fst := by
      intro x hx
      rw [hkeys]
      refine .inr (List.mem_toFinset.mp ?_)
      show x ∈ ((σ.1.node n).walk room (σ.1.node n).tablet.rows).toFinset
      rw [hall]
      exact Finmap.mem_keys.mpr hx
    have hlook := lookup_foldl_emplace copied hmore ∅ (fun x hx => absurd hx Finmap.notMem_empty) hall'
    have hcell : (Replica.install t (((σ.1.node n).tablet.header
        ((σ.1.node n).walk room (σ.1.node n).tablet.rows)).image copied missed)).rows.cell c
          = (σ.1.node n).tablet.rows.cell c := by
      unfold Rows.cell
      exact congrArg (fun row => Option.bind row (fun cols => cols.lookup c.2)) (hlook c.1)
    rw [hcell, hmain.cells]
    exact congrArg (fun l => valueAt l c) h.self
  · -- as many rows as the map has
    refine ⟨?_, fun p hp => h.fits.ncols p.1 p.2 (hmore p hp)⟩
    have hlen : copied.length = ((σ.1.node n).walk room (σ.1.node n).tablet.rows).length := by
      rw [← List.length_map (f := Prod.fst), hkeys]
      rfl
    show copied.length < 2 ^ 32
    rw [hlen, ← List.toFinset_card_of_nodup hnodup, hall]
    exact h.fits.nrows

/-- SYNC_FROM, at the primary. -/
theorem wp_buildSyncResponse (ver lsn : Nat) (h : Follows n w log σ) :
    Wp (watched sort n) i net (fun _ => True) depth (.node n) (Manager.buildSyncResponse ver lsn)
      (fun r σ' => (Follows n w log σ' ∧ ∀ q, σ'.1.log q = σ.1.log q) ∧ Tells log lsn r) σ := by
  have hdelta : Tells log lsn (.sync (.delta ((σ.1.node n).tablet.walDeltaAfter lsn))) := by
    refine ⟨fun e he => ?_, ahead_walDeltaAfter _ lsn⟩
    rw [← h.self]
    exact (Replica.mem_walDeltaAfter ((h.tracks n (.inr rfl)).wal rfl).1 he).1
  have hsnap : Wp (watched sort n) i net (fun _ => True) depth (.node n)
      (Manager.snapshotBlob >>= fun image => pure (Reply.sync (.snapshot image)))
      (fun r σ' => (Follows n w log σ' ∧ ∀ q, σ'.1.log q = σ.1.log q) ∧ Tells log lsn r) σ :=
    Wp.bind ((wp_snapshotBlob sort lsn h).mono (fun _ _ hq => ⟨⟨hq.1, hq.2.1⟩, hq.2.2⟩))
  refine wp_look sort rfl (fun _ => rfl) ?_
  split
  · refine wp_read sort rfl (fun room delta node hn => ?_)
    obtain ⟨-, hn⟩ := Option.ite_none_right_eq_some.mp hn
    obtain ⟨rfl, rfl⟩ := Prod.mk.inj (Option.some.inj hn)
    exact ⟨rfl, ⟨h, fun _ => rfl⟩, hdelta⟩
  · refine wp_look sort rfl (fun _ => rfl) ?_
    split
    · refine wp_read sort rfl (fun room delta node hn => ?_)
      obtain ⟨-, hn⟩ := Option.ite_none_right_eq_some.mp hn
      obtain ⟨rfl, rfl⟩ := Prod.mk.inj (Option.some.inj hn)
      refine ⟨rfl, ?_⟩
      split
      · exact hsnap
      · split
        · exact hsnap
        · exact ⟨⟨h, fun _ => rfl⟩, hdelta⟩
    · exact hsnap

/-- What a replica does with a snapshot. -/
theorem wp_loadSnapshotBlob {image : Image} (hne : r ≠ n) (hr : r ∈ (w.node n).replicas)
    (himage : Tells log k (.sync (.snapshot image))) (h : Follows n w log σ) :
    Wp (watched sort n) i net (fun _ => True) depth (.node r) (Manager.loadSnapshotBlob image)
      (fun _ σ' => Follows n w log σ') σ := by
  have hread : ∀ room, (σ.1.node r).exec i room (.readSnapshot image) = some (some image, σ.1.node r) :=
    fun _ => congrArg (fun read => some (read, σ.1.node r)) (if_pos himage.2.2)
  refine wp_look sort rfl hread ?_
  refine wp_touch sort h trivial (fun _ σ₁ h₁ _ => ?_)
  have ht₁ := h₁.tracks r (.inl hr)
  refine wp_write sort h₁ rfl ?_ (fun _ _ _ _ h₂ => ?_)
  · intro room x node hn
    obtain ⟨-, hn⟩ := Option.ite_none_right_eq_some.mp hn
    obtain ⟨-, rfl⟩ := Prod.mk.inj (Option.some.inj hn)
    refine ⟨?_, fun _ => ht₁.install himage (fun hrn => absurd hrn hne), fun hrn => absurd hrn hne⟩
    show σ₁.1.log r <+: image.log
    rw [himage.1]
    exact ht₁.behind
  · refine Wp.bind (Wp.mono (Q := fun _ σ' => Follows n w log σ') ?_
      (fun ok σ₃ h₃ => wp_unlockWal sort h₃ (fun _ h₄ _ => h₄)))
    -- the checkpoint writes down what there is
    refine wp_write sort h₂ rfl ?_ (fun room (written : Bool) node hn h₃ => ?_)
    · intro room x node hn
      have ht₂ := h₂.tracks r (.inl hr)
      obtain ⟨-, hn⟩ := Option.ite_none_right_eq_some.mp hn
      split at hn
      · obtain ⟨-, rfl⟩ := Prod.mk.inj (Option.some.inj hn)
        exact ⟨List.prefix_refl _, fun _ => ht₂, fun _ => ⟨rfl, rfl, rfl⟩⟩
      · obtain ⟨-, rfl⟩ := Prod.mk.inj (Option.some.inj hn)
        obtain ⟨ckpt, hwritten⟩ := Node.ckptWrite_eq (World.node _ r) room
        rw [hwritten]
        exact ⟨List.prefix_refl _, fun _ => ⟨ht₂.behind, ht₂.cells, ht₂.shows, ht₂.wal⟩,
          fun _ => ⟨rfl, rfl, rfl⟩⟩
    · cases written with
      | false => exact h₃
      | true =>
        refine wp_write sort (f := Prog.ret) h₃ rfl ?_ (fun _ _ _ _ h₄ => h₄)
        intro room₃ x node₃ hn₃
        have ht₃ := h₃.tracks r (.inl hr)
        simp only [Node.exec] at hn₃
        split at hn₃
        · obtain ⟨-, rfl⟩ := Prod.mk.inj (Option.some.inj hn₃)
          exact ⟨List.prefix_refl _, fun _ => ht₃, fun _ => ⟨rfl, rfl, rfl⟩⟩
        · obtain ⟨-, rfl⟩ := Prod.mk.inj (Option.some.inj hn₃)
          refine ⟨List.prefix_refl _,
            fun _ => ⟨ht₃.behind, ht₃.cells, ht₃.shows, fun hm => ⟨?_, (ht₃.wal hm).2⟩⟩, fun _ => ⟨rfl, rfl, rfl⟩⟩
          exact List.nil_suffix

/-- What it does with the answer. -/
theorem wp_install (hne : r ≠ n) (hr : r ∈ (w.node n).replicas) {o : Outcome Reply}
    (ho : ∀ v, o = .reply v → Tells log (σ.1.log r).length v) (h : Follows n w log σ) :
    Wp (watched sort n) i net (fun _ => True) depth (.node r) (Manager.install o)
      (fun _ σ' => Follows n w log σ') σ := by
  unfold Manager.install
  split
  · exact wp_loadSnapshotBlob sort hne hr (ho _ rfl) h
  · exact wp_applyWalDeltaBlob sort hr (ho _ rfl).1 (ho _ rfl).2 h
  · exact h

/-! ## Replication requests -/

/-- REPLICATE, for an operation of the log. -/
theorem wp_onReplicate (hr : r ∈ (w.node n).replicas) (hop : opAt log k = some op)
    (h : Follows n w log σ) :
    Wp (watched sort n) i net (fun _ => True) depth (.node r) (Manager.onReplicate k op)
      (fun _ σ' => Follows n w log σ' ∧ True) σ := by
  have happly : Wp (watched sort n) i net (fun _ => True) depth (.node r) (Manager.applyReplicate k op)
      (fun ok σ' => Follows n w log σ' ∧ (ok = true → k ≤ (σ'.1.log r).length)) σ := by
    refine wp_look sort rfl (fun _ => rfl) ?_
    split
    · rename_i hle
      exact ⟨h, fun _ => hle⟩
    · split
      · exact ⟨h, fun hok => absurd hok (by simp)⟩
      · exact wp_applyReplicated sort hr hop h
  refine Wp.bind (happly.mono (fun ok σ₁ hq => ?_))
  obtain ⟨h₁, hle⟩ := hq
  split
  · rename_i hok
    refine Wp.perform trivial (fun io x σ₂ he => ?_)
    obtain ⟨room, node, -, hn, rfl⟩ := exec_node sort he
    obtain ⟨-, rfl⟩ := Prod.mk.inj (Option.some.inj hn)
    rw [World.setNode_eq_self]
    exact ⟨h₁.ack hr (hle hok) op, trivial⟩
  · exact ⟨h₁, trivial⟩

/-- BECOME_SECONDARY, with the primary as its source. -/
theorem wp_becomeSecondaryAndSync (hne : r ≠ n) (hr : r ∈ (w.node n).replicas) (h : Follows n w log σ) :
    Wp (watched sort n) i net (fun _ => True) depth (.node r) (Manager.becomeSecondaryAndSync n)
      (fun _ σ' => Follows n w log σ') σ := by
  refine wp_write sort h rfl ?_ (fun _ _ _ _ h₁ => ?_)
  · intro room x node hn
    obtain ⟨-, rfl⟩ := Prod.mk.inj (Option.some.inj hn)
    exact ⟨List.prefix_refl _, fun hm => h.tracks r hm, fun hrn => absurd hrn hne⟩
  refine wp_touch sort h₁ trivial (fun _ σ₂ h₂ _ => ?_)
  refine wp_look sort rfl (fun _ => rfl) ?_
  refine wp_look sort rfl (fun _ => rfl) ?_
  -- nobody else is at work, so the replica still has the log that it asked with
  refine Wp.ask (J := fun σ' : World × Acks => Follows n w log σ' ∧ ∀ q, σ'.1.log q = σ₂.1.log q)
    (R := Tells log (σ₂.1.log r).length) trivial ⟨h₂, fun _ => rfl⟩
    (fun d => wp_buildSyncResponse sort _ _ h₂) ?_
  intro o σ₃ h₃ ho
  exact wp_install sort hne hr (fun v hv => by rw [h₃.2]; exact ho v hv) h₃.1

end NCloud.Rollback
