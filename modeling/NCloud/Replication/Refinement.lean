import NCloud.Replication.Node
import NCloud.Storage.Sync
import Mathlib.Logic.Relation

/-!
# Replicas stand for tablets

The bridge between `Storage` and `Replication`. A replica represents a tablet when map,
filter and counters agree, the log file reads as its records and the checkpoint file as its
checkpoint (`Represents`). Every function of `tablet.cc` then does to the bytes what the
replica's operation does to the records: first the two halves of a write, then whole
operations, checkpoints, recovery, snapshots and deltas. Put together, whatever a tablet
goes through, a replica goes through with it (`represents_of_reach`).

No file says what the LSNs stand for. The log of a replica is a record of the past, of
which the bytes know the length alone, and locks are no part of it.
-/

namespace NCloud

open Wire Reader

/-- The row update of a logged operation. -/
def Tablet.update (t : Tablet) : Op → Tablet
  | .put row col val => t.setCell row col val
  | .del row col => t.eraseCell row col

/-- A record, and then its row update. -/
def Tablet.write (t : Tablet) (op : Op) (w : WalWrite) : Option Nat × Tablet :=
  match t.writeWal (.ofOp op) w with
  | (none, t) => (none, t)
  | (some n, t) => (some n, t.update op)

/-- `apply_replicated_put` and `apply_replicated_delete`, with an LSN. -/
def Tablet.replicated (t : Tablet) (n : Nat) (op : Op) (w : WalWrite) : Bool × Tablet :=
  if n ≤ t.lsn then (true, t)
  else if n ≠ bump t.lsn then (false, t)
  else
    match t.write op w with
    | (none, t) => (false, t)
    | (some _, t) => (true, t)

namespace Replica

/-- A record and its row update, with nothing in between. -/
def write (r : Replica) (io : Nat) (op : Op) : Option Nat × Replica :=
  match r.logOp io op with
  | (none, r) => (none, r)
  | (some n, r) => (some n, r.apply op)

/-- A tablet as replication sees it. -/
structure Represents (r : Replica) (t : Tablet) : Prop where
  rows : t.rows = r.rows
  bloom : t.bloom = r.bloom
  lsn : t.lsn = r.lsn
  ver : t.checkpointVersion = r.ver
  /-- The log file is its records, and perhaps a torn one that nothing follows. -/
  wal : ∃ tail, t.disk.wal = walBytes r.wal ++ tail ∧ readRecord tail = none ∧ (t.stream = .good → tail = [])
  /-- What recovery would find in the checkpoint file. -/
  ckpt : ckptContents t.disk.ckpt = some ⟨r.ckpt.ver, r.ckpt.log.length, r.ckpt.rows, r.ckpt.bloom⟩

theorem represents_fresh : empty.Represents .fresh where
  rows := rfl
  bloom := rfl
  lsn := rfl
  ver := rfl
  wal := ⟨[], rfl, readRecord_nil, fun _ => rfl⟩
  ckpt := rfl

variable {r r' : Replica} {t t' : Tablet} {op : Op} {w : WalWrite} {row col val v1 v2 : Field} {n : Nat}

/-! ## The halves of a write -/

/-- `get_or_create_row` and `find_row` touch map and filter alone. -/
theorem update_eq (hrows : t.rows = r.rows) (hbloom : t.bloom = r.bloom) (op : Op) :
    t.update op = { t with rows := r.rows.apply op, bloom := r.filterFor op } := by
  cases op with
  | put row col val =>
      have hfilter : r.filterFor (.put row col val) = if row ∈ t.rows then t.bloom else t.bloom.add row.1 := by
        rw [hrows, hbloom]
        rfl
      rw [hfilter, ← hrows]
      show t.setCell row col val = { t with rows := t.rows.put row col val, bloom := _ }
      unfold Tablet.setCell Rows.put
      cases hrow : t.rows.lookup row with
      | none =>
          rw [if_neg (Finmap.lookup_eq_none.mp hrow)]
          rfl
      | some cols =>
          rw [if_pos (Finmap.mem_of_lookup_eq_some hrow)]
          rfl
  | del row col =>
      show t.eraseCell row col = { t with rows := r.rows.erase row col, bloom := r.bloom }
      rw [Tablet.eraseCell_eq, hrows, ← hbloom]

/-- Nothing else is touched. -/
theorem update_rest (t : Tablet) (op : Op) : (t.update op).lsn = t.lsn ∧ (t.update op).stream = t.stream := by
  rw [update_eq (r := { empty with rows := t.rows, bloom := t.bloom }) rfl rfl]
  exact ⟨rfl, rfl⟩

theorem Represents.apply (h : r.Represents t) (op : Op) : (r.apply op).Represents (t.update op) := by
  rw [update_eq h.rows h.bloom]
  exact ⟨rfl, rfl, h.lsn, h.ver, h.wal, h.ckpt⟩

/-- The next LSN. -/
theorem Represents.bump_lsn (h : r.Represents t) (hlt : r.lsn + 1 < 2 ^ 64) : bump t.lsn = r.lsn + 1 := by
  rw [h.lsn]
  exact Nat.mod_eq_of_lt hlt

/-- The records in the log file. -/
theorem Represents.scan_wal (h : r.Represents t) : ∃ tail, t.disk.wal = walBytes r.wal ++ tail ∧
    scan readRecord t.disk.wal = (r.wal.map WalRecord.ofOp, tail) := by
  obtain ⟨tail, hwal, htorn, -⟩ := h.wal
  refine ⟨tail, hwal, ?_⟩
  rw [hwal]
  exact scan_walBytes r.wal htorn

/-- How many records a write gets onto the disk. -/
def room (t : Tablet) : WalWrite → Nat
  | .ok => if t.stream = .good then 1 else 0
  | .short _ => 0

/-- **The log half.** A record is written and counted, or refused; what is left of it then
reads as nothing. -/
theorem Represents.writeWal (h : r.Represents t) (hlt : r.lsn + 1 < 2 ^ 64) (op : Op) (w : WalWrite) :
    (t.writeWal (.ofOp op) w).1 = (r.logOp (room t w) op).1 ∧
      (r.logOp (room t w) op).2.Represents (t.writeWal (.ofOp op) w).2 := by
  have hbump : bump t.lsn = r.lsn + 1 := h.bump_lsn hlt
  obtain ⟨tail, hwal, htorn, hgood⟩ := h.wal
  by_cases hs : t.stream = .good
  · obtain rfl := hgood hs
    rw [List.append_nil] at hwal
    cases w with
    | ok =>
        have hroom : room t .ok = 1 := if_pos hs
        have hwrite : t.writeWal (.ofOp op) .ok =
            (some (bump t.lsn), { t.appendWal (WalRecord.ofOp op).encode with lsn := bump t.lsn }) := by
          unfold Tablet.writeWal
          rw [hs]
        rw [hroom, hwrite, hbump]
        refine ⟨rfl, h.rows, h.bloom, ?_, h.ver, ⟨[], ?_, readRecord_nil, fun _ => rfl⟩, h.ckpt⟩
        · show r.lsn + 1 = (r.log ++ [some op]).length
          rw [List.length_append]
          rfl
        · show t.disk.wal ++ (WalRecord.ofOp op).encode = walBytes (r.wal ++ [op]) ++ []
          rw [hwal, walBytes_snoc, List.append_nil]
    | short m =>
        have hroom : room t (.short m) = 0 := rfl
        rw [hroom]
        rcases Tablet.writeWal_cases t op (.short m) with ⟨-, heq⟩ | ⟨-, p, hp, heq⟩ | heq
        · -- a short write reports no LSN
          unfold Tablet.writeWal at heq
          rw [hs] at heq
          exact absurd (Prod.mk.inj heq).1 (by simp)
        · have hfile : (t.torn p).disk.wal = walBytes r.wal ++ p := congrArg (· ++ p) hwal
          rw [heq]
          exact ⟨rfl, h.rows, h.bloom, h.lsn, h.ver, ⟨p, hfile, hp, nofun⟩, h.ckpt⟩
        · rw [heq]
          exact ⟨rfl, h⟩
  · have hroom : room t w = 0 := by
      cases w with
      | ok => exact if_neg hs
      | short m => rfl
    rw [hroom]
    rcases Tablet.writeWal_cases t op w with ⟨hs', -⟩ | ⟨hs', -⟩ | heq
    · exact absurd hs' hs
    · exact absurd hs' hs
    · rw [heq]
      exact ⟨rfl, h⟩

/-- Both halves. -/
theorem Represents.write (h : r.Represents t) (hlt : r.lsn + 1 < 2 ^ 64) (op : Op) (w : WalWrite) :
    (t.write op w).1 = (r.write (room t w) op).1 ∧ (r.write (room t w) op).2.Represents (t.write op w).2 := by
  obtain ⟨hres, hrep⟩ := h.writeWal hlt op w
  unfold Tablet.write Replica.write
  cases hwrite : t.writeWal (.ofOp op) w with
  | mk o t' =>
      cases hlog : r.logOp (room t w) op with
      | mk o' r' =>
          rw [hwrite, hlog] at hres hrep
          obtain rfl : o = o' := hres
          cases o with
          | none => exact ⟨rfl, hrep⟩
          | some k => exact ⟨rfl, hrep.apply op⟩

/-- A write goes through at both, or at neither. -/
theorem Represents.write_cases (h : r.Represents t) (hlt : r.lsn + 1 < 2 ^ 64) (op : Op) (w : WalWrite) :
    (room t w = 0 ∧ ∃ t', t.write op w = (none, t') ∧ r.Represents t') ∨
      (room t w ≠ 0 ∧ ∃ t', t.write op w = (some (r.lsn + 1), t') ∧ ((r.record op).apply op).Represents t') := by
  obtain ⟨hres, hrep⟩ := h.write hlt op w
  unfold Replica.write logOp at hres hrep
  cases hwrite : t.write op w with
  | mk o t' =>
      rw [hwrite] at hres hrep
      by_cases h0 : room t w = 0
      · rw [if_pos h0] at hres hrep
        obtain rfl : o = none := hres
        exact .inl ⟨h0, t', rfl, hrep⟩
      · rw [if_neg h0] at hres hrep
        obtain rfl : o = some (r.lsn + 1) := hres
        exact .inr ⟨h0, t', rfl, hrep⟩

/-! ## Whole operations -/

/-- `cput` and `del` write into the row that they have found. -/
theorem update_found (op : Op) {cols : Cols} (hrow : t.rows.lookup op.cell.1 = some cols) : t.update op =
    { t with rows := t.rows.insert op.cell.1 (match op.value with
      | some v => cols.insert op.cell.2 v
      | none => cols.erase op.cell.2) } := by
  cases op with
  | put row col val =>
      show t.setCell row col val = _
      unfold Tablet.setCell
      rw [show t.rows.lookup row = some cols from hrow]
      rfl
  | del row col =>
      show t.eraseCell row col = _
      unfold Tablet.eraseCell
      rw [show t.rows.lookup row = some cols from hrow]
      rfl

/-- Writing a record touches no row. -/
theorem rows_writeWal (t : Tablet) (op : Op) (w : WalWrite) : (t.writeWal (.ofOp op) w).2.rows = t.rows := by
  rcases Tablet.writeWal_cases t op w with ⟨-, h⟩ | ⟨-, p, -, h⟩ | h
  · rw [h]
    rfl
  · rw [h]
    rfl
  · rw [h]

/-- What is logged goes into the row that was found before. -/
theorem update_of_writeWal {o : Option Nat} (hwrite : t.writeWal (.ofOp op) w = (o, t')) {cols : Cols}
    (hfound : t.findRow op.cell.1 = some cols) : t'.update op =
      { t' with rows := t'.rows.insert op.cell.1 (match op.value with
        | some v => cols.insert op.cell.2 v
        | none => cols.erase op.cell.2) } := by
  have hrows := rows_writeWal t op w
  rw [hwrite] at hrows
  refine update_found op ?_
  rw [hrows]
  exact Tablet.lookup_of_findRow hfound

theorem cput_eq_write (t : Tablet) (row col v1 v2 : Field) (w : WalWrite) :
    t.cput row col v1 v2 w = if t.get row col = some v1 then t.write (.put row col v2) w else (none, t) := by
  unfold Tablet.cput Tablet.get
  cases hfound : t.findRow row with
  | none => rfl
  | some cols =>
      show (if cols.lookup col = some v1 then _ else _) = if cols.lookup col = some v1 then _ else _
      split
      · unfold Tablet.write Tablet.writeWalPut
        cases hwrite : t.writeWal (.ofOp (.put row col v2)) w with
        | mk o t' =>
            cases o with
            | none => rfl
            | some k =>
                show _ = (some k, t'.update (.put row col v2))
                rw [update_of_writeWal hwrite hfound]
                rfl
      · rfl

theorem del_eq_write (t : Tablet) (row col : Field) (w : WalWrite) :
    t.del row col w = if t.get row col = none then (some none, t) else
      match t.write (.del row col) w with
      | (none, t) => (none, t)
      | (some n, t) => (some (some n), t) := by
  unfold Tablet.del Tablet.get
  cases hfound : t.findRow row with
  | none => rfl
  | some cols =>
      show (if cols.lookup col = none then _ else _) = if cols.lookup col = none then _ else _
      split
      · rfl
      · unfold Tablet.write Tablet.writeWalDelete
        cases hwrite : t.writeWal (.ofOp (.del row col)) w with
        | mk o t' =>
            cases o with
            | none => rfl
            | some k =>
                show _ = (some (some k), t'.update (.del row col))
                rw [update_of_writeWal hwrite hfound]
                rfl

/-- **Operations.** What a tablet returns is what the replica returns, and they go on
alike. -/
theorem Represents.put (h : r.Represents t) (hlt : r.lsn + 1 < 2 ^ 64) (row col val : Field) (w : WalWrite) :
    (t.put row col val w).1 = (r.put (room t w) row col val).1 ∧
      (r.put (room t w) row col val).2.Represents (t.put row col val w).2 :=
  h.write hlt (.put row col val) w

theorem Represents.get (h : r.Represents t) (row col : Field) : t.get row col = r.get row col := by
  unfold Tablet.get Tablet.findRow Replica.get Replica.findRow
  rw [h.rows, h.bloom]

theorem Represents.cput (h : r.Represents t) (hlt : r.lsn + 1 < 2 ^ 64) (row col v1 v2 : Field) (w : WalWrite) :
    (t.cput row col v1 v2 w).1 = (r.cput (room t w) row col v1 v2).1 ∧
      (r.cput (room t w) row col v1 v2).2.Represents (t.cput row col v1 v2 w).2 := by
  rw [cput_eq_write, h.get]
  unfold Replica.cput
  split
  · exact h.put hlt row col v2 w
  · exact ⟨rfl, h⟩

theorem Represents.del (h : r.Represents t) (hlt : r.lsn + 1 < 2 ^ 64) (row col : Field) (w : WalWrite) :
    (t.del row col w).1 = (r.del (room t w) row col).1 ∧
      (r.del (room t w) row col).2.Represents (t.del row col w).2 := by
  rw [del_eq_write, h.get]
  unfold Replica.del
  split
  · exact ⟨rfl, h⟩
  · rcases h.write_cases hlt (.del row col) w with ⟨h0, t', heq, hrep⟩ | ⟨h0, t', heq, hrep⟩
    · have hlog : r.logOp (room t w) (.del row col) = (none, r) := if_pos h0
      rw [heq, hlog]
      exact ⟨rfl, hrep⟩
    · have hlog : r.logOp (room t w) (.del row col) = (some (r.lsn + 1), r.record (.del row col)) := if_neg h0
      rw [heq, hlog]
      exact ⟨rfl, hrep⟩

/-! ## Operations with an LSN -/

/-- An operation with an LSN, with nothing in between. -/
def replicate (r : Replica) (io n : Nat) (op : Op) : Bool × Replica :=
  match r.logNext io n op with
  | (.known, r) => (true, r)
  | (.refused, r) => (false, r)
  | (.logged, r) => (true, r.apply op)

theorem lsn_of_writeWal {k : Nat} (h : (t.writeWal (.ofOp op) w).1 = some k) : k = bump t.lsn := by
  rcases Tablet.writeWal_cases t op w with ⟨-, heq⟩ | ⟨-, p, -, heq⟩ | heq
  · rw [heq] at h
    exact (Option.some.inj h).symm
  · rw [heq] at h
    exact absurd h (by simp)
  · rw [heq] at h
    exact absurd h (by simp)

/-- The comparison of the LSN that the record got never fails. -/
theorem replicated_eq (hn : n = bump t.lsn) (op : Op) (w : WalWrite) :
    (match t.writeWal (.ofOp op) w with
      | (none, t) => (false, t)
      | (some lsn, t) => if lsn ≠ n then (false, t) else (true, t.update op)) =
    match t.write op w with
    | (none, t) => (false, t)
    | (some _, t) => (true, t) := by
  unfold Tablet.write
  cases hwrite : t.writeWal (.ofOp op) w with
  | mk o t' =>
      cases o with
      | none => rfl
      | some k =>
          have hk : k = n := (lsn_of_writeWal (by rw [hwrite])).trans hn.symm
          exact if_neg (not_not.mpr hk)

theorem applyReplicatedPut_eq (t : Tablet) (row col val : Field) (n : Nat) (w : WalWrite) :
    t.applyReplicatedPut row col val n w = t.replicated n (.put row col val) w := by
  unfold Tablet.applyReplicatedPut Tablet.replicated
  split
  · rfl
  · split
    · rfl
    · rename_i hn
      exact replicated_eq (not_not.mp hn) (.put row col val) w

theorem applyReplicatedDelete_eq (t : Tablet) (row col : Field) (n : Nat) (w : WalWrite) :
    t.applyReplicatedDelete row col n w = t.replicated n (.del row col) w := by
  unfold Tablet.applyReplicatedDelete Tablet.replicated
  split
  · rfl
  · split
    · rfl
    · rename_i hn
      exact replicated_eq (not_not.mp hn) (.del row col) w

/-- **Replicated operations.** -/
theorem Represents.replicate (h : r.Represents t) (hlt : r.lsn + 1 < 2 ^ 64) (n : Nat) (op : Op) (w : WalWrite) :
    (t.replicated n op w).1 = (r.replicate (room t w) n op).1 ∧
      (r.replicate (room t w) n op).2.Represents (t.replicated n op w).2 := by
  unfold Tablet.replicated Replica.replicate Replica.logNext
  rw [h.bump_lsn hlt, h.lsn]
  by_cases hknown : n ≤ r.lsn
  · rw [if_pos hknown, if_pos hknown]
    exact ⟨rfl, h⟩
  · rw [if_neg hknown, if_neg hknown]
    by_cases hnext : n = r.lsn + 1
    · rw [if_neg (not_not.mpr hnext), if_neg (not_not.mpr hnext)]
      rcases h.write_cases hlt op w with ⟨h0, t', heq, hrep⟩ | ⟨h0, t', heq, hrep⟩
      · rw [heq, if_pos h0]
        exact ⟨rfl, hrep⟩
      · rw [heq, if_neg h0]
        exact ⟨rfl, hrep⟩
    · rw [if_pos hnext, if_pos hnext]
      exact ⟨rfl, h⟩

/-! ## Checkpoints and recovery -/

/-- `checkpoint_locked`, when nothing comes between its halves. -/
def checkpoint (r : Replica) : Tablet.CkptFault → Bool × Replica
  | .none => (true, r.ckptWrite.ckptTruncate)
  | .reopen _ => (false, r.ckptWrite)
  | _ => (false, r)

/-- **Checkpoints.** The log may be opened again for appending if its last record is whole. -/
theorem Represents.checkpoint (h : r.Represents t) {rl : Listing} (hl : Lists rl t.rows) (hfits : t.rows.Fits)
    (hlsn : r.lsn < 2 ^ 64) (hver : r.ver + 1 < 2 ^ 64) {f : Tablet.CkptFault}
    (hgood : f = .reopen true → t.stream = .good) :
    (t.checkpointLocked rl f).1 = (r.checkpoint f).1 ∧ (r.checkpoint f).2.Represents (t.checkpointLocked rl f).2 := by
  have hbump : bump t.checkpointVersion = r.ver + 1 := by
    rw [h.ver]
    exact Nat.mod_eq_of_lt hver
  have hfile : ckptContents (some (t.ckptFile rl)) = some ⟨r.ver + 1, r.lsn, r.rows, r.bloom⟩ := by
    rw [Tablet.ckptContents_ckptFile hl hfits (by rw [h.lsn]; exact hlsn), hbump, h.lsn, h.rows, h.bloom]
  obtain ⟨tail, hwal, htorn, hlast⟩ := h.wal
  cases f with
  | none =>
      exact ⟨rfl, h.rows, h.bloom, h.lsn, hbump, ⟨[], rfl, readRecord_nil, fun _ => rfl⟩, hfile⟩
  | reopen appendOk =>
      refine ⟨rfl, h.rows, h.bloom, h.lsn, h.ver, ⟨tail, hwal, htorn, fun hs => ?_⟩, hfile⟩
      cases appendOk with
      | true => exact hlast (hgood rfl)
      | false => exact absurd hs nofun
  | openTmp => exact ⟨rfl, h.rows, h.bloom, h.lsn, h.ver, ⟨tail, hwal, htorn, hlast⟩, h.ckpt⟩
  | writeTmp m => exact ⟨rfl, h.rows, h.bloom, h.lsn, h.ver, ⟨tail, hwal, htorn, hlast⟩, h.ckpt⟩
  | rename => exact ⟨rfl, h.rows, h.bloom, h.lsn, h.ver, ⟨tail, hwal, htorn, hlast⟩, h.ckpt⟩

theorem replayRecord_ofOp (t : Tablet) (op : Op) :
    t.replayRecord (.ofOp op) = { t.update op with lsn := bump t.lsn } := by
  have hne : WAL_DELETE ≠ WAL_PUT := by decide
  cases op with
  | put row col val => rfl
  | del row col =>
      unfold Tablet.replayRecord
      simp only [WalRecord.ofOp, if_neg hne, if_true]
      rfl

/-- Replayed records reach map and filter like operations. -/
theorem foldl_replayRecord_ofOp (ops : List Op) (hrows : t.rows = r.rows) (hbloom : t.bloom = r.bloom) :
    ((ops.map WalRecord.ofOp).foldl Tablet.replayRecord t).rows = (ops.foldl Replica.apply r).rows ∧
      ((ops.map WalRecord.ofOp).foldl Tablet.replayRecord t).bloom = (ops.foldl Replica.apply r).bloom := by
  induction ops generalizing t r with
  | nil => exact ⟨hrows, hbloom⟩
  | cons op ops ih =>
      rw [List.map_cons, List.foldl_cons, List.foldl_cons, replayRecord_ofOp, update_eq hrows hbloom]
      exact ih rfl rfl

theorem map_replayWal (t : Tablet) (resizeOk : Bool) :
    (t.replayWal resizeOk).rows = ((scan readRecord t.disk.wal).1.foldl Tablet.replayRecord t).rows ∧
      (t.replayWal resizeOk).bloom = ((scan readRecord t.disk.wal).1.foldl Tablet.replayRecord t).bloom := by
  unfold Tablet.replayWal
  cases resizeOk with
  | true => exact ⟨rfl, rfl⟩
  | false => exact ⟨rfl, rfl⟩

/-- **Recovery** counts what the two files hold. -/
theorem Represents.recover (h : r.Represents t) (hlt : r.diskLog.length < 2 ^ 64) :
    ∃ t', (Tablet.ofDisk t.disk).recover true = some t' ∧ r.recover.Represents t' := by
  obtain ⟨tail, hwal, hscan⟩ := h.scan_wal
  obtain ⟨t', hrec, -, hlsn, hver, hstream, hckpt, hcut⟩ := Tablet.recover_ofDisk h.ckpt hscan true
  have hlen : r.ckpt.log.length + (r.wal.map WalRecord.ofOp).length = r.diskLog.length := by
    unfold diskLog
    rw [List.length_append, List.length_map, List.length_map]
  rw [hlen, Nat.mod_eq_of_lt hlt] at hlsn
  -- map and filter, from the records
  have hmap : t'.rows = r.recover.rows ∧ t'.bloom = r.recover.bloom := by
    have heq := hrec
    rw [Tablet.recover, Tablet.loadCheckpoint_ofDisk, h.ckpt] at heq
    rw [← Option.some.inj heq]
    obtain ⟨hrows, hbloom⟩ := map_replayWal { Tablet.ofDisk t.disk with
      rows := r.ckpt.rows, bloom := r.ckpt.bloom, lsn := r.ckpt.log.length, checkpointVersion := r.ckpt.ver } true
    rw [show scan readRecord (Tablet.ofDisk t.disk).disk.wal = (r.wal.map WalRecord.ofOp, tail) from hscan]
      at hrows hbloom
    obtain ⟨hrows', hbloom'⟩ := foldl_replayRecord_ofOp (r := { r with rows := r.ckpt.rows, bloom := r.ckpt.bloom })
      (t := { Tablet.ofDisk t.disk with rows := r.ckpt.rows, bloom := r.ckpt.bloom, lsn := r.ckpt.log.length,
                                        checkpointVersion := r.ckpt.ver }) r.wal rfl rfl
    exact ⟨hrows.trans hrows', hbloom.trans hbloom'⟩
  have hwal' : r.recover.wal = r.wal := foldl_apply_wal r.wal { r with rows := r.ckpt.rows, bloom := r.ckpt.bloom }
  have hckpt' : r.recover.ckpt = r.ckpt :=
    foldl_apply_ckpt r.wal { r with rows := r.ckpt.rows, bloom := r.ckpt.bloom }
  refine ⟨t', hrec, hmap.1, hmap.2, hlsn, hver, ⟨[], ?_, readRecord_nil, fun _ => rfl⟩, ?_⟩
  · rw [hcut rfl, hwal', List.append_nil, hwal, List.length_append, Nat.add_sub_cancel, List.take_left]
  · rw [hckpt, hckpt', h.ckpt]

/-! ## Snapshots -/

/-- What a blob with these rows is an image of, when its LSN counts `log`. -/
def imageOf (log : Log) (ver : Nat) (rl : Listing) : Image :=
  { log := log, ver := ver, rows := rl.map (fun p => (p.1, colsOf p.2)) }

/-- **A snapshot that is loaded.** Its rows may be of different moments, and an LSN may
count what they do not hold. -/
theorem Represents.install (h : r.Represents t) {blob rest : Bytes} {ver lsn : Nat} {rl : Listing}
    (hread : readSnapshot blob = some ((ver, lsn, rl), rest)) {log : Log} (hlog : log.length = lsn) :
    ∃ t', t.installSnapshot blob = some t' ∧ (r.install (imageOf log ver rl)).Represents t' := by
  have hload : t.installSnapshot blob = some { t with
      rows := Tablet.emplaceRows rl, bloom := rl.foldl (fun b p => b.add p.1.1) .empty, lsn := lsn,
      checkpointVersion := ver } := by
    unfold Tablet.installSnapshot
    rw [hread]
  refine ⟨_, hload, ?_, ?_, hlog.symm, rfl, h.wal, h.ckpt⟩
  · show Tablet.emplaceRows rl = (rl.map _).foldl _ ∅
    rw [List.foldl_map]
    rfl
  · show rl.foldl _ BloomFilter.empty = (rl.map _).foldl _ BloomFilter.empty
    rw [List.foldl_map]

/-- The blob that a tablet writes while nobody else does, read back. -/
theorem Represents.snapshotBlob (h : r.Represents t) {rl : Listing} (hl : Lists rl t.rows) (hfits : t.rows.Fits)
    (hlsn : r.lsn < 2 ^ 64) (hver : r.ver < 2 ^ 64) :
    readSnapshot (t.snapshotBlob rl) = some ((r.ver, r.lsn, rl), []) ∧ (imageOf r.log r.ver rl).Fits ∧
      (r.rowMissing = false →
        (r.header (rl.map Prod.fst)).image (rl.map (fun p => (p.1, colsOf p.2))) false = imageOf r.log r.ver rl) := by
  obtain ⟨h1, h2⟩ := hl.fits hfits
  refine ⟨?_, ⟨?_, fun p hp => ?_⟩, fun hmissing => ?_⟩
  · unfold Tablet.snapshotBlob
    rw [h.ver, h.lsn]
    exact readSnapshot_encode_of_fits hver hlsn h1 h2
  · show (rl.map _).length < 2 ^ 32
    rw [List.length_map]
    exact h1
  · obtain ⟨q, hq, rfl⟩ := List.mem_map.mp hp
    exact hfits.ncols q.1 (colsOf q.2) (hl.lookup hq)
  · show Image.mk (if r.rowMissing || false then r.log.dropLast ++ [none] else r.log) r.ver _ = _
    rw [hmissing]
    rfl

/-! ## Deltas -/

/-- The entries of a delta in bytes. -/
def deltaBytes (es : List (Op × Nat)) : Bytes := es.flatMap (fun e => Tablet.encodeEntry e.2 (.ofOp e.1))

theorem deltaBytes_zipIdx (first m k : Nat) (ops : List Op) :
    ((ops.map WalRecord.ofOp).zipIdx k).flatMap (fun e =>
        if first + e.2 ≤ m then [] else Tablet.encodeEntry (first + e.2) e.1) =
      deltaBytes ((ops.zipIdx (first + k)).filter (fun e => decide (m < e.2))) := by
  induction ops generalizing k with
  | nil => rfl
  | cons op ops ih =>
      rw [List.map_cons, List.zipIdx_cons, List.zipIdx_cons, List.flatMap_cons, ih (k + 1), ← Nat.add_assoc]
      by_cases hold : first + k ≤ m
      · rw [if_pos hold, List.filter_cons_of_neg (by simpa using hold)]
        rfl
      · rw [if_neg hold, List.filter_cons_of_pos (by simpa using hold)]
        rfl

/-- **A delta that is sent** has the entries that the replica sends. -/
theorem Represents.walDeltaAfter (h : r.Represents t) (m : Nat) :
    t.walDeltaAfter m = u64 m ++ deltaBytes (r.walDeltaAfter m) := by
  obtain ⟨tail, -, hscan⟩ := h.scan_wal
  have hfirst : t.firstEntryLsn (r.wal.map WalRecord.ofOp).length = r.firstEntryLsn := by
    unfold Tablet.firstEntryLsn Replica.firstEntryLsn
    rw [List.length_map, h.lsn]
  unfold Tablet.walDeltaAfter Replica.walDeltaAfter
  rw [hscan]
  dsimp only
  rw [hfirst, deltaBytes_zipIdx]
  rfl

/-- The loop of `apply_wal_delta_blob`, when nothing comes in between. `io k` is what the disk
takes of the record `k` that is logged. -/
def applyDelta (r : Replica) : List (Op × Nat) → (io : Nat → Nat) → Bool × Replica
  | [], _ => (true, r)
  | (op, n) :: es, io =>
      match r.logNext (io 0) n op with
      | (.known, r) => applyDelta r es io
      | (.refused, r) => (false, r)
      | (.logged, r) => applyDelta (r.apply op) es (fun k => io (k + 1))

/-- An entry whose LSN is a 64-bit number, and whose lengths add up in 32 bits. -/
def Fits (e : Op × Nat) : Prop := e.2 < 2 ^ 64 ∧ e.1.size < 2 ^ 32

theorem size_ofOp (op : Op) : (WalRecord.ofOp op).row.1.length + (WalRecord.ofOp op).col.1.length +
    (WalRecord.ofOp op).val.1.length = op.size := by
  cases op with
  | put row col val => rfl
  | del row col => rfl

theorem applyEntry_eq (hn : n = bump t.lsn) (op : Op) (w : WalWrite) :
    t.applyEntry n (.ofOp op) w = match t.write op w with
      | (none, t) => (false, t)
      | (some _, t) => (true, t) := by
  have hne : WAL_DELETE ≠ WAL_PUT := by decide
  rw [← replicated_eq hn op w]
  unfold Tablet.applyEntry
  cases op with
  | put row col val => rfl
  | del row col =>
      simp only [WalRecord.ofOp, if_neg hne, if_true]
      rfl

/-- One turn of the loop. -/
theorem applyDeltaLoop_cons {op : Op} {es : List (Op × Nat)} (hfits : Fits (op, n)) (fuel : Nat)
    (ws : List WalWrite) (t : Tablet) :
    t.applyDeltaLoop (fuel + 1) (deltaBytes ((op, n) :: es)) ws =
      if n ≤ t.lsn then t.applyDeltaLoop fuel (deltaBytes es) ws
      else if n ≠ bump t.lsn then (false, t)
      else
        match t.write op (ws.headD .ok) with
        | (none, t) => (false, t)
        | (some _, t) => t.applyDeltaLoop fuel (deltaBytes es) ws.tail := by
  have hbytes : deltaBytes ((op, n) :: es) = Tablet.encodeEntry n (.ofOp op) ++ deltaBytes es := List.flatMap_cons
  have hne : Tablet.encodeEntry n (.ofOp op) ++ deltaBytes es ≠ [] := by
    have hlong := Tablet.encodeEntry_length n (.ofOp op)
    intro hnil
    rw [(List.append_eq_nil_iff.mp hnil).1] at hlong
    exact absurd hlong (by simp)
  obtain ⟨mid, hhead, hlens⟩ := Tablet.readEntryHead_append hfits.1 (.ofOp op) (deltaBytes es)
  rw [hbytes, Tablet.applyDeltaLoop, if_neg hne, hhead]
  dsimp only
  by_cases hknown : n ≤ t.lsn
  · -- skipped by its lengths
    generalize hr : WalRecord.ofOp op = rec at hlens
    have hsum : rec.row.1.length + rec.col.1.length + rec.val.1.length < 2 ^ 32 := by
      rw [← hr, size_ofOp]
      exact hfits.2
    have hwithin : ¬ rec.row.1.length + rec.col.1.length + rec.val.1.length >
        (rec.row.1 ++ (rec.col.1 ++ (rec.val.1 ++ deltaBytes es))).length := by
      simp only [List.length_append]
      omega
    have hdrop : (rec.row.1 ++ (rec.col.1 ++ (rec.val.1 ++ deltaBytes es))).drop
        (rec.row.1.length + rec.col.1.length + rec.val.1.length) = deltaBytes es := by
      rw [← List.append_assoc, ← List.append_assoc]
      exact List.drop_left' (by simp only [List.length_append])
    rw [if_pos hknown, if_pos hknown, hlens]
    dsimp only
    rw [if_neg hwithin, Nat.mod_eq_of_lt hsum, hdrop]
  · rw [if_neg hknown, if_neg hknown]
    by_cases hnext : n = bump t.lsn
    · rw [if_neg (not_not.mpr hnext), if_neg (not_not.mpr hnext), hlens]
      dsimp only
      rw [Tablet.readEntryFields_append]
      dsimp only
      rw [applyEntry_eq hnext op]
      cases t.write op (ws.headD .ok) with
      | mk o t' =>
          cases o with
          | none => rfl
          | some k => rfl
    · rw [if_pos hnext, if_pos hnext]

theorem room_eq (h : t'.stream = t.stream) (w : WalWrite) : room t' w = room t w := by
  cases w with
  | ok => rw [room, room, h]
  | short m => rfl

/-- A write that went through leaves a good stream good. -/
theorem stream_write (h : (t.write op w).1 ≠ none) : (t.write op w).2.stream = t.stream := by
  unfold Tablet.write at h ⊢
  rcases Tablet.writeWal_cases t op w with ⟨-, heq⟩ | ⟨-, p, -, heq⟩ | heq
  · rw [heq]
    exact (update_rest _ op).2
  · rw [heq] at h
    exact absurd rfl h
  · rw [heq] at h
    exact absurd rfl h

/-- The loop. -/
theorem Represents.applyDeltaLoop (h : r.Represents t) {es : List (Op × Nat)} (hfits : ∀ e ∈ es, Fits e)
    (hlt : r.lsn + es.length < 2 ^ 64) {ws : List WalWrite} {io : Nat → Nat}
    (hio : ∀ k, io k = room t (ws.getD k .ok)) {fuel : Nat} (hfuel : es.length ≤ fuel) :
    (t.applyDeltaLoop fuel (deltaBytes es) ws).1 = (r.applyDelta es io).1 ∧
      (r.applyDelta es io).2.Represents (t.applyDeltaLoop fuel (deltaBytes es) ws).2 := by
  induction es generalizing r t ws io fuel with
  | nil =>
      cases fuel with
      | zero => exact ⟨rfl, h⟩
      | succ fuel => exact ⟨rfl, h⟩
  | cons e es ih =>
      obtain ⟨op, n⟩ := e
      rw [List.length_cons] at hlt hfuel
      obtain ⟨fuel, rfl⟩ : ∃ m, fuel = m + 1 := ⟨fuel - 1, by omega⟩
      obtain ⟨hfits₀, hrest⟩ := List.forall_mem_cons.mp hfits
      rw [applyDeltaLoop_cons hfits₀, h.bump_lsn (by omega), h.lsn]
      unfold applyDelta logNext
      by_cases hknown : n ≤ r.lsn
      · rw [if_pos hknown, if_pos hknown]
        exact ih h hrest (by omega) hio (by omega)
      · rw [if_neg hknown, if_neg hknown]
        by_cases hnext : n = r.lsn + 1
        · rw [if_neg (not_not.mpr hnext), if_neg (not_not.mpr hnext)]
          have hfirst : io 0 = room t (ws.headD .ok) := by
            rw [hio]
            cases ws with
            | nil => rfl
            | cons w ws => rfl
          have hstream := @stream_write t op (ws.headD .ok)
          rw [hfirst]
          rcases h.write_cases (by omega) op (ws.headD .ok) with ⟨h0, t', heq, hrep⟩ | ⟨h0, t', heq, hrep⟩
          · rw [heq, if_pos h0]
            exact ⟨rfl, hrep⟩
          · rw [heq] at hstream ⊢
            rw [if_neg h0]
            -- the record went through, so the stream is what it was for the rest
            have hsame : t'.stream = t.stream := hstream (by simp)
            have hshift : ∀ k, io (k + 1) = room t' (ws.tail.getD k .ok) := by
              intro k
              rw [hio, room_eq hsame]
              cases ws with
              | nil => rfl
              | cons w ws => rfl
            have hlen : ((r.record op).apply op).lsn = r.lsn + 1 := List.length_append
            exact ih hrep hrest (by omega) hshift (by omega)
        · rw [if_pos hnext, if_pos hnext]
          exact ⟨rfl, h⟩

/-- **A delta that is loaded.** -/
theorem Represents.applyWalDeltaBlob (h : r.Represents t) {es : List (Op × Nat)} (hfits : ∀ e ∈ es, Fits e)
    (hlt : r.lsn + es.length < 2 ^ 64) (m : Nat) (ws : List WalWrite) :
    (t.applyWalDeltaBlob (u64 m ++ deltaBytes es) ws).1 = (r.applyDelta es (fun k => room t (ws.getD k .ok))).1 ∧
      (r.applyDelta es (fun k => room t (ws.getD k .ok))).2.Represents
        (t.applyWalDeltaBlob (u64 m ++ deltaBytes es) ws).2 := by
  have hlong : es.length ≤ (deltaBytes es).length := by
    induction es with
    | nil => exact Nat.zero_le _
    | cons e es ih =>
        have hentry := Tablet.encodeEntry_length e.2 (.ofOp e.1)
        have hrest := ih (fun e' he' => hfits e' (List.mem_cons_of_mem _ he'))
          (by rw [List.length_cons] at hlt; omega)
        show es.length + 1 ≤ (Tablet.encodeEntry e.2 (.ofOp e.1) ++ deltaBytes es).length
        rw [List.length_append]
        omega
  unfold Tablet.applyWalDeltaBlob
  rw [word_append]
  exact h.applyDeltaLoop hfits hlt (fun _ => rfl) hlong

/-! ## Runs -/

/-- What a replica can do to its own records. -/
inductive Moves : Replica → Replica → Prop where
  | record (r : Replica) (op : Op) : Moves r (r.record op)
  | apply {r : Replica} {op : Op} : r.pending = some op → Moves r (r.apply op)
  | ckptWrite (r : Replica) : Moves r r.ckptWrite
  | ckptTruncate (r : Replica) : Moves r r.ckptTruncate
  | install (r : Replica) (image : Image) : Moves r (r.install image)
  | recover (r : Replica) : Moves r r.recover

/-- Some number of moves. -/
abbrev Goes : Replica → Replica → Prop := Relation.ReflTransGen Moves

/-- The replica can go on to where it represents `t`. -/
def Reaches (r : Replica) (t : Tablet) : Prop := ∃ r', Goes r r' ∧ r'.Represents t

/-- A step that the counters have room for and that leaves no torn record behind: the LSN
and the version are 64-bit numbers, the counts of rows and columns 32-bit numbers, a log that
could not be truncated is appended to only if its last record is whole, and a torn record is
cut off by recovery. -/
def Bounded (t : Tablet) : Tablet.Step → Prop
  | .applyWalDeltaBlob blob _ => t.lsn + blob.length < 2 ^ 64
  | .loadSnapshotBlob blob _ f => ∀ t', t.installSnapshot blob = some t' →
      t'.checkpointVersion + 1 < 2 ^ 64 ∧ (f = .reopen true → t.stream = .good)
  | .checkpoint _ f => t.rows.Fits ∧ t.lsn < 2 ^ 64 ∧ t.checkpointVersion + 1 < 2 ^ 64 ∧
      (f = .reopen true → t.stream = .good)
  | .crash _ p resizeOk => resizeOk = true ∧ t.lsn + 1 < 2 ^ 64 ∧
      ∀ c, ckptContents t.disk.ckpt = some c → c.lsn + (t.disk.wal ++ p).length < 2 ^ 64
  | _ => t.lsn + 1 < 2 ^ 64

theorem Represents.reaches (h : r.Represents t) : r.Reaches t := ⟨r, .refl, h⟩

theorem Reaches.trans (h : r'.Reaches t) (hgo : Goes r r') : r.Reaches t := by
  obtain ⟨r₁, hgo', hrep⟩ := h
  exact ⟨r₁, hgo.trans hgo', hrep⟩

theorem goes_write (r : Replica) (io : Nat) (op : Op) : Goes r (r.write io op).2 := by
  unfold Replica.write logOp
  by_cases h0 : io = 0
  · rw [if_pos h0]
  · rw [if_neg h0]
    exact (Relation.ReflTransGen.single (.record r op)).tail (.apply rfl)

theorem Represents.reaches_write (h : r.Represents t) (hlt : t.lsn + 1 < 2 ^ 64) (op : Op) (w : WalWrite) :
    r.Reaches (t.write op w).2 := by
  rw [h.lsn] at hlt
  exact ⟨_, goes_write r (room t w) op, (h.write hlt op w).2⟩

/-- Whether the LSN is looked at or not. -/
theorem Represents.reaches_replicated (h : r.Represents t) (hlt : t.lsn + 1 < 2 ^ 64) (n : Nat) (op : Op)
    (w : WalWrite) : r.Reaches (t.replicated n op w).2 := by
  have hwrite := h.reaches_write hlt op w
  unfold Tablet.replicated
  split
  · exact h.reaches
  · split
    · exact h.reaches
    · cases heq : t.write op w with
      | mk o t' =>
          rw [heq] at hwrite
          cases o with
          | none => exact hwrite
          | some k => exact hwrite

theorem goes_checkpoint (r : Replica) (f : Tablet.CkptFault) : Goes r (r.checkpoint f).2 := by
  cases f with
  | none => exact (Relation.ReflTransGen.single (.ckptWrite r)).tail (.ckptTruncate _)
  | reopen b => exact .single (.ckptWrite r)
  | openTmp => exact .refl
  | writeTmp n => exact .refl
  | rename => exact .refl

/-- An entry that is applied is logged like any other operation; one with an unknown
operation byte is not. -/
theorem applyEntry_cases (hn : n = bump t.lsn) (rec : WalRecord) (w : WalWrite) :
    (∃ op, t.applyEntry n rec w = match t.write op w with
      | (none, t) => (false, t)
      | (some _, t) => (true, t)) ∨ t.applyEntry n rec w = (false, t) := by
  unfold Tablet.applyEntry
  split
  · exact .inl ⟨.put rec.row rec.col rec.val, replicated_eq hn (.put rec.row rec.col rec.val) w⟩
  · split
    · exact .inl ⟨.del rec.row rec.col, replicated_eq hn (.del rec.row rec.col) w⟩
    · exact .inr rfl

theorem lsn_write_le (t : Tablet) (op : Op) (w : WalWrite) (hlt : t.lsn + 1 < 2 ^ 64) :
    (t.write op w).2.lsn ≤ t.lsn + 1 := by
  have hbump : bump t.lsn = t.lsn + 1 := Nat.mod_eq_of_lt hlt
  unfold Tablet.write
  rcases Tablet.writeWal_cases t op w with ⟨-, heq⟩ | ⟨-, p, -, heq⟩ | heq
  · rw [heq]
    show (Tablet.update _ op).lsn ≤ t.lsn + 1
    rw [(update_rest _ op).1]
    exact Nat.le_of_eq hbump
  · rw [heq]
    exact Nat.le_succ t.lsn
  · rw [heq]
    exact Nat.le_succ t.lsn

/-- Whatever bytes a delta is made of. -/
theorem Represents.reaches_applyDeltaLoop (h : r.Represents t) {fuel : Nat} (hlt : t.lsn + fuel < 2 ^ 64)
    (rest : Bytes) (ws : List WalWrite) : r.Reaches (t.applyDeltaLoop fuel rest ws).2 := by
  induction fuel generalizing r t rest ws with
  | zero => exact h.reaches
  | succ fuel ih =>
      rw [Tablet.applyDeltaLoop]
      split
      · exact h.reaches
      · split
        · exact h.reaches
        · split
          · -- an entry that is known moves nothing
            split
            · exact h.reaches
            · split
              · exact h.reaches
              · exact ih h (by omega) _ _
          · -- a gap, a torn entry, or an entry that is applied
            split
            · exact h.reaches
            · rename_i hgap
              split
              · exact h.reaches
              · split
                · exact h.reaches
                · rename_i op _ _ _ _ _ _ row col val _ _
                  rcases applyEntry_cases (not_not.mp hgap) ⟨op, row, col, val⟩ (ws.headD .ok) with ⟨op', heq⟩ | heq
                  · obtain ⟨r', hgo, hrep⟩ := h.reaches_write (by omega) op' (ws.headD .ok)
                    have hle := lsn_write_le t op' (ws.headD .ok) (by omega)
                    rw [heq]
                    cases hwrite : t.write op' (ws.headD .ok) with
                    | mk o t' =>
                        rw [hwrite] at hrep hle
                        cases o with
                        | none => exact ⟨r', hgo, hrep⟩
                        | some k =>
                            have hle : t'.lsn ≤ t.lsn + 1 := hle
                            exact (ih hrep (by omega) _ _).trans hgo
                  · rw [heq]
                    exact h.reaches

theorem Represents.reaches_checkpoint (h : r.Represents t) {rl : Listing} (hl : Lists rl t.rows)
    (hfits : t.rows.Fits) (hlsn : t.lsn < 2 ^ 64) (hver : t.checkpointVersion + 1 < 2 ^ 64) {f : Tablet.CkptFault}
    (hgood : f = .reopen true → t.stream = .good) : r.Reaches (t.checkpointLocked rl f).2 := by
  rw [h.lsn] at hlsn
  rw [h.ver] at hver
  exact ⟨_, goes_checkpoint r f, (h.checkpoint hl hfits hlsn hver hgood).2⟩

theorem Represents.reaches_loadSnapshotBlob (h : r.Represents t) {blob : Bytes} {rl : Listing} {f : Tablet.CkptFault}
    (hv : t.Valid (.loadSnapshotBlob blob rl f)) (hb : Bounded t (.loadSnapshotBlob blob rl f)) :
    r.Reaches (t.loadSnapshotBlob blob rl f).2 := by
  unfold Tablet.loadSnapshotBlob
  cases hload : t.installSnapshot blob with
  | none => exact h.reaches
  | some t₁ =>
      obtain ⟨hver, hgood⟩ := hb t₁ hload
      obtain ⟨hfits, hlsn⟩ := Tablet.installSnapshot_fits hload
      cases hread : readSnapshot blob with
      | none =>
          unfold Tablet.installSnapshot at hload
          rw [hread] at hload
          exact absurd hload (by simp)
      | some q =>
          obtain ⟨⟨ver, lsn, rl'⟩, rest⟩ := q
          obtain ⟨t₂, hload', hrep⟩ := h.install hread (List.length_replicate (a := (none : Option Op)))
          obtain rfl := Option.some.inj (hload.symm.trans hload')
          have hstream : t₁.stream = t.stream := by
            unfold Tablet.installSnapshot at hload
            rw [hread] at hload
            rw [← Option.some.inj hload]
          have hreach := hrep.reaches_checkpoint (hv t₁ hload) hfits hlsn hver (f := f)
            (fun hf => hstream.trans (hgood hf))
          exact hreach.trans (.single (.install r _))

/-- There are no more records than bytes. -/
theorem Represents.length_wal_le (h : r.Represents t) : r.wal.length ≤ t.disk.wal.length := by
  obtain ⟨tail, -, hscan⟩ := h.scan_wal
  have hle := scan_length_le consumes_readRecord t.disk.wal
  rw [hscan, List.length_map] at hle
  exact hle

/-- The files when the process dies in the middle of an append: the record is there, or it
reads as nothing. -/
theorem Represents.append (h : r.Represents t) (hlt : t.lsn + 1 < 2 ^ 64) {op : Op} {p : Bytes}
    (hp : p <+: (WalRecord.ofOp op).encode) (hs : t.stream = .good ∨ p = []) :
    ∃ r₁ t₁, Goes r r₁ ∧ r₁.Represents t₁ ∧ t₁.disk = (t.appendWal p).disk := by
  by_cases hwhole : p = (WalRecord.ofOp op).encode
  · have hgood : t.stream = .good := by
      refine hs.resolve_right (fun hnil => ?_)
      have hlen := congrArg List.length (hwhole.symm.trans hnil)
      simp [WalRecord.encode] at hlen
    have hroom : room t .ok = 1 := if_pos hgood
    rw [h.lsn] at hlt
    have hwrite := (h.writeWal hlt op .ok).2
    rw [hroom] at hwrite
    refine ⟨r.record op, _, .single (.record r op), hwrite, ?_⟩
    unfold Tablet.writeWal
    rw [hgood, hwhole]
  · obtain ⟨tail, hwal, htorn, hlast⟩ := h.wal
    refine ⟨r, { t.appendWal p with stream := .failed }, .refl, ⟨h.rows, h.bloom, h.lsn, h.ver, ?_, h.ckpt⟩, rfl⟩
    rcases hs with hgood | rfl
    · obtain rfl := hlast hgood
      refine ⟨p, ?_, readRecord_torn hp hwhole, fun hgood => absurd hgood (by simp)⟩
      show t.disk.wal ++ p = _
      rw [hwal, List.append_nil]
    · refine ⟨tail, ?_, htorn, fun hgood => absurd hgood (by simp)⟩
      show t.disk.wal ++ [] = _
      rw [hwal, List.append_nil]

/-- A crash in the middle of a write, and recovery. -/
theorem Represents.reaches_crash (h : r.Represents t) {op : Op} {p : Bytes} {resizeOk : Bool}
    (hv : t.Valid (.crash op p resizeOk)) (hb : Bounded t (.crash op p resizeOk))
    (he : t.exec (.crash op p resizeOk) = some t') : r.Reaches t' := by
  obtain ⟨rfl, hlt, hroom⟩ := hb
  obtain ⟨r₁, t₁, hgo, hrep, hdisk⟩ := h.append hlt hv.1 hv.2
  have hckpt : ckptContents t.disk.ckpt = _ := (congrArg (fun d => ckptContents d.ckpt) hdisk).symm.trans hrep.ckpt
  have hbound : r₁.diskLog.length < 2 ^ 64 := by
    have hfile : t₁.disk.wal = t.disk.wal ++ p := congrArg Disk.wal hdisk
    have hle := hrep.length_wal_le
    have hsum := hroom _ hckpt
    rw [hfile] at hle
    unfold diskLog
    rw [List.length_append, List.length_map]
    dsimp only at hsum
    omega
  obtain ⟨t₂, hrec, hrep₂⟩ := hrep.recover hbound
  rw [hdisk] at hrec
  obtain rfl := Option.some.inj (hrec.symm.trans he)
  exact ⟨_, hgo.tail (.recover r₁), hrep₂⟩

/-- **Every step** of a tablet is some moves of its replica. -/
theorem Represents.reaches_step (h : r.Represents t) {s : Tablet.Step} (hv : t.Valid s) (hb : Bounded t s)
    (he : t.exec s = some t') : r.Reaches t' := by
  cases s with
  | put row col val w =>
      obtain rfl := Option.some.inj he
      exact h.reaches_write hb (.put row col val) w
  | cput row col v1 v2 w =>
      obtain rfl := Option.some.inj he
      rw [cput_eq_write]
      split
      · exact h.reaches_write hb (.put row col v2) w
      · exact h.reaches
  | del row col w =>
      obtain rfl := Option.some.inj he
      have hwrite := h.reaches_write hb (.del row col) w
      rw [del_eq_write]
      split
      · exact h.reaches
      · cases heq : t.write (.del row col) w with
        | mk o t₁ =>
            rw [heq] at hwrite
            cases o with
            | none => exact hwrite
            | some k => exact hwrite
  | applyReplicatedPut row col val n w =>
      obtain rfl := Option.some.inj he
      rw [applyReplicatedPut_eq]
      exact h.reaches_replicated hb n (.put row col val) w
  | applyReplicatedDelete row col n w =>
      obtain rfl := Option.some.inj he
      rw [applyReplicatedDelete_eq]
      exact h.reaches_replicated hb n (.del row col) w
  | applyReplicatedDeleteAssigning row col w =>
      obtain rfl := Option.some.inj he
      exact h.reaches_write hb (.del row col) w
  | applyWalDeltaBlob blob ws =>
      obtain rfl := Option.some.inj he
      unfold Tablet.applyWalDeltaBlob
      split
      · exact h.reaches
      · rename_i m rest hword
        have hle : rest.length ≤ blob.length := (cuts_word 8).shrinks _ _ _ hword
        have hb : t.lsn + blob.length < 2 ^ 64 := hb
        exact h.reaches_applyDeltaLoop (by omega) rest ws
  | loadSnapshotBlob blob rl f =>
      obtain rfl := Option.some.inj he
      exact h.reaches_loadSnapshotBlob hv hb
  | checkpoint rl f =>
      obtain rfl := Option.some.inj he
      obtain ⟨hfits, hlsn, hver, hgood⟩ := hb
      exact h.reaches_checkpoint hv hfits hlsn hver hgood
  | crash op p resizeOk => exact h.reaches_crash hv hb he

/--
**Every run.**

Whatever a tablet goes through on its files, from an empty data directory and within its
counters, a replica goes through with it, and represents it in the end.
-/
theorem represents_of_reach (h : t.Reach Bounded) : empty.Reaches t := by
  induction h with
  | fresh => exact represents_fresh.reaches
  | step s _ hv hb he ih =>
      obtain ⟨r, hgo, hrep⟩ := ih
      exact (hrep.reaches_step hv hb he).trans hgo

end Replica

end NCloud
