import NCloud.Storage.Bloom
import NCloud.Storage.Rows

/-!
# A replica

What replication sees of a tablet: its map and filter, the operations its LSN counts,
the records in its log file and what the checkpoint file holds. The bytes underneath
are the business of `Storage`; `Replication.Refinement` is the bridge.

A write appends to the log file and moves `lsn_` under `wal_mu_` before it takes
`rows_mu_` to touch the map, and `snapshot_blob` takes `rows_mu_` alone. So there are
moments at which the LSN is ahead of the map, and a snapshot taken then counts an
operation that it does not hold. In the log such an LSN stands for nothing: a log is
a list of operations with holes.

The files and messages count rows, columns and bytes in 32 bits. What a process makes of
one in which such a number has wrapped is anybody's guess (`Garble`). Nothing is ever
appended behind a torn record, and LSNs stay below 2 ^ 64 (`Replica.Bounded`).

A node adds its role, its replica list, the lock its client writes take, and the
number of times its process has started.
-/

namespace NCloud

open Wire

/-- Node ids are strings. -/
abbrev NodeId := Bytes

/-- What the LSNs of a tablet stand for. A hole is an LSN that was taken over from a
snapshot without its operation. -/
abbrev Log := List (Option Op)

/-- The operation with LSN `k`. -/
def opAt (log : Log) : Nat → Option Op
  | 0 => none
  | k + 1 => log[k]?.join

/-- What is in a cell after the operations of the log. -/
def valueAt (log : Log) (c : Field × Field) : Option Field :=
  log.foldl (fun v e => match e with
    | some op => if op.cell = c then op.value else v
    | none => v) none

/-- The checkpoint file, and the operations that its LSN counts. -/
structure CheckpointFile where
  log : Log
  ver : Nat
  rows : Rows
  bloom : BloomFilter

/-- The tablet of a node: `rows_`, `bloom_`, what `lsn_` counts, `checkpoint_version_`;
the files; and the locks. `pending` is the record that its writer has appended and not
yet brought into the map, `walMu` the thread that holds `wal_mu_`, and `readers` the
number of snapshots that hold `rows_mu_`. -/
structure Replica where
  rows : Rows
  bloom : BloomFilter
  log : Log
  ver : Nat
  wal : List Op
  ckpt : CheckpointFile
  pending : Option Op
  walMu : Option Nat
  readers : Nat

/-- What a process makes of numbers that have wrapped: the rows of a snapshot, if it
loads; the rows and the filter of a checkpoint file; the rest of a delta. -/
structure Garble where
  snapshot : Nat → Option (List (Field × Cols))
  ckpt : Nat → Rows × BloomFilter
  delta : Nat → List (Op × Nat)

/-- A storage node as far as one tablet goes. `cleared` counts the calls of
`clear_replicas`, `writing` is the thread that holds `primary_write_mu_`, and `walk` is
the order in which the process would walk its map. -/
structure Node where
  tablet : Replica
  isPrimary : Bool
  replicas : List NodeId
  cleared : Nat
  writing : Option Nat
  pid : Nat
  walk : Nat → Rows → List Field
  garble : Garble

/-- A `ReplicaInfo*`: whom it stands for, and how often the list had been cleared when
the entry was made. The next `clear_replicas` frees it. -/
structure ReplicaPtr where
  id : NodeId
  made : Nat
  deriving DecidableEq

/-- The header of a snapshot: the operations its LSN counts, the version, and the rows
to come. `missing` says that the row of the last operation is not among them. -/
structure Header where
  log : Log
  ver : Nat
  order : List Field
  missing : Bool

/-- What goes into the blob of a `+SNAPSHOT`. -/
structure Image where
  log : Log
  ver : Nat
  rows : List (Field × Cols)

/-- The counts of a snapshot are 32-bit numbers. -/
structure Image.Fits (image : Image) : Prop where
  nrows : image.rows.length < 2 ^ 32
  ncols : ∀ p ∈ image.rows, p.2.keys.card < 2 ^ 32

instance (image : Image) : Decidable image.Fits :=
  decidable_of_iff (image.rows.length < 2 ^ 32 ∧ ∀ p ∈ image.rows, p.2.keys.card < 2 ^ 32)
    ⟨fun h => ⟨h.1, h.2⟩, fun h => ⟨h.nrows, h.ncols⟩⟩

/-- The parsed blob of an answer to SYNC_FROM. -/
inductive SyncBlob where
  | delta (entries : List (Op × Nat))
  | snapshot (image : Image)

/-- What becomes of an operation that comes with its LSN. -/
inductive Receipt where
  /-- The LSN is behind. -/
  | known
  /-- It leaves a gap, or the record could not be written. -/
  | refused
  | logged
  deriving DecidableEq

namespace Replica

/-- An empty data directory. -/
def empty : Replica where
  rows := ∅
  bloom := .empty
  log := []
  ver := 0
  wal := []
  ckpt := ⟨[], 0, ∅, .empty⟩
  pending := none
  walMu := none
  readers := 0

/-- `lsn`. -/
def lsn (t : Replica) : Nat := t.log.length

/-! ## The map -/

/-- `find_row` behind the filter. -/
def findRow (t : Replica) (row : Field) : Option Cols :=
  if t.bloom.mayContain row.1 then t.rows.lookup row else none

/-- `get`. -/
def get (t : Replica) (row col : Field) : Option Field :=
  (t.findRow row).bind (fun cols => cols.lookup col)

/-- `get_or_create_row`: a new row enters the filter. -/
def filterFor (t : Replica) : Op → BloomFilter
  | .put row _ _ => if row ∈ t.rows then t.bloom else t.bloom.add row.1
  | .del _ _ => t.bloom

/-- The row update of a logged operation. -/
def apply (t : Replica) (op : Op) : Replica :=
  { t with rows := t.rows.apply op, bloom := t.filterFor op, pending := none }

/-! ## The log -/

/-- Append a record and move `lsn_`. -/
def record (t : Replica) (op : Op) : Replica :=
  { t with log := t.log ++ [some op], wal := t.wal ++ [op], pending := some op }

/-- `write_wal_put` and `write_wal_delete`, with room for `io` records on disk. -/
def logOp (t : Replica) (io : Nat) (op : Op) : Option Nat × Replica :=
  if io = 0 then (none, t) else (some (t.lsn + 1), t.record op)

/-- The check of the LSN that replicated operations and delta entries begin with, and
the record. -/
def logNext (t : Replica) (io n : Nat) (op : Op) : Receipt × Replica :=
  if n ≤ t.lsn then (.known, t)
  else if n ≠ t.lsn + 1 then (.refused, t)
  else if io = 0 then (.refused, t)
  else (.logged, t.record op)

/-- The LSN of the first record in the log file, counted back from `lsn_`. -/
def firstEntryLsn (t : Replica) : Nat :=
  if t.wal.length > t.lsn then 1 else t.lsn - t.wal.length + 1

/-- `wal_delta_after`. -/
def walDeltaAfter (t : Replica) (after : Nat) : List (Op × Nat) :=
  (t.wal.zipIdx t.firstEntryLsn).filter (fun e => decide (after < e.2))

/-! ## Operations with nothing in between -/

/-- `put`. -/
def put (t : Replica) (io : Nat) (row col val : Field) : Option Nat × Replica :=
  match t.logOp io (.put row col val) with
  | (none, t) => (none, t)
  | (some n, t) => (some n, t.apply (.put row col val))

/-- `cput`, which holds `wal_mu_` and the lock of its row from end to end. -/
def cput (t : Replica) (io : Nat) (row col v1 v2 : Field) : Option Nat × Replica :=
  if t.get row col = some v1 then t.put io row col v2 else (none, t)

/-- `del`, likewise. A row behind the filter has nothing to delete. -/
def del (t : Replica) (io : Nat) (row col : Field) : Option (Option Nat) × Replica :=
  if t.get row col = none then (some none, t)
  else
    match t.logOp io (.del row col) with
    | (none, t) => (none, t)
    | (some n, t) => (some (some n), t.apply (.del row col))

/-! ## Checkpoints and recovery -/

/-- `checkpoint_locked` up to the rename. -/
def ckptWrite (t : Replica) : Replica :=
  { t with ckpt := ⟨t.log, t.ver + 1, t.rows, t.bloom⟩ }

/-- The rest of it: the log file is truncated, and the version moves. -/
def ckptTruncate (t : Replica) : Replica := { t with wal := [], ver := t.ver + 1 }

/-- What `recover` counts: the checkpoint's operations and then every record in the log
file, whether the checkpoint holds it or not. -/
def diskLog (t : Replica) : Log := t.ckpt.log ++ t.wal.map some

/-- `recover`, in a new process. -/
def recover (t : Replica) : Replica :=
  { t.wal.foldl apply { t with rows := t.ckpt.rows, bloom := t.ckpt.bloom } with
    log := t.diskLog
    ver := t.ckpt.ver
    pending := none
    walMu := none
    readers := 0 }

/-! ## Snapshots -/

/-- The last operation is a put whose row does not exist yet. -/
def rowMissing (t : Replica) : Bool :=
  match t.pending with
  | some (.put row _ _) => decide (row ∉ t.rows)
  | _ => false

/-- `snapshot_blob` takes `rows_mu_` and writes its header. -/
def header (t : Replica) (order : List Field) : Header :=
  { log := t.log, ver := t.ver, order := order, missing := t.rowMissing }

/-- A row is copied while the operation with the header's LSN has yet to reach it. -/
def misses (t : Replica) (n : Nat) (key : Field) (cols : Cols) : Bool :=
  match t.pending with
  | some op => decide (t.lsn = n ∧ op.cell.1 = key ∧ cols.lookup op.cell.2 ≠ op.value)
  | none => false

/-- The first half of `load_snapshot_blob`: `emplace` keeps the first row of a name. -/
def install (t : Replica) (image : Image) : Replica :=
  { t with
    rows := image.rows.foldl (fun m p => if p.1 ∈ m then m else m.insert p.1 p.2) ∅
    bloom := image.rows.foldl (fun b p => b.add p.1.1) .empty
    log := image.log
    ver := image.ver }

end Replica

/-- The blob when every row has been copied. -/
def Header.image (h : Header) (rows : List (Field × Cols)) (missed : Bool) : Image :=
  { log := if h.missing || missed then h.log.dropLast ++ [none] else h.log
    ver := h.ver
    rows := rows }

/-! ## Logs -/

@[simp] theorem opAt_zero (log : Log) : opAt log 0 = none := rfl

theorem opAt_succ (log : Log) (k : Nat) : opAt log (k + 1) = log[k]?.join := rfl

theorem opAt_eq_some {log : Log} {k : Nat} {op : Op} (h : opAt log k = some op) :
    1 ≤ k ∧ k ≤ log.length ∧ log[k - 1]? = some (some op) := by
  cases k with
  | zero => exact absurd h (by simp)
  | succ k =>
      have h := Option.join_eq_some_iff.mp h
      have hlt := (List.getElem?_eq_some_iff.mp h).1
      exact ⟨by omega, hlt, h⟩

/-- A longer log agrees where the shorter one is defined. -/
theorem opAt_extend {log log' : Log} (h : log <+: log') {k : Nat} {op : Op}
    (hk : opAt log k = some op) : opAt log' k = some op := by
  obtain ⟨h1, hle, hget⟩ := opAt_eq_some hk
  obtain ⟨k, rfl⟩ : ∃ j, k = j + 1 := ⟨k - 1, by omega⟩
  obtain ⟨more, rfl⟩ := h
  rw [opAt_succ, List.getElem?_append_left (by omega)]
  exact hk

/-- And conversely, as far as it reaches. -/
theorem opAt_prefix_of_le {log log' : Log} (h : log <+: log') {k : Nat} (hk : k ≤ log.length) :
    opAt log k = opAt log' k := by
  cases k with
  | zero => rfl
  | succ k =>
      obtain ⟨more, rfl⟩ := h
      rw [opAt_succ, opAt_succ, List.getElem?_append_left (by omega)]

theorem opAt_append_last (log : Log) (op : Op) : opAt (log ++ [some op]) (log.length + 1) = some op := by
  simp [opAt]

/-- Extending a prefix by the next operation. -/
theorem prefix_append_of_opAt {log log' : Log} (h : log <+: log') {op : Op}
    (hop : opAt log' (log.length + 1) = some op) : log ++ [some op] <+: log' := by
  obtain ⟨more, rfl⟩ := h
  obtain ⟨-, -, hop⟩ := opAt_eq_some hop
  rw [Nat.add_sub_cancel, List.getElem?_append_right (Nat.le_refl _), Nat.sub_self] at hop
  cases more with
  | nil => exact absurd hop (by simp)
  | cons e more =>
      obtain rfl : e = some op := by simpa using hop
      exact ⟨more, by simp⟩

/-- One of these logs of the node has `op` at LSN `k`. -/
def logged (logs : List (NodeId × Log)) (k : Nat) (op : Op) (n : NodeId) : Bool :=
  logs.any (fun e => decide (e.1 = n ∧ opAt e.2 k = some op))

theorem logged_mono {logs logs' : List (NodeId × Log)} (h : logs ⊆ logs') {k : Nat} {op : Op}
    {n : NodeId} (hl : logged logs k op n = true) : logged logs' k op n = true := by
  simp only [logged, List.any_eq_true] at hl ⊢
  obtain ⟨e, he, heq⟩ := hl
  exact ⟨e, h he, heq⟩

theorem valueAt_append (log : Log) (op : Op) (c : Field × Field) :
    valueAt (log ++ [some op]) c = if op.cell = c then op.value else valueAt log c := by
  rw [valueAt, List.foldl_append]
  rfl

/-! ## Tablets -/

namespace Replica

/-- The log file holds the last operations that the LSN counts. -/
def WalFits (t : Replica) : Prop := t.wal.map some <:+ t.log

instance (t : Replica) : Decidable t.WalFits := inferInstanceAs (Decidable (_ <:+ _))

/-- The filter hides no row. -/
def Visible (t : Replica) : Prop := ∀ row ∈ t.rows, t.bloom.mayContain row.1 = true

/-- Neither in memory nor in the checkpoint file. -/
structure Sound (t : Replica) : Prop where
  rows : t.Visible
  ckpt : ∀ row ∈ t.ckpt.rows, t.ckpt.bloom.mayContain row.1 = true

variable {t t' : Replica} {op : Op} {io n k : Nat} {row col val v1 v2 : Field}

@[simp] theorem apply_log (t : Replica) (op : Op) : (t.apply op).log = t.log := rfl

@[simp] theorem apply_wal (t : Replica) (op : Op) : (t.apply op).wal = t.wal := rfl

@[simp] theorem record_log (t : Replica) (op : Op) : (t.record op).log = t.log ++ [some op] := rfl

@[simp] theorem record_wal (t : Replica) (op : Op) : (t.record op).wal = t.wal ++ [op] := rfl

theorem WalFits.record (h : t.WalFits) (op : Op) : (t.record op).WalFits := by
  obtain ⟨pre, hpre⟩ := h
  refine ⟨pre, ?_⟩
  rw [record_wal, record_log, List.map_append, ← List.append_assoc, hpre]
  rfl

/-- **What a delta says is what the LSNs stand for**, when the log file is in line. -/
theorem mem_walDeltaAfter (h : t.WalFits) {after : Nat} {e : Op × Nat} (he : e ∈ t.walDeltaAfter after) :
    opAt t.log e.2 = some e.1 ∧ after < e.2 := by
  obtain ⟨op, n⟩ := e
  obtain ⟨hmem, hlt⟩ := List.mem_filter.mp he
  obtain ⟨pre, hpre⟩ := h
  have hlen : t.lsn = pre.length + t.wal.length := by
    unfold lsn
    rw [← hpre, List.length_append, List.length_map]
  have hfirst : t.firstEntryLsn = pre.length + 1 := by
    unfold firstEntryLsn
    rw [if_neg (by omega), hlen]
    omega
  rw [hfirst] at hmem
  obtain ⟨h1, h2, h3⟩ := List.mem_zipIdx hmem
  refine ⟨?_, of_decide_eq_true hlt⟩
  obtain ⟨j, rfl⟩ : ∃ j, n = pre.length + 1 + j := ⟨n - (pre.length + 1), by omega⟩
  have hj : j < t.wal.length := by omega
  show opAt t.log (pre.length + 1 + j) = some op
  rw [show pre.length + 1 + j = (pre.length + j) + 1 by omega, opAt_succ, ← hpre,
    List.getElem?_append_right (by omega), Nat.add_sub_cancel_left, List.getElem?_map,
    List.getElem?_eq_getElem hj, h3]
  simp only [Nat.add_sub_cancel_left]
  rfl

/-! ### Operations in one piece -/

theorem put_eq (t : Replica) (io : Nat) (row col val : Field) :
    t.put io row col val = if io = 0 then (none, t)
      else (some (t.lsn + 1), (t.record (.put row col val)).apply (.put row col val)) := by
  unfold put logOp
  by_cases h0 : io = 0
  · rw [if_pos h0, if_pos h0]
  · rw [if_neg h0, if_neg h0]

/-- A `cput` goes through when it finds its value and room. -/
theorem cput_eq (t : Replica) (io : Nat) (row col v1 v2 : Field) :
    t.cput io row col v1 v2 = if t.get row col = some v1 ∧ io ≠ 0
      then (some (t.lsn + 1), (t.record (.put row col v2)).apply (.put row col v2))
      else (none, t) := by
  unfold cput
  by_cases hv : t.get row col = some v1
  · rw [if_pos hv, put_eq]
    by_cases h0 : io = 0
    · rw [if_pos h0, if_neg (fun h => h.2 h0)]
    · rw [if_neg h0, if_pos ⟨hv, h0⟩]
  · rw [if_neg hv, if_neg (fun h => hv h.1)]

/-- A `del` goes through when it finds something and room. -/
theorem del_eq (t : Replica) (io : Nat) (row col : Field) :
    t.del io row col = if t.get row col = none then (some none, t)
      else if io = 0 then (none, t)
      else (some (some (t.lsn + 1)), (t.record (.del row col)).apply (.del row col)) := by
  unfold del logOp
  by_cases h0 : io = 0
  · rw [if_pos h0, if_pos h0]
  · rw [if_neg h0, if_neg h0]

/-- Whatever logs an operation takes the next LSN for it. -/
theorem logOp_log (h : (t.logOp io op).1 = some k) :
    k = t.lsn + 1 ∧ (t.logOp io op).2.log = t.log ++ [some op] := by
  unfold logOp at h ⊢
  split
  · rename_i h0
    rw [if_pos h0] at h
    exact absurd h (by simp)
  · rename_i h0
    rw [if_neg h0] at h
    exact ⟨(Option.some.inj h).symm, rfl⟩

theorem cput_log (h : (t.cput io row col v1 v2).1 = some k) :
    k = t.lsn + 1 ∧ (t.cput io row col v1 v2).2.log = t.log ++ [some (.put row col v2)] := by
  rw [cput_eq] at h ⊢
  split
  · rename_i hfound
    rw [if_pos hfound] at h
    exact ⟨(Option.some.inj h).symm, rfl⟩
  · rename_i hmissed
    rw [if_neg hmissed] at h
    exact absurd h (by simp)

theorem del_log (h : (t.del io row col).1 = some (some k)) :
    k = t.lsn + 1 ∧ (t.del io row col).2.log = t.log ++ [some (.del row col)] := by
  rw [del_eq] at h ⊢
  by_cases hgone : t.get row col = none
  · rw [if_pos hgone] at h
    exact absurd h (by simp)
  · rw [if_neg hgone] at h ⊢
    by_cases h0 : io = 0
    · rw [if_pos h0] at h
      exact absurd h (by simp)
    · rw [if_neg h0] at h ⊢
      exact ⟨(Option.some.inj (Option.some.inj h)).symm, rfl⟩

/-! ### The filter -/

theorem filterFor_mono (t : Replica) (op : Op) {key : Bytes} (h : t.bloom.mayContain key = true) :
    (t.filterFor op).mayContain key = true := by
  unfold filterFor
  split
  · split
    · exact h
    · exact BloomFilter.mayContain_add _ _ h
  · exact h

/-- A row was there before the operation, or has just entered the filter. -/
theorem mem_or_visible_apply (t : Replica) (op : Op) {r : Field} (hr : r ∈ (t.apply op).rows) :
    r ∈ t.rows ∨ (t.apply op).bloom.mayContain r.1 = true := by
  by_cases hold : r ∈ t.rows
  · exact .inl hold
  · have hr : r ∈ t.rows.apply op := hr
    -- only a put makes a row
    have hrow : r = op.cell.1 := by
      by_contra hne
      rw [← Finmap.lookup_isSome, Rows.lookup_apply_of_ne hne, Finmap.lookup_isSome] at hr
      exact hold hr
    subst hrow
    cases op with
    | put row col val =>
        have hold : row ∉ t.rows := hold
        refine .inr ?_
        show (t.filterFor (.put row col val)).mayContain row.1 = true
        rw [filterFor, if_neg hold]
        exact BloomFilter.mayContain_add_self _ _
    | del row col =>
        have hnone : t.rows.lookup row = none := Finmap.lookup_eq_none.mpr hold
        have hsame : t.rows.apply (.del row col) = t.rows := by
          simp only [Rows.apply, Rows.erase, hnone]
        rw [hsame] at hr
        exact absurd hr hold

/-- An operation keeps the filter in line with the map. -/
theorem Visible.apply (h : t.Visible) (op : Op) : (t.apply op).Visible := by
  intro r hr
  rcases mem_or_visible_apply t op hr with hold | hnew
  · exact filterFor_mono t op (h r hold)
  · exact hnew

theorem Sound.apply (h : t.Sound) (op : Op) : (t.apply op).Sound := ⟨h.rows.apply op, h.ckpt⟩

theorem Sound.record (h : t.Sound) (op : Op) : (t.record op).Sound := ⟨h.rows, h.ckpt⟩

theorem Sound.ckptWrite (h : t.Sound) : t.ckptWrite.Sound := ⟨h.rows, h.rows⟩

theorem foldl_apply_ckpt (ops : List Op) (t : Replica) : (ops.foldl Replica.apply t).ckpt = t.ckpt := by
  induction ops generalizing t with
  | nil => rfl
  | cons op ops ih => rw [List.foldl_cons, ih]; rfl

theorem foldl_apply_wal (ops : List Op) (t : Replica) : (ops.foldl Replica.apply t).wal = t.wal := by
  induction ops generalizing t with
  | nil => rfl
  | cons op ops ih => rw [List.foldl_cons, ih]; rfl

/-- A new process starts in line. -/
theorem WalFits.recover (t : Replica) : t.recover.WalFits := by
  have hwal : t.recover.wal = t.wal := foldl_apply_wal t.wal { t with rows := t.ckpt.rows, bloom := t.ckpt.bloom }
  show t.recover.wal.map some <:+ t.ckpt.log ++ t.wal.map some
  rw [hwal]
  exact List.suffix_append ..

theorem Visible.foldl (h : t.Visible) (ops : List Op) : (ops.foldl Replica.apply t).Visible := by
  induction ops generalizing t with
  | nil => exact h
  | cons op ops ih => exact ih (h.apply op)

theorem Sound.recover (h : t.Sound) : t.recover.Sound := by
  have hckpt : Visible { t with rows := t.ckpt.rows, bloom := t.ckpt.bloom } := h.ckpt
  refine ⟨hckpt.foldl t.wal, ?_⟩
  have hsame : t.recover.ckpt = t.ckpt :=
    foldl_apply_ckpt t.wal { t with rows := t.ckpt.rows, bloom := t.ckpt.bloom }
  rw [hsame]
  exact h.ckpt

/-- A `get` that the filter does not stop. -/
theorem get_eq_cell (h : t.bloom.mayContain row.1 = true) : t.get row col = t.rows.cell (row, col) := by
  unfold Replica.get findRow Rows.cell
  rw [if_pos h]

/-- And one that it stops. -/
theorem get_hidden (h : t.bloom.mayContain row.1 = false) (col : Field) : t.get row col = none := by
  unfold Replica.get findRow
  rw [if_neg (by simp [h])]
  rfl

theorem mayContain_of_get {v : Field} (h : t.get row col = some v) : t.bloom.mayContain row.1 = true := by
  by_contra hhid
  rw [get_hidden (by simpa using hhid)] at h
  exact absurd h (by simp)

theorem Visible.get (h : t.Visible) (row col : Field) : t.get row col = t.rows.cell (row, col) := by
  by_cases hrow : row ∈ t.rows
  · exact get_eq_cell (h row hrow)
  · rw [Rows.cell_of_notMem hrow]
    unfold Replica.get findRow
    rw [Finmap.lookup_eq_none.mpr hrow]
    split <;> rfl

/-- A `get` after a `put` on a row that the filter knows. -/
theorem get_put (h : t.bloom.mayContain row.1 = true) :
    ((t.record (.put row col val)).apply (.put row col val)).get row col = some val := by
  have hseen : ((t.record (.put row col val)).filterFor (.put row col val)).mayContain row.1 = true :=
    filterFor_mono (t.record (.put row col val)) (.put row col val) h
  refine (get_eq_cell (t := (t.record (.put row col val)).apply (.put row col val)) hseen).trans ?_
  exact Rows.cell_apply_self t.rows (.put row col val)

theorem bloom_install (rows : List (Field × Cols)) (b : BloomFilter) {key : Bytes}
    (h : b.mayContain key = true ∨ key ∈ rows.map (fun p => p.1.1)) :
    (rows.foldl (fun b p => b.add p.1.1) b).mayContain key = true := by
  induction rows generalizing b with
  | nil => exact h.resolve_right (by simp)
  | cons p rows ih =>
      refine ih _ ?_
      rcases h with h | h
      · exact .inl (BloomFilter.mayContain_add _ _ h)
      · rcases List.mem_cons.mp h with rfl | h
        · exact .inl (BloomFilter.mayContain_add_self _ _)
        · exact .inr h

/-- A snapshot brings its filter along. -/
theorem visible_install (t : Replica) (image : Image) : (t.install image).Visible := by
  intro row hrow
  refine bloom_install image.rows .empty (.inr ?_)
  rcases mem_foldl_emplace image.rows ∅ hrow with h | h
  · exact absurd h Finmap.notMem_empty
  · obtain ⟨p, hp, rfl⟩ := List.mem_map.mp h
    exact List.mem_map.mpr ⟨p, hp, rfl⟩

/-! ### Under `wal_mu_`, and out of it again -/

theorem lock_unlock {i : Nat} (h : t.walMu = none) : { { t with walMu := some i } with walMu := none } = t := by
  rw [← h]

theorem lock_record_apply {i : Nat} (h : t.walMu = none) (op : Op) :
    { ({ t with walMu := some i }.record op).apply op with walMu := none } = (t.record op).apply op := by
  unfold Replica.record Replica.apply
  simp only [h]
  rfl

/-! ### Operations with an LSN -/

/-- What the check of the LSN can come to. -/
theorem logNext_cases (t : Replica) (io n : Nat) (op : Op) :
    (t.logNext io n op = (.known, t) ∧ n ≤ t.lsn) ∨ t.logNext io n op = (.refused, t)
      ∨ (t.logNext io n op = (.logged, t.record op) ∧ n = t.lsn + 1) := by
  unfold logNext
  by_cases hle : n ≤ t.lsn
  · exact .inl ⟨if_pos hle, hle⟩
  · rw [if_neg hle]
    by_cases hnext : n = t.lsn + 1
    · rw [if_neg (not_not.mpr hnext)]
      by_cases h0 : io = 0
      · exact .inr (.inl (if_pos h0))
      · exact .inr (.inr ⟨if_neg h0, hnext⟩)
    · exact .inr (.inl (if_pos hnext))

/-- The next operation is logged where there is room. -/
theorem logNext_next (t : Replica) {io : Nat} (h0 : io ≠ 0) (op : Op) :
    t.logNext io (t.lsn + 1) op = (.logged, t.record op) := by
  unfold logNext
  rw [if_neg (by omega), if_neg (by simp), if_neg h0]

end Replica

end NCloud
