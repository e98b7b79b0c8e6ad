import NCloud.Storage.Format

/-!
# The tablet

`tablet.cc`, function by function: the in-memory map and counters, the two files
under it, and every operation that touches both. A function that can fail
returns what the source returns together with the tablet it leaves behind,
because a failed operation can leave bytes on disk.

Input and output that the operating system may refuse is an argument: `WalWrite`
for a log append, `CkptFault` for the steps of a checkpoint, a flag for the
truncation of a torn tail. The 64-bit counters wrap.
-/

namespace NCloud

open Wire Reader

/-- State of the `wal_` stream: not open, good, or failed by an earlier write. -/
inductive WalStream where
  | closed | good | failed
  deriving DecidableEq

/-- The files of one tablet: the log, the checkpoint and its `.tmp`. -/
structure Disk where
  wal : Bytes
  ckpt : Option Bytes
  tmp : Option Bytes

/-- A tablet: memory and disk. -/
structure Tablet where
  rows : Rows
  bloom : BloomFilter
  lsn : Nat
  checkpointVersion : Nat
  stream : WalStream
  disk : Disk

/-- A `uint64_t` incremented. -/
def bump (n : Nat) : Nat := (n + 1) % 2 ^ 64

theorem bump_lt (n : Nat) : bump n < 2 ^ 64 := Nat.mod_lt _ (by decide)

/-- What the operating system does with one record: all of it reaches the file, or
the write fails after some strict prefix. -/
inductive WalWrite where
  | ok
  | short (n : Nat)

namespace Tablet

/-- The constructor, over whatever files exist: an empty map and a fresh log stream. -/
def ofDisk (d : Disk) : Tablet :=
  { rows := ∅, bloom := .empty, lsn := 0, checkpointVersion := 0, stream := .good, disk := d }

/-- A tablet over an empty data directory. -/
def fresh : Tablet := ofDisk { wal := [], ckpt := none, tmp := none }

/-! ## The log -/

/-- Append to the log file. -/
def appendWal (t : Tablet) (bs : Bytes) : Tablet :=
  { t with disk := { t.disk with wal := t.disk.wal ++ bs } }

/-- The common body of `write_wal_put` and `write_wal_delete`: the record is
written and flushed before the LSN moves. `none` is `return false`. -/
def writeWal (t : Tablet) (r : WalRecord) (w : WalWrite) : Option Nat × Tablet :=
  match t.stream, w with
  | .good, .ok => (some (bump t.lsn), { t.appendWal r.encode with lsn := bump t.lsn })
  | .good, .short n => (none, { t.appendWal (r.encode.dropLast.take n) with stream := .failed })
  | _, _ => (none, t)

/-- `write_wal_put`. -/
def writeWalPut (t : Tablet) (row col val : Field) (w : WalWrite) : Option Nat × Tablet :=
  t.writeWal (.ofOp (.put row col val)) w

/-- `write_wal_delete`. -/
def writeWalDelete (t : Tablet) (row col : Field) (w : WalWrite) : Option Nat × Tablet :=
  t.writeWal (.ofOp (.del row col)) w

/-! ## The map -/

/-- `get_or_create_row`, then `cols[col] = val`; a new row enters the filter. -/
def setCell (t : Tablet) (row col val : Field) : Tablet :=
  match t.rows.lookup row with
  | some cols => { t with rows := t.rows.insert row (cols.insert col val) }
  | none =>
      { t with
        rows := t.rows.insert row ((∅ : Cols).insert col val)
        bloom := t.bloom.add row.1 }

/-- `find_row`, then `cols.erase(col)` if there is a row. -/
def eraseCell (t : Tablet) (row col : Field) : Tablet :=
  match t.rows.lookup row with
  | some cols => { t with rows := t.rows.insert row (cols.erase col) }
  | none => t

/-- `find_row` behind the filter. -/
def findRow (t : Tablet) (row : Field) : Option Cols :=
  if t.bloom.mayContain row.1 then t.rows.lookup row else none

/-! ## Operations -/

/-- `put`; the LSN the record got, or `none` for `return false`. -/
def put (t : Tablet) (row col val : Field) (w : WalWrite) : Option Nat × Tablet :=
  match t.writeWalPut row col val w with
  | (none, t) => (none, t)
  | (some lsn, t) => (some lsn, t.setCell row col val)

/-- `get`. -/
def get (t : Tablet) (row col : Field) : Option Field :=
  (t.findRow row).bind (fun cols => cols.lookup col)

/-- `cput`: the cell must hold exactly `v1`. -/
def cput (t : Tablet) (row col v1 v2 : Field) (w : WalWrite) : Option Nat × Tablet :=
  match t.findRow row with
  | none => (none, t)
  | some cols =>
      if cols.lookup col = some v1 then
        match t.writeWalPut row col v2 w with
        | (none, t) => (none, t)
        | (some lsn, t) => (some lsn, { t with rows := t.rows.insert row (cols.insert col v2) })
      else (none, t)

/-- `del`: `none` is `return false`, `some none` is success with nothing to delete,
`some (some lsn)` a logged deletion. -/
def del (t : Tablet) (row col : Field) (w : WalWrite) : Option (Option Nat) × Tablet :=
  match t.findRow row with
  | none => (some none, t)
  | some cols =>
      if cols.lookup col = none then (some none, t)
      else
        match t.writeWalDelete row col w with
        | (none, t) => (none, t)
        | (some lsn, t) =>
            (some (some lsn), { t with rows := t.rows.insert row (cols.erase col) })

/-- `apply_replicated_delete` with an out-parameter: no LSN check. -/
def applyReplicatedDeleteAssigning (t : Tablet) (row col : Field) (w : WalWrite) :
    Option Nat × Tablet :=
  match t.writeWalDelete row col w with
  | (none, t) => (none, t)
  | (some lsn, t) => (some lsn, t.eraseCell row col)

/-- `apply_replicated_put`: acknowledge a duplicate, refuse a gap, log the next one. -/
def applyReplicatedPut (t : Tablet) (row col val : Field) (expected : Nat) (w : WalWrite) :
    Bool × Tablet :=
  if expected ≤ t.lsn then (true, t)
  else if expected ≠ bump t.lsn then (false, t)
  else
    match t.writeWalPut row col val w with
    | (none, t) => (false, t)
    | (some lsn, t) => if lsn ≠ expected then (false, t) else (true, t.setCell row col val)

/-- `apply_replicated_delete` with an expected LSN. -/
def applyReplicatedDelete (t : Tablet) (row col : Field) (expected : Nat) (w : WalWrite) :
    Bool × Tablet :=
  if expected ≤ t.lsn then (true, t)
  else if expected ≠ bump t.lsn then (false, t)
  else
    match t.writeWalDelete row col w with
    | (none, t) => (false, t)
    | (some lsn, t) => if lsn ≠ expected then (false, t) else (true, t.eraseCell row col)

/-! ## Checkpoints -/

/-- How far `checkpoint_locked` got on disk: nothing yet, some bytes of the `.tmp`
(all of them when only the rename is missing), the rename done and the old log
still behind it, or the log truncated too. -/
inductive CkptPoint where
  | start
  | tmp (n : Nat)
  | renamed
  | truncated
  deriving DecidableEq

/-- Where `checkpoint_locked` can be refused something: opening or writing the
`.tmp`, the rename, or reopening the log (and then the fallback in append mode). -/
inductive CkptFault where
  | none
  | openTmp
  | writeTmp (n : Nat)
  | rename
  | reopen (appendOk : Bool)

/-- The file a checkpoint of `t` writes, walking the map in the order `rl`. -/
def ckptFile (t : Tablet) (rl : Listing) : Bytes :=
  encodeCheckpoint (bump t.checkpointVersion) t.lsn rl t.bloom

/-- The files at each point of `checkpoint_locked`. -/
def diskAt (t : Tablet) (rl : Listing) : CkptPoint → Disk
  | .start => t.disk
  | .tmp n => { t.disk with tmp := some ((t.ckptFile rl).take n) }
  | .renamed => { t.disk with ckpt := some (t.ckptFile rl), tmp := none }
  | .truncated => { wal := [], ckpt := some (t.ckptFile rl), tmp := none }

/-- `checkpoint_locked`. -/
def checkpointLocked (t : Tablet) (rl : Listing) : CkptFault → Bool × Tablet
  | .openTmp => (false, { t with disk := t.diskAt rl .start })
  | .writeTmp n => (false, { t with disk := t.diskAt rl (.tmp n) })
  | .rename => (false, { t with disk := t.diskAt rl (.tmp (t.ckptFile rl).length) })
  | .reopen appendOk =>
      (false, { t with
        stream := if appendOk then .good else .closed
        disk := t.diskAt rl .renamed })
  | .none =>
      (true, { t with
        checkpointVersion := bump t.checkpointVersion
        stream := .good
        disk := t.diskAt rl .truncated })

/-- `checkpoint`. -/
def checkpoint (t : Tablet) (rl : Listing) (f : CkptFault) : Bool × Tablet :=
  t.checkpointLocked rl f

/-! ## Recovery -/

/-- `load_checkpoint`; `none` is `return false`. The filter built from the rows is
overwritten by the bits in the file. -/
def loadCheckpoint (t : Tablet) : Option Tablet :=
  match t.disk.ckpt with
  | none => some { t with checkpointVersion := 0 }
  | some file =>
      match readCheckpoint file with
      | none => none
      | some ((version, lsn, rl), rest) =>
          some { t with
            rows := rowsOf rl
            bloom := .deserialize rest
            checkpointVersion := version
            lsn := lsn }

/-- One turn of the replay loop. -/
def replayRecord (t : Tablet) (r : WalRecord) : Tablet :=
  let t' :=
    if r.op = WAL_PUT then t.setCell r.row r.col r.val
    else if r.op = WAL_DELETE then t.eraseCell r.row r.col
    else t
  { t' with lsn := bump t.lsn }

/-- `replay_wal`: apply every record that parses, then cut the log after the last. -/
def replayWal (t : Tablet) (resizeOk : Bool) : Tablet :=
  let s := scan readRecord t.disk.wal
  let t' := s.1.foldl replayRecord t
  if resizeOk then
    { t' with disk := { t'.disk with wal := t.disk.wal.take (t.disk.wal.length - s.2.length) } }
  else t'

/-- `recover`; `none` is `return false`. -/
def recover (t : Tablet) (resizeOk : Bool) : Option Tablet :=
  t.loadCheckpoint.map (fun t' => t'.replayWal resizeOk)

/-! ## Snapshots -/

/-- `snapshot_blob`, walking the map in the order `rl`. -/
def snapshotBlob (t : Tablet) (rl : Listing) : Bytes :=
  encodeSnapshot t.checkpointVersion t.lsn rl

/-- `new_rows.emplace(rkey, rd)`: the first row of a name wins. -/
def emplaceRows (rl : Listing) : Rows :=
  rl.foldl (fun m p => if p.1 ∈ m then m else m.insert p.1 (colsOf p.2)) ∅

/-- The in-memory half of `load_snapshot_blob`. -/
def installSnapshot (t : Tablet) (blob : Bytes) : Option Tablet :=
  match readSnapshot blob with
  | none => none
  | some ((version, lsn, rl), _) =>
      some { t with
        rows := emplaceRows rl
        bloom := rl.foldl (fun b p => b.add p.1.1) .empty
        lsn := lsn
        checkpointVersion := version }

/-- `load_snapshot_blob`: replace the map and counters, then checkpoint. -/
def loadSnapshotBlob (t : Tablet) (blob : Bytes) (rl : Listing) (f : CkptFault) : Bool × Tablet :=
  match t.installSnapshot blob with
  | none => (false, t)
  | some t' => t'.checkpointLocked rl f

/-! ## Deltas -/

/-- LSN of the first record in the log, counted back from `lsn_`. -/
def firstEntryLsn (t : Tablet) (n : Nat) : Nat := if n > t.lsn then 1 else t.lsn - n + 1

/-- One entry of a delta. -/
def encodeEntry (lsn : Nat) (r : WalRecord) : Bytes := u64 lsn ++ r.encode

/-- `wal_delta_after`. -/
def walDeltaAfter (t : Tablet) (afterLsn : Nat) : Bytes :=
  let entries := (scan readRecord t.disk.wal).1
  let first := t.firstEntryLsn entries.length
  u64 afterLsn ++ entries.zipIdx.flatMap (fun e =>
    if first + e.2 ≤ afterLsn then [] else encodeEntry (first + e.2) e.1)

/-- The entry header: LSN and magic. -/
def readEntryHead : Reader Nat := do
  let entryLsn ← word 8
  let magic ← word 4
  require (magic == WAL_MAGIC)
  return entryLsn

/-- Operation byte and the three lengths. -/
def readEntryLengths : Reader (UInt8 × Nat × Nat × Nat) := do
  let op ← byte
  let rowlen ← word 4
  let collen ← word 4
  let vallen ← word 4
  return (op, rowlen, collen, vallen)

/-- The three fields. -/
def readEntryFields (rowlen collen vallen : Nat) : Reader (Field × Field × Field) := do
  let row ← body rowlen
  let col ← body collen
  let val ← body vallen
  return (row, col, val)

/-- Log and apply one delta entry whose LSN is the next one. -/
def applyEntry (t : Tablet) (entryLsn : Nat) (r : WalRecord) (w : WalWrite) : Bool × Tablet :=
  if r.op = WAL_PUT then
    match t.writeWalPut r.row r.col r.val w with
    | (none, t) => (false, t)
    | (some lsn, t) => if lsn ≠ entryLsn then (false, t) else (true, t.setCell r.row r.col r.val)
  else if r.op = WAL_DELETE then
    match t.writeWalDelete r.row r.col w with
    | (none, t) => (false, t)
    | (some lsn, t) => if lsn ≠ entryLsn then (false, t) else (true, t.eraseCell r.row r.col)
  else (false, t)

/-- The loop of `apply_wal_delta_blob` over the bytes from `off` on. Each turn
consumes at least its header, so the blob's length is fuel enough. The skip branch
adds the three lengths in 32 bits. -/
def applyDeltaLoop : Nat → Bytes → List WalWrite → Tablet → Bool × Tablet
  | 0, _, _, t => (true, t)
  | fuel + 1, rest, ws, t =>
      if rest = [] then (true, t)
      else
        match readEntryHead rest with
        | none => (false, t)
        | some (entryLsn, rest) =>
            if entryLsn ≤ t.lsn then
              match readEntryLengths rest with
              | none => (false, t)
              | some ((_, rowlen, collen, vallen), rest) =>
                  if rowlen + collen + vallen > rest.length then (false, t)
                  else applyDeltaLoop fuel (rest.drop ((rowlen + collen + vallen) % 2 ^ 32)) ws t
            else if entryLsn ≠ bump t.lsn then (false, t)
            else
              match readEntryLengths rest with
              | none => (false, t)
              | some ((op, rowlen, collen, vallen), rest) =>
                  match readEntryFields rowlen collen vallen rest with
                  | none => (false, t)
                  | some ((row, col, val), rest) =>
                      match t.applyEntry entryLsn ⟨op, row, col, val⟩ (ws.headD .ok) with
                      | (false, t) => (false, t)
                      | (true, t) => applyDeltaLoop fuel rest ws.tail t

/-- `apply_wal_delta_blob`. -/
def applyWalDeltaBlob (t : Tablet) (blob : Bytes) (ws : List WalWrite) : Bool × Tablet :=
  match word 8 blob with
  | none => (false, t)
  | some (_, rest) => applyDeltaLoop rest.length rest ws t

end Tablet

end NCloud
