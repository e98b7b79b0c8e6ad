import NCloud.Storage.Bloom
import NCloud.Storage.Rows

/-!
# On-disk and on-wire formats

The three byte formats of `tablet.cc`: the write-ahead log record, the rows
section that checkpoints and snapshots share, and the checkpoint and snapshot
headers around it. Writers are functions to bytes, readers are the source's own
read sequences. Counts and lengths are written as 32-bit words, so a count that
does not fit is truncated silently, as the `static_cast<uint32_t>` does.
-/

namespace NCloud

open Wire Reader

/-! ## Words and fields -/

/-- `write_u32_le` / `append_u32_le`. -/
abbrev u32 (n : Nat) : Bytes := leBytes 4 n

/-- `write_u64_le` / `append_u64_le`. -/
abbrev u64 (n : Nat) : Bytes := leBytes 8 n

/-- Read `n` bytes of a field whose length was read before. -/
def body (n : Nat) : Reader Field := fun bs =>
  if h : n ≤ bs.length ∧ n < 2 ^ 32 then
    some (⟨bs.take n, by rw [List.length_take]; omega⟩, bs.drop n)
  else none

/-- A field with its length in front. -/
def encodeField (f : Field) : Bytes := u32 f.1.length ++ f.1

/-- Read a length and that many bytes. -/
def readField : Reader Field := do
  let n ← word 4
  body n

theorem body_append (f : Field) (rest : Bytes) :
    body f.1.length (f.1 ++ rest) = some (f, rest) := by
  unfold body
  rw [dif_pos ⟨by simp, f.2⟩]
  simp

theorem body_eq_some {n : Nat} {bs rest : Bytes} {f : Field} (h : body n bs = some (f, rest)) :
    bs = f.1 ++ rest ∧ f.1.length = n := by
  unfold body at h
  split at h
  · rename_i hn
    obtain ⟨rfl, rfl⟩ := Prod.mk.inj (Option.some.inj h)
    exact ⟨(List.take_append_drop n bs).symm, by simp [hn.1]⟩
  · exact absurd h (by simp)

theorem cuts_body (n : Nat) : Cuts (body n) := by
  intro bs f rest h
  obtain ⟨rfl, rfl⟩ := body_eq_some h
  exact ⟨f.1, rfl, body_append f⟩

theorem field_lt (f : Field) : f.1.length < 256 ^ 4 := f.2

theorem readField_append (f : Field) (rest : Bytes) :
    readField (encodeField f ++ rest) = some (f, rest) := by
  rw [readField, encodeField, List.append_assoc,
    bind_of_some (word_append_of_lt (field_lt f) (f.1 ++ rest))]
  exact body_append f rest

/-! ## Write-ahead log records -/

/-- `WAL_MAGIC`. -/
def WAL_MAGIC : Nat := 0xABCD1234

/-- `WAL_PUT`. -/
def WAL_PUT : UInt8 := 1

/-- `WAL_DELETE`. -/
def WAL_DELETE : UInt8 := 2

/-- One record as `replay_wal` reads it. -/
structure WalRecord where
  op : UInt8
  row : Field
  col : Field
  val : Field
  deriving DecidableEq

/-- The empty string, which a DELETE record carries as its value. -/
def emptyField : Field := ⟨[], by decide⟩

/-- The record `write_wal_put` / `write_wal_delete` writes for an operation. -/
def WalRecord.ofOp : Op → WalRecord
  | .put row col val => ⟨WAL_PUT, row, col, val⟩
  | .del row col => ⟨WAL_DELETE, row, col, emptyField⟩

/-- The bytes of a record. -/
def WalRecord.encode (r : WalRecord) : Bytes :=
  u32 WAL_MAGIC ++ (r.op :: (u32 r.row.1.length ++ (u32 r.col.1.length ++ (u32 r.val.1.length ++
    (r.row.1 ++ (r.col.1 ++ r.val.1))))))

/-- The read sequence shared by `replay_wal` and `wal_delta_after`. -/
def readRecord : Reader WalRecord := do
  let magic ← word 4
  require (magic == WAL_MAGIC)
  let op ← byte
  let rowlen ← word 4
  let collen ← word 4
  let vallen ← word 4
  let row ← body rowlen
  let col ← body collen
  let val ← body vallen
  return ⟨op, row, col, val⟩

/-- **A written record reads back**, whatever follows it. -/
theorem readRecord_append (r : WalRecord) (rest : Bytes) :
    readRecord (r.encode ++ rest) = some (r, rest) := by
  have hmagic : WAL_MAGIC < 256 ^ 4 := by decide
  rw [readRecord, WalRecord.encode]
  simp only [List.append_assoc, List.cons_append]
  rw [bind_of_some (word_append_of_lt hmagic _), beq_self_eq_true, bind_of_some (require_true _)]
  rw [bind_of_some (byte_cons _ _)]
  rw [bind_of_some (word_append_of_lt (field_lt r.row) _)]
  rw [bind_of_some (word_append_of_lt (field_lt r.col) _)]
  rw [bind_of_some (word_append_of_lt (field_lt r.val) _)]
  rw [bind_of_some (body_append r.row _), bind_of_some (body_append r.col _),
    bind_of_some (body_append r.val _)]
  rfl

/-- Everything of a record after its magic. -/
theorem cuts_readRecord_tail (magic : Nat) : Cuts (do
    require (magic == WAL_MAGIC)
    let op ← byte
    let rowlen ← word 4
    let collen ← word 4
    let vallen ← word 4
    let row ← body rowlen
    let col ← body collen
    let val ← body vallen
    return (⟨op, row, col, val⟩ : WalRecord)) := by
  refine cuts_bind (cuts_require _) fun _ => ?_
  refine cuts_bind cuts_byte fun op => ?_
  refine cuts_bind (cuts_word 4) fun rowlen => ?_
  refine cuts_bind (cuts_word 4) fun collen => ?_
  refine cuts_bind (cuts_word 4) fun vallen => ?_
  refine cuts_bind (cuts_body rowlen) fun row => ?_
  refine cuts_bind (cuts_body collen) fun col => ?_
  exact cuts_bind (cuts_body vallen) fun val => cuts_pure _

theorem cuts_readRecord : Cuts readRecord :=
  cuts_bind (cuts_word 4) cuts_readRecord_tail

theorem consumes_readRecord : Consumes readRecord :=
  consumes_word_bind fun magic => (cuts_readRecord_tail magic).shrinks

/-- **A torn record is not a record**: no strict prefix of one parses. -/
theorem readRecord_torn {r : WalRecord} {p : Bytes} (hp : p <+: r.encode) (hne : p ≠ r.encode) :
    readRecord p = none := by
  obtain ⟨back, hback⟩ := hp
  have hb : back ≠ [] := by
    intro h; subst h; exact hne (by rw [← hback, List.append_nil])
  refine none_of_strict_prefix cuts_readRecord.extends hb (a := r) ?_
  rw [hback]
  have := readRecord_append r []
  rwa [List.append_nil] at this

/-- The scan of a log written record by record, with an unreadable tail. -/
theorem scan_records (rs : List WalRecord) {tail : Bytes} (ht : readRecord tail = none) :
    scan readRecord (rs.flatMap WalRecord.encode ++ tail) = (rs, tail) :=
  scan_flatMap consumes_readRecord (fun r _ rest => readRecord_append r rest) ht

/-! ## The rows section -/

/-- One column: name and value. -/
def encodeCol (p : Field × Field) : Bytes := encodeField p.1 ++ encodeField p.2

/-- One row: key, column count, columns. -/
def encodeRow (p : Field × List (Field × Field)) : Bytes :=
  encodeField p.1 ++ (u32 p.2.length ++ p.2.flatMap encodeCol)

/-- The inner loop of `load_checkpoint` and `load_snapshot_blob`. -/
def readCol : Reader (Field × Field) := do
  let col ← readField
  let val ← readField
  return (col, val)

/-- The outer loop's body. -/
def readRow : Reader (Field × List (Field × Field)) := do
  let row ← readField
  let ncols ← word 4
  let cols ← times readCol ncols
  return (row, cols)

theorem readCol_append (p : Field × Field) (rest : Bytes) :
    readCol (encodeCol p ++ rest) = some (p, rest) := by
  rw [readCol, encodeCol, List.append_assoc, bind_of_some (readField_append p.1 _),
    bind_of_some (readField_append p.2 _)]
  rfl

theorem readRow_append {p : Field × List (Field × Field)} (h : p.2.length < 2 ^ 32)
    (rest : Bytes) : readRow (encodeRow p ++ rest) = some (p, rest) := by
  have hc : times readCol p.2.length (p.2.flatMap encodeCol ++ rest) = some (p.2, rest) :=
    times_flatMap (fun q _ more => readCol_append q more) rest
  rw [readRow, encodeRow]
  simp only [List.append_assoc]
  rw [bind_of_some (readField_append p.1 _), bind_of_some (word_append_of_lt h _),
    bind_of_some hc]
  rfl

theorem cuts_readField : Cuts readField :=
  cuts_bind (cuts_word 4) cuts_body

theorem cuts_readCol : Cuts readCol :=
  cuts_bind cuts_readField fun _ => cuts_bind cuts_readField fun _ => cuts_pure _

theorem cuts_readRow : Cuts readRow := by
  refine cuts_bind cuts_readField fun row => ?_
  refine cuts_bind (cuts_word 4) fun ncols => ?_
  exact cuts_bind (cuts_times cuts_readCol ncols) fun cols => cuts_pure _

/-- A row read from any bytes has fewer than `2 ^ 32` columns. -/
theorem readRow_length {bs rest : Bytes} {p : Field × List (Field × Field)}
    (h : readRow bs = some (p, rest)) : p.2.length < 2 ^ 32 := by
  obtain ⟨row, m1, -, h1⟩ := bind_eq_some.mp h
  obtain ⟨ncols, m2, hn, h2⟩ := bind_eq_some.mp h1
  obtain ⟨cols, m3, hc, h3⟩ := bind_eq_some.mp h2
  obtain ⟨rfl, -⟩ := Prod.mk.inj (Option.some.inj h3)
  exact (times_length hc).symm ▸ word_lt hn

/-- **The rows section reads back** when its counts fit. -/
theorem readRows_append {rl : Listing} (h : ∀ p ∈ rl, p.2.length < 2 ^ 32) (rest : Bytes) :
    times readRow rl.length (rl.flatMap encodeRow ++ rest) = some (rl, rest) :=
  times_flatMap (fun p hp more => readRow_append (h p hp) more) rest

/-! ## Checkpoint files -/

/-- `CKPT_MAGIC`. -/
def CKPT_MAGIC : Nat := 0xC0DEFACE

/-- The file `checkpoint_locked` writes. -/
def encodeCheckpoint (version lsn : Nat) (rl : Listing) (bloom : BloomFilter) : Bytes :=
  u32 CKPT_MAGIC ++ (u64 version ++ (u64 lsn ++ (u32 rl.length ++
    (rl.flatMap encodeRow ++ bloom.serialize))))

/-- The header: version, LSN and row count. A file without the magic is the old
format, whose first word is the row count itself. -/
def readCheckpointHeader : Reader (Nat × Nat × Nat) := do
  let first ← word 4
  if first = CKPT_MAGIC then
    let version ← word 8
    let lsn ← word 8
    let nrows ← word 4
    return (version, lsn, nrows)
  else
    return (0, 0, first)

/-- Header and rows; the filter's bits are what is left. -/
def readCheckpoint : Reader (Nat × Nat × Listing) := do
  let hdr ← readCheckpointHeader
  let rl ← times readRow hdr.2.2
  return (hdr.1, hdr.2.1, rl)

theorem readCheckpointHeader_append {version lsn : Nat} (n : Nat) (hv : version < 2 ^ 64)
    (hl : lsn < 2 ^ 64) (rest : Bytes) :
    readCheckpointHeader (u32 CKPT_MAGIC ++ (u64 version ++ (u64 lsn ++ (u32 n ++ rest))))
      = some ((version, lsn, n % 2 ^ 32), rest) := by
  have hmagic : CKPT_MAGIC < 256 ^ 4 := by decide
  have h8 : (256 : Nat) ^ 8 = 2 ^ 64 := by decide
  rw [readCheckpointHeader, bind_of_some (word_append_of_lt hmagic _), if_pos rfl,
    bind_of_some (word_append_of_lt (h8 ▸ hv) _), bind_of_some (word_append_of_lt (h8 ▸ hl) _),
    bind_of_some (word_append 4 n rest)]
  rfl

theorem cuts_readCheckpointHeader : Cuts readCheckpointHeader := by
  refine cuts_bind (cuts_word 4) fun first => ?_
  split
  · refine cuts_bind (cuts_word 8) fun version => ?_
    refine cuts_bind (cuts_word 8) fun lsn => ?_
    exact cuts_bind (cuts_word 4) fun nrows => cuts_pure _
  · exact cuts_pure _

theorem cuts_readCheckpoint : Cuts readCheckpoint :=
  cuts_bind cuts_readCheckpointHeader fun hdr =>
    cuts_bind (cuts_times cuts_readRow hdr.2.2) fun _ => cuts_pure _

/-- What `load_checkpoint` parses from a file `checkpoint_locked` wrote: the version
and LSN always survive, the rows are read with the count that fitted. -/
theorem readCheckpoint_encode {version lsn : Nat} (rl : Listing) (bloom : BloomFilter)
    (hv : version < 2 ^ 64) (hl : lsn < 2 ^ 64) :
    readCheckpoint (encodeCheckpoint version lsn rl bloom) =
      (times readRow (rl.length % 2 ^ 32) (rl.flatMap encodeRow ++ bloom.serialize)).map
        (fun q => ((version, lsn, q.1), q.2)) := by
  rw [readCheckpoint, encodeCheckpoint, bind_of_some (readCheckpointHeader_append _ hv hl _)]
  cases h : times readRow (rl.length % 2 ^ 32) (rl.flatMap encodeRow ++ bloom.serialize) with
  | none => rw [bind_of_none h]; rfl
  | some q => rw [bind_of_some h]; rfl

/-- **A checkpoint file reads back** when the tablet fits the format. -/
theorem readCheckpoint_encode_of_fits {version lsn : Nat} {rl : Listing} (bloom : BloomFilter)
    (hv : version < 2 ^ 64) (hl : lsn < 2 ^ 64) (h1 : rl.length < 2 ^ 32)
    (h2 : ∀ p ∈ rl, p.2.length < 2 ^ 32) :
    readCheckpoint (encodeCheckpoint version lsn rl bloom)
      = some ((version, lsn, rl), bloom.serialize) := by
  rw [readCheckpoint_encode rl bloom hv hl, Nat.mod_eq_of_lt h1, readRows_append h2,
    Option.map_some]

/-- Whatever the header holds fits its words. -/
theorem readCheckpointHeader_lt {bs rest : Bytes} {hdr : Nat × Nat × Nat}
    (h : readCheckpointHeader bs = some (hdr, rest)) :
    hdr.1 < 2 ^ 64 ∧ hdr.2.1 < 2 ^ 64 ∧ hdr.2.2 < 2 ^ 32 := by
  obtain ⟨first, m1, hf, h1⟩ := bind_eq_some.mp h
  split at h1
  · obtain ⟨v, m2, hv, h2⟩ := bind_eq_some.mp h1
    obtain ⟨l, m3, hl, h3⟩ := bind_eq_some.mp h2
    obtain ⟨n, m4, hn, h4⟩ := bind_eq_some.mp h3
    obtain ⟨rfl, -⟩ := Prod.mk.inj (Option.some.inj h4)
    exact ⟨word_lt hv, word_lt hl, word_lt hn⟩
  · obtain ⟨rfl, -⟩ := Prod.mk.inj (Option.some.inj h1)
    exact ⟨by simp, by simp, word_lt hf⟩

/-- Whatever a checkpoint file holds, what is read from it fits the format. -/
theorem readCheckpoint_fits {bs rest : Bytes} {version lsn : Nat} {rl : Listing}
    (h : readCheckpoint bs = some ((version, lsn, rl), rest)) :
    version < 2 ^ 64 ∧ lsn < 2 ^ 64 ∧ rl.length < 2 ^ 32 ∧ ∀ p ∈ rl, p.2.length < 2 ^ 32 := by
  obtain ⟨hdr, m1, h1, h2⟩ := bind_eq_some.mp h
  obtain ⟨rl', m2, h3, h4⟩ := bind_eq_some.mp h2
  obtain ⟨heq, -⟩ := Prod.mk.inj (Option.some.inj h4)
  obtain ⟨rfl, hrl⟩ := Prod.mk.inj heq
  obtain ⟨rfl, rfl⟩ := Prod.mk.inj hrl
  obtain ⟨hv, hl, hn⟩ := readCheckpointHeader_lt h1
  exact ⟨hv, hl, (times_length h3).symm ▸ hn, times_forall (fun _ _ _ hr => readRow_length hr) h3⟩

/-! ## Snapshot blobs -/

/-- The blob `snapshot_blob` builds. -/
def encodeSnapshot (version lsn : Nat) (rl : Listing) : Bytes :=
  u32 rl.length ++ (u64 lsn ++ (u64 version ++ rl.flatMap encodeRow))

/-- The read sequence of `load_snapshot_blob`; bytes after the last row are ignored. -/
def readSnapshot : Reader (Nat × Nat × Listing) := do
  let nrows ← word 4
  let lsn ← word 8
  let version ← word 8
  let rl ← times readRow nrows
  return (version, lsn, rl)

theorem cuts_readSnapshot : Cuts readSnapshot := by
  refine cuts_bind (cuts_word 4) fun nrows => ?_
  refine cuts_bind (cuts_word 8) fun lsn => ?_
  refine cuts_bind (cuts_word 8) fun version => ?_
  exact cuts_bind (cuts_times cuts_readRow nrows) fun rl => cuts_pure _

/-- **A snapshot reads back** when the tablet fits the format. -/
theorem readSnapshot_encode_of_fits {version lsn : Nat} {rl : Listing}
    (hv : version < 2 ^ 64) (hl : lsn < 2 ^ 64) (h1 : rl.length < 2 ^ 32)
    (h2 : ∀ p ∈ rl, p.2.length < 2 ^ 32) :
    readSnapshot (encodeSnapshot version lsn rl) = some ((version, lsn, rl), []) := by
  have h8 : (256 : Nat) ^ 8 = 2 ^ 64 := by decide
  have hr := readRows_append h2 []
  rw [List.append_nil] at hr
  rw [readSnapshot, encodeSnapshot, bind_of_some (word_append_of_lt h1 _),
    bind_of_some (word_append_of_lt (h8 ▸ hl) _), bind_of_some (word_append_of_lt (h8 ▸ hv) _),
    bind_of_some hr]
  rfl

/-- Whatever a blob holds, what is read from it fits the format. -/
theorem readSnapshot_fits {bs rest : Bytes} {version lsn : Nat} {rl : Listing}
    (h : readSnapshot bs = some ((version, lsn, rl), rest)) :
    version < 2 ^ 64 ∧ lsn < 2 ^ 64 ∧ rl.length < 2 ^ 32 ∧ ∀ p ∈ rl, p.2.length < 2 ^ 32 := by
  obtain ⟨nrows, m1, hn, h1⟩ := bind_eq_some.mp h
  obtain ⟨l, m2, hl, h2⟩ := bind_eq_some.mp h1
  obtain ⟨v, m3, hv, h3⟩ := bind_eq_some.mp h2
  obtain ⟨rl', m4, hr, h4⟩ := bind_eq_some.mp h3
  obtain ⟨heq, -⟩ := Prod.mk.inj (Option.some.inj h4)
  obtain ⟨rfl, hrl⟩ := Prod.mk.inj heq
  obtain ⟨rfl, rfl⟩ := Prod.mk.inj hrl
  exact ⟨word_lt hv, word_lt hl, (times_length hr).symm ▸ word_lt hn,
    times_forall (fun _ _ _ h => readRow_length h) hr⟩

end NCloud
