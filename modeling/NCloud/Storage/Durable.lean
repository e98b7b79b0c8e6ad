import NCloud.Storage.Logging

/-!
# Recovery

What the two files say, and that it is what memory says.

A checkpoint file denotes a map, an LSN and a version (`CkptContents`); the log
denotes a list of operations on top of it and perhaps a torn tail. A tablet is
`Durable` when replaying that list over those contents gives its own map and LSN.
Recovery of a durable tablet is then exact, including after a torn append, and it
leaves a durable tablet behind. Operations, successful checkpoints and snapshot
loads keep tablets durable.

The LSN is stored in the checkpoint and counted on from there, so the checkpoint
and the truncation of the log have to be seen together. Between the two, the log
is replayed over a checkpoint that already contains it: the map does not mind, the
LSN does. `recoversTo_diskAt_iff` says exactly when a crash inside
`checkpoint_locked` is harmless.
-/

namespace NCloud

open Wire Reader

/-- What `load_checkpoint` takes from the checkpoint file, or from its absence. -/
structure CkptContents where
  version : Nat
  lsn : Nat
  rows : Rows
  bloom : BloomFilter

/-- The contents of a checkpoint file; `none` when `load_checkpoint` refuses it. -/
def ckptContents : Option Bytes → Option CkptContents
  | none => some ⟨0, 0, ∅, .empty⟩
  | some file =>
      (readCheckpoint file).map (fun q => ⟨q.1.1, q.1.2.1, rowsOf q.1.2.2, .deserialize q.2⟩)

/-- Contents that a checkpoint file can hold. -/
structure CkptContents.Fits (c : CkptContents) : Prop where
  /-- The version is a 64-bit number. -/
  version : c.version < 2 ^ 64
  /-- So is the LSN. -/
  lsn : c.lsn < 2 ^ 64
  /-- The counts of rows and columns are 32-bit numbers. -/
  rows : c.rows.Fits

/-- What is read from a checkpoint file fits its counts, whatever the file holds. -/
theorem ckptContents_fits {file : Option Bytes} {c : CkptContents}
    (h : ckptContents file = some c) : c.Fits := by
  cases file with
  | none =>
      obtain rfl := Option.some.inj h
      exact ⟨by decide, by decide, emptyRows_fits⟩
  | some file =>
      rw [ckptContents] at h
      obtain ⟨⟨⟨version, lsn, rl⟩, rest⟩, hr, rfl⟩ := Option.map_eq_some_iff.mp h
      obtain ⟨hv, hl, h1, h2⟩ := readCheckpoint_fits hr
      exact ⟨hv, hl, rowsOf_fits h1 h2⟩

/-- What a record does to the map when it is replayed. -/
def WalRecord.effect (m : Rows) (r : WalRecord) : Rows :=
  if r.op = WAL_PUT then m.put r.row r.col r.val
  else if r.op = WAL_DELETE then m.erase r.row r.col
  else m

theorem WalRecord.effect_ofOp (m : Rows) (op : Op) : (WalRecord.ofOp op).effect m = m.apply op := by
  cases op with
  | put row col val => rfl
  | del row col =>
      have hne : WAL_DELETE ≠ WAL_PUT := by decide
      simp [effect, WalRecord.ofOp, Rows.apply, hne]

theorem foldl_effect_ofOp (ops : List Op) (m : Rows) :
    (ops.map WalRecord.ofOp).foldl (fun m r => r.effect m) m = ops.foldl Rows.apply m := by
  rw [List.foldl_map]
  simp only [WalRecord.effect_ofOp]

/-- The bytes of a log of operations. -/
def walBytes (ops : List Op) : Bytes := (ops.map WalRecord.ofOp).flatMap WalRecord.encode

theorem walBytes_snoc (ops : List Op) (op : Op) :
    walBytes (ops ++ [op]) = walBytes ops ++ (WalRecord.ofOp op).encode := by
  simp [walBytes]

theorem scan_walBytes (ops : List Op) {tail : Bytes} (ht : readRecord tail = none) :
    scan readRecord (walBytes ops ++ tail) = (ops.map WalRecord.ofOp, tail) :=
  scan_records _ ht

theorem readRecord_nil : readRecord [] = none := rfl

namespace Tablet

theorem loadCheckpoint_ofDisk (d : Disk) :
    (ofDisk d).loadCheckpoint = (ckptContents d.ckpt).map (fun c =>
      { ofDisk d with rows := c.rows, bloom := c.bloom, lsn := c.lsn,
                      checkpointVersion := c.version }) := by
  unfold loadCheckpoint ckptContents
  cases hc : d.ckpt with
  | none => simp [ofDisk, hc]
  | some file =>
      simp only [ofDisk, hc]
      cases readCheckpoint file with
      | none => rfl
      | some q => rfl

/-! ## Replaying records -/

theorem replayRecord_eq (t : Tablet) (r : WalRecord) :
    ∃ b, t.replayRecord r = { t with rows := r.effect t.rows, lsn := bump t.lsn, bloom := b } := by
  unfold replayRecord WalRecord.effect
  split
  · obtain ⟨b, hb⟩ := setCell_eq t r.row r.col r.val
    exact ⟨b, by rw [hb]⟩
  · split
    · exact ⟨t.bloom, by rw [eraseCell_eq]⟩
    · exact ⟨t.bloom, rfl⟩

/-- Replaying a list of records: the map, one LSN each, nothing else. -/
theorem foldl_replayRecord (rs : List WalRecord) (t : Tablet) (hl : t.lsn < 2 ^ 64) :
    ∃ b, rs.foldl replayRecord t
      = { t with rows := rs.foldl (fun m r => r.effect m) t.rows
                 lsn := (t.lsn + rs.length) % 2 ^ 64
                 bloom := b } := by
  induction rs generalizing t with
  | nil =>
      have hlsn : (t.lsn + 0) % 2 ^ 64 = t.lsn := Nat.mod_eq_of_lt hl
      exact ⟨t.bloom, by rw [List.length_nil, hlsn]; rfl⟩
  | cons r rs ih =>
      obtain ⟨b₁, h₁⟩ := replayRecord_eq t r
      obtain ⟨b₂, h₂⟩ := ih { t with rows := r.effect t.rows, lsn := bump t.lsn, bloom := b₁ }
        (bump_lt _)
      refine ⟨b₂, ?_⟩
      rw [List.foldl_cons, h₁, h₂]
      have hlsn : (bump t.lsn + rs.length) % 2 ^ 64 = (t.lsn + (rs.length + 1)) % 2 ^ 64 := by
        unfold bump; omega
      rw [List.foldl_cons, List.length_cons, ← hlsn]

theorem recover_ofDisk_none {d : Disk} (hc : ckptContents d.ckpt = none) (resizeOk : Bool) :
    (ofDisk d).recover resizeOk = none := by
  rw [recover, loadCheckpoint_ofDisk, hc]; rfl

/-- **Recovery, in closed form.** -/
theorem recover_ofDisk {d : Disk} {c : CkptContents} (hc : ckptContents d.ckpt = some c)
    {rs : List WalRecord} {tail : Bytes} (hs : scan readRecord d.wal = (rs, tail))
    (resizeOk : Bool) :
    ∃ t, (ofDisk d).recover resizeOk = some t
      ∧ t.rows = rs.foldl (fun m r => r.effect m) c.rows
      ∧ t.lsn = (c.lsn + rs.length) % 2 ^ 64
      ∧ t.checkpointVersion = c.version
      ∧ t.stream = .good
      ∧ t.disk.ckpt = d.ckpt
      ∧ (resizeOk = true → t.disk.wal = d.wal.take (d.wal.length - tail.length)) := by
  obtain ⟨b, hb⟩ := foldl_replayRecord rs
    { ofDisk d with rows := c.rows, bloom := c.bloom, lsn := c.lsn,
                    checkpointVersion := c.version } (ckptContents_fits hc).lsn
  rw [recover, loadCheckpoint_ofDisk, hc, Option.map_some, Option.map_some]
  refine ⟨_, rfl, ?_⟩
  have hwal : (ofDisk d).disk.wal = d.wal := rfl
  simp only [replayWal, hwal, hs, hb]
  cases resizeOk <;> simp [ofDisk]

theorem recover_stream {d : Disk} {t : Tablet} {resizeOk : Bool}
    (h : (ofDisk d).recover resizeOk = some t) : t.stream = .good := by
  cases hc : ckptContents d.ckpt with
  | none =>
      rw [recover_ofDisk_none hc] at h
      exact absurd h (by simp)
  | some c =>
      obtain ⟨t', h1, -, -, -, hs, -⟩ := recover_ofDisk hc rfl resizeOk
      obtain rfl := Option.some.inj (h1.symm.trans h)
      exact hs

/-! ## Durable tablets -/

/-- The files of `t`, replayed, give `t`: contents `c`, then the operations `ops`, then
a tail that no append follows. -/
structure Durable (t : Tablet) (c : CkptContents) (ops : List Op) (tail : Bytes) : Prop where
  /-- What the checkpoint holds. -/
  ckpt : ckptContents t.disk.ckpt = some c
  /-- What the log holds. -/
  wal : t.disk.wal = walBytes ops ++ tail
  /-- The tail is not a record. -/
  torn : readRecord tail = none
  /-- Nothing is appended after a torn tail. -/
  good : t.stream = .good → tail = []
  /-- The map is the replayed one. -/
  rows : t.rows = ops.foldl Rows.apply c.rows
  /-- The LSN counts on from the checkpoint's. -/
  lsn : t.lsn = (c.lsn + ops.length) % 2 ^ 64
  /-- The versions agree. -/
  version : t.checkpointVersion = c.version

/-- Same map, LSN and checkpoint version. -/
structure Same (t t' : Tablet) : Prop where
  /-- Every row, column and value; empty rows included. -/
  rows : t.rows = t'.rows
  /-- The LSN. -/
  lsn : t.lsn = t'.lsn
  /-- The version. -/
  version : t.checkpointVersion = t'.checkpointVersion

theorem durable_fresh : Durable fresh ⟨0, 0, ∅, .empty⟩ [] [] where
  ckpt := rfl
  wal := rfl
  torn := readRecord_nil
  good := fun _ => rfl
  rows := rfl
  lsn := rfl
  version := rfl

/-- **Logging keeps a tablet durable.** -/
theorem Durable.logs {t t' : Tablet} {c : CkptContents} {ops₀ ops : List Op} {tail : Bytes}
    (hd : Durable t c ops₀ tail) (h : Logs t ops t') :
    ∃ tail', Durable t' c (ops₀ ++ ops) tail' := by
  induction h with
  | nil => exact ⟨tail, by rw [List.append_nil]; exact hd⟩
  | @snoc ops t' op b _ hs ih =>
      obtain ⟨tail', hd'⟩ := ih
      have htail : tail' = [] := hd'.good hs
      subst htail
      refine ⟨[], ?_⟩
      refine { ckpt := hd'.ckpt, wal := ?_, torn := readRecord_nil, good := fun _ => rfl,
               rows := ?_, lsn := ?_, version := hd'.version }
      · show t'.disk.wal ++ (WalRecord.ofOp op).encode = _
        rw [hd'.wal, ← List.append_assoc, walBytes_snoc]
        simp
      · show t'.rows.apply op = _
        rw [hd'.rows, ← List.append_assoc, List.foldl_concat]
      · show bump t'.lsn = _
        rw [hd'.lsn]
        simp only [bump, List.length_append, List.length_singleton]
        omega
  | @torn ops t' p _ hs hp ih =>
      obtain ⟨tail', hd'⟩ := ih
      have htail : tail' = [] := hd'.good hs
      subst htail
      refine ⟨p, ?_⟩
      refine { ckpt := hd'.ckpt, wal := ?_, torn := hp, good := nofun,
               rows := hd'.rows, lsn := hd'.lsn, version := hd'.version }
      show t'.disk.wal ++ p = _
      rw [hd'.wal, List.append_nil]

theorem Durable.tablet_lsn_lt {t : Tablet} {c : CkptContents} {ops : List Op} {tail : Bytes}
    (hd : Durable t c ops tail) : t.lsn < 2 ^ 64 := by
  rw [hd.lsn]; exact Nat.mod_lt _ (by decide)

/-- **Recovery of a durable tablet is exact**, and the result is durable again. -/
theorem Durable.recover {t : Tablet} {c : CkptContents} {ops : List Op} {tail : Bytes}
    (hd : Durable t c ops tail) (resizeOk : Bool) :
    ∃ t', (ofDisk t.disk).recover resizeOk = some t' ∧ Same t' t
      ∧ (resizeOk = true → t'.disk.wal = walBytes ops ∧ Durable t' c ops []) := by
  have hs : scan readRecord t.disk.wal = (ops.map WalRecord.ofOp, tail) :=
    hd.wal ▸ scan_walBytes ops hd.torn
  obtain ⟨t', h1, h2, h3, h4, h5, h6, h7⟩ := recover_ofDisk hd.ckpt hs resizeOk
  rw [foldl_effect_ofOp] at h2
  rw [List.length_map] at h3
  have hcut : t.disk.wal.take (t.disk.wal.length - tail.length) = walBytes ops := by
    rw [hd.wal, List.length_append, Nat.add_sub_cancel, List.take_left]
  rw [hcut] at h7
  refine ⟨t', h1, ⟨by rw [h2, hd.rows], by rw [h3, hd.lsn], by rw [h4, hd.version]⟩, ?_⟩
  intro hok
  refine ⟨h7 hok, ?_⟩
  exact { ckpt := h6 ▸ hd.ckpt, wal := by rw [h7 hok, List.append_nil], torn := readRecord_nil,
          good := fun _ => rfl, rows := h2, lsn := h3, version := h4 }

/-- The files after a crash in the middle of appending the record of `op`. -/
theorem Durable.append_torn {t : Tablet} {c : CkptContents} {ops : List Op} {tail : Bytes}
    (hd : Durable t c ops tail) {op : Op} {p : Bytes} (hp : p <+: (WalRecord.ofOp op).encode)
    (hs : t.stream = .good ∨ p = []) :
    (p ≠ (WalRecord.ofOp op).encode ∧
        ∃ tail', Durable { t.appendWal p with stream := .failed } c ops tail')
      ∨ (p = (WalRecord.ofOp op).encode ∧ t.stream = .good) := by
  by_cases hc : p = (WalRecord.ofOp op).encode
  · refine Or.inr ⟨hc, hs.resolve_right ?_⟩
    intro h0
    have hlen := congrArg List.length (hc.symm.trans h0)
    simp [WalRecord.encode] at hlen
  · refine Or.inl ⟨hc, ?_⟩
    have base : ∀ tail', readRecord tail' = none → (t.appendWal p).disk.wal = walBytes ops ++ tail' →
        Durable { t.appendWal p with stream := .failed } c ops tail' := by
      intro tail' ht hw
      exact { ckpt := hd.ckpt, wal := hw, torn := ht, good := fun h => absurd h (by simp),
              rows := hd.rows, lsn := hd.lsn, version := hd.version }
    rcases hs with hs | rfl
    · have htail := hd.good hs
      refine ⟨p, base p (readRecord_torn hp hc) ?_⟩
      show t.disk.wal ++ p = _
      rw [hd.wal, htail, List.append_nil]
    · refine ⟨tail, base tail hd.torn ?_⟩
      show t.disk.wal ++ [] = _
      rw [List.append_nil, hd.wal]

/-! ## Checkpoints -/

/-- What a checkpoint file holds, when the tablet fits its counts. -/
theorem ckptContents_ckptFile {t : Tablet} {rl : Listing} (hl : Lists rl t.rows)
    (hf : t.rows.Fits) (hlsn : t.lsn < 2 ^ 64) :
    ckptContents (some (t.ckptFile rl))
      = some ⟨bump t.checkpointVersion, t.lsn, t.rows, t.bloom⟩ := by
  obtain ⟨h1, h2⟩ := hl.fits hf
  have hb : BloomFilter.deserialize t.bloom.serialize = t.bloom := by
    have := BloomFilter.deserialize_serialize t.bloom []
    rwa [List.append_nil] at this
  rw [ckptContents, ckptFile, readCheckpoint_encode_of_fits t.bloom (bump_lt _) hlsn h1 h2,
    Option.map_some, hl.complete, hb]

/-- **A completed checkpoint is durable** with an empty log. -/
theorem durable_checkpoint {t : Tablet} {rl : Listing} (hl : Lists rl t.rows)
    (hf : t.rows.Fits) (hlsn : t.lsn < 2 ^ 64) :
    Durable (t.checkpointLocked rl .none).2
      ⟨bump t.checkpointVersion, t.lsn, t.rows, t.bloom⟩ [] [] where
  ckpt := ckptContents_ckptFile hl hf hlsn
  wal := rfl
  torn := readRecord_nil
  good := fun _ => rfl
  rows := rfl
  lsn := (Nat.mod_eq_of_lt hlsn).symm
  version := rfl

/-- Nothing that recovery reads has changed before the rename. -/
theorem Durable.diskAt {t : Tablet} {c : CkptContents} {ops : List Op} {tail : Bytes}
    (hd : Durable t c ops tail) {d : Disk} (hc : d.ckpt = t.disk.ckpt) (hw : d.wal = t.disk.wal) :
    Durable { t with disk := d } c ops tail where
  ckpt := by rw [show ({ t with disk := d } : Tablet).disk.ckpt = t.disk.ckpt from hc]; exact hd.ckpt
  wal := by rw [show ({ t with disk := d } : Tablet).disk.wal = t.disk.wal from hw]; exact hd.wal
  torn := hd.torn
  good := hd.good
  rows := hd.rows
  lsn := hd.lsn
  version := hd.version

/-! ## Inside a checkpoint -/

/-- Before the rename of the checkpoint file. -/
def CkptPoint.beforeRename : CkptPoint → Bool
  | .start => true
  | .tmp _ => true
  | .renamed => false
  | .truncated => false

/-- How far `checkpoint_locked` got on disk when it returned. -/
def CkptFault.point (t : Tablet) (rl : Listing) : CkptFault → CkptPoint
  | .openTmp => .start
  | .writeTmp n => .tmp n
  | .rename => .tmp (t.ckptFile rl).length
  | .reopen _ => .renamed
  | .none => .truncated

theorem checkpointLocked_disk (t : Tablet) (rl : Listing) (f : CkptFault) :
    (t.checkpointLocked rl f).2.disk = t.diskAt rl (f.point t rl) := by
  cases f <;> rfl

/-- Recovery from `d` gives back the map and the LSN of `t`. -/
def RecoversTo (d : Disk) (t : Tablet) : Prop :=
  ∃ t', (ofDisk d).recover true = some t' ∧ t'.rows = t.rows ∧ t'.lsn = t.lsn

theorem Durable.recoversTo {t : Tablet} {c : CkptContents} {ops : List Op} {tail : Bytes}
    (hd : Durable t c ops tail) : RecoversTo t.disk t := by
  obtain ⟨t', h1, h2, -⟩ := hd.recover true
  exact ⟨t', h1, h2.rows, h2.lsn⟩

theorem recoversTo_iff (d : Disk) (t : Tablet) :
    RecoversTo d t ↔ ∃ c, ckptContents d.ckpt = some c
      ∧ (scan readRecord d.wal).1.foldl (fun m r => r.effect m) c.rows = t.rows
      ∧ (c.lsn + (scan readRecord d.wal).1.length) % 2 ^ 64 = t.lsn := by
  constructor
  · rintro ⟨t', hrec, hr, hl⟩
    cases hc : ckptContents d.ckpt with
    | none =>
        rw [recover_ofDisk_none hc] at hrec
        exact absurd hrec (by simp)
    | some c =>
        obtain ⟨t'', h1, h2, h3, -⟩ := recover_ofDisk hc rfl true
        obtain rfl : t'' = t' := Option.some.inj (h1.symm.trans hrec)
        exact ⟨c, rfl, h2 ▸ hr, h3 ▸ hl⟩
  · rintro ⟨c, hc, hr, hl⟩
    obtain ⟨t', h1, h2, h3, -⟩ := recover_ofDisk hc rfl true
    exact ⟨t', h1, h2.trans hr, h3.trans hl⟩

/-- The header of a checkpoint file survives even when the rows do not fit. -/
theorem ckptContents_lsn {t : Tablet} {rl : Listing} {c : CkptContents} (hlsn : t.lsn < 2 ^ 64)
    (h : ckptContents (some (t.ckptFile rl)) = some c) : c.lsn = t.lsn := by
  rw [ckptContents, ckptFile, readCheckpoint_encode rl t.bloom (bump_lt _) hlsn, Option.map_map]
    at h
  obtain ⟨q, -, rfl⟩ := Option.map_eq_some_iff.mp h
  rfl

/-- Recovery over a just-written checkpoint file: every record still in the log would
move the LSN once more. -/
theorem recoversTo_ckptFile_iff {t : Tablet} {rl : Listing} (hl : Lists rl t.rows)
    (hlsn : t.lsn < 2 ^ 64) {d : Disk} (hc : d.ckpt = some (t.ckptFile rl))
    (hw : d.wal.length < 2 ^ 64) :
    RecoversTo d t ↔ t.rows.Fits ∧ (scan readRecord d.wal).1 = [] := by
  have hle := scan_length_le consumes_readRecord d.wal
  rw [recoversTo_iff, hc]
  constructor
  · rintro ⟨c, hcc, hrows, hl'⟩
    rw [ckptContents_lsn hlsn hcc] at hl'
    have hz : (scan readRecord d.wal).1 = [] := List.length_eq_zero_iff.mp (by omega)
    rw [hz, List.foldl_nil] at hrows
    exact ⟨hrows ▸ (ckptContents_fits hcc).rows, hz⟩
  · rintro ⟨hf, hz⟩
    refine ⟨_, ckptContents_ckptFile hl hf hlsn, ?_, ?_⟩
    · rw [hz]; rfl
    · rw [hz]; exact Nat.mod_eq_of_lt hlsn

end Tablet

end NCloud
