import NCloud.Storage.Lifetime

/-!
# Catching up

One SYNC_FROM exchange: the requester sends its checkpoint version and LSN, the
source answers with the part of its log that is missing or with a snapshot, and the
requester loads the answer.

The source does not store LSNs with its log records. It counts them back from its own
LSN, which is right because the log holds exactly the operations since the last
checkpoint (`Recorded`). Two facts follow: a delta that is sent is always the missing
part, entry by entry (`walDeltaAfter_eq`), and loading it gives the source's map
(`applyWalDeltaBlob_entries`). A snapshot gives it too, as long as the counts of rows
and columns survive the 32 bits they are written in.
-/

namespace NCloud

open Wire Reader

/-- What `build_sync_response` answers: `+DELTA` or `+SNAPSHOT`, and the blob. -/
inductive SyncResponse where
  | delta (blob : Bytes)
  | snapshot (blob : Bytes)

namespace Tablet

/-- The LSN of the first entry in a delta, `read_u64_le_from_string(blob, 8, …)`. -/
def firstDeltaLsn (blob : Bytes) : Option Nat := (word 8 (blob.drop 8)).map Prod.fst

/-- `build_sync_response`, walking the map in the order `rl` if it comes to a snapshot. -/
def buildSyncResponse (t : Tablet) (rl : Listing) (requesterCkptVer requesterLsn : Nat) :
    SyncResponse :=
  if requesterLsn = t.lsn then .delta (t.walDeltaAfter requesterLsn)
  else if requesterCkptVer = t.checkpointVersion ∧ requesterLsn < t.lsn then
    let blob := t.walDeltaAfter requesterLsn
    -- the missing entries may have been folded into a checkpoint, all or some of them
    if blob.length ≤ 8 then .snapshot (t.snapshotBlob rl)
    else if firstDeltaLsn blob ≠ some (bump requesterLsn) then .snapshot (t.snapshotBlob rl)
    else .delta blob
  else .snapshot (t.snapshotBlob rl)

/-- The loading half of `sync_from_primary`, when every write succeeds. -/
def loadSync (t : Tablet) (rl : Listing) : SyncResponse → Bool × Tablet
  | .delta blob => t.applyWalDeltaBlob blob []
  | .snapshot blob => t.loadSnapshotBlob blob rl .none

/-! ## Deltas -/

/-- The entries of a delta: the operations, numbered from `n`. -/
def entries : Nat → List Op → Bytes
  | _, [] => []
  | n, op :: ops => encodeEntry n (.ofOp op) ++ entries (n + 1) ops

theorem encodeEntry_length (n : Nat) (r : WalRecord) : 25 ≤ (encodeEntry n r).length := by
  simp only [encodeEntry, WalRecord.encode, List.length_append, List.length_cons, leBytes_length]
  omega

/-- The first number in a delta with something in it. -/
theorem firstDeltaLsn_entries (m : Nat) {n : Nat} (hn : n < 2 ^ 64) (op : Op) (ops : List Op) :
    firstDeltaLsn (u64 m ++ entries n (op :: ops)) = some n := by
  have h8 : (256 : Nat) ^ 8 = 2 ^ 64 := by decide
  have hdrop : (u64 m ++ entries n (op :: ops)).drop 8 = entries n (op :: ops) :=
    List.drop_left' (leBytes_length 8 m)
  rw [firstDeltaLsn, hdrop, entries, encodeEntry, List.append_assoc,
    word_append_of_lt (h8 ▸ hn), Option.map_some]

/-- Dropping the entries that the requester has leaves the rest, numbered as before. -/
theorem flatMap_zipIdx_entries (first m : Nat) (ops : List Op) (k : Nat) :
    ((ops.map WalRecord.ofOp).zipIdx k).flatMap (fun e =>
        if first + e.2 ≤ m then [] else encodeEntry (first + e.2) e.1)
      = entries (max (first + k) (m + 1)) (ops.drop (m + 1 - (first + k))) := by
  induction ops generalizing k with
  | nil => simp [entries]
  | cons op ops ih =>
      rw [List.map_cons, List.zipIdx_cons, List.flatMap_cons, ih (k + 1)]
      by_cases h : first + k ≤ m
      · obtain ⟨d, hd⟩ : ∃ d, m + 1 - (first + k) = d + 1 := ⟨m - (first + k), by omega⟩
        have h1 : m + 1 - (first + (k + 1)) = d := by omega
        have h2 : max (first + (k + 1)) (m + 1) = max (first + k) (m + 1) := by omega
        rw [if_pos h, hd, List.drop_succ_cons, h1, h2]
        rfl
      · have h1 : m + 1 - (first + k) = 0 := by omega
        have h2 : m + 1 - (first + (k + 1)) = 0 := by omega
        have h3 : max (first + k) (m + 1) = first + k := by omega
        have h4 : max (first + (k + 1)) (m + 1) = first + k + 1 := by omega
        rw [if_neg h, h1, h2, h3, h4]
        rfl

theorem readEntryHead_append {n : Nat} (hn : n < 2 ^ 64) (r : WalRecord) (rest : Bytes) :
    ∃ mid, readEntryHead (encodeEntry n r ++ rest) = some (n, mid)
      ∧ readEntryLengths mid
        = some ((r.op, r.row.1.length, r.col.1.length, r.val.1.length),
            r.row.1 ++ (r.col.1 ++ (r.val.1 ++ rest))) := by
  have h8 : (256 : Nat) ^ 8 = 2 ^ 64 := by decide
  have hmagic : WAL_MAGIC < 256 ^ 4 := by decide
  refine ⟨r.op :: (u32 r.row.1.length ++ (u32 r.col.1.length ++ (u32 r.val.1.length ++
    (r.row.1 ++ (r.col.1 ++ (r.val.1 ++ rest)))))), ?_, ?_⟩
  · rw [readEntryHead, encodeEntry, WalRecord.encode]
    simp only [List.append_assoc, List.cons_append]
    rw [bind_of_some (word_append_of_lt (h8 ▸ hn) _), bind_of_some (word_append_of_lt hmagic _),
      beq_self_eq_true, bind_of_some (require_true _)]
    rfl
  · rw [readEntryLengths, bind_of_some (byte_cons _ _), bind_of_some (word_append_of_lt (field_lt r.row) _),
      bind_of_some (word_append_of_lt (field_lt r.col) _),
      bind_of_some (word_append_of_lt (field_lt r.val) _)]
    rfl

theorem readEntryFields_append (r : WalRecord) (rest : Bytes) :
    readEntryFields r.row.1.length r.col.1.length r.val.1.length
        (r.row.1 ++ (r.col.1 ++ (r.val.1 ++ rest)))
      = some ((r.row, r.col, r.val), rest) := by
  rw [readEntryFields, bind_of_some (body_append _ _), bind_of_some (body_append _ _),
    bind_of_some (body_append _ _)]
  rfl

/-- Logging one entry with the next LSN. -/
theorem applyEntry_ok {t : Tablet} (hs : t.stream = .good) (op : Op) :
    ∃ b, t.applyEntry (bump t.lsn) (.ofOp op) .ok = (true, t.logged op b) := by
  cases op with
  | put row col val =>
      obtain ⟨b, hb⟩ := setCell_logged t row col val
      refine ⟨b, ?_⟩
      simp only [applyEntry, WalRecord.ofOp, if_true, writeWalPut, writeWal, hs, ne_eq,
        not_true_eq_false, if_false]
      exact congrArg (Prod.mk true) hb
  | del row col =>
      have hne : WAL_DELETE ≠ WAL_PUT := by decide
      refine ⟨t.bloom, ?_⟩
      simp only [applyEntry, WalRecord.ofOp, if_true, if_neg hne, writeWalDelete, writeWal, hs, ne_eq,
        not_true_eq_false, if_false]
      exact congrArg (Prod.mk true) (eraseCell_logged t row col)

/-- Without a good stream nothing can be logged. -/
theorem applyEntry_refused {t : Tablet} (hs : t.stream ≠ .good) (n : Nat) (r : WalRecord)
    (w : WalWrite) : (t.applyEntry n r w).1 = false := by
  have hw : ∀ r, t.writeWal r w = (none, t) := by
    intro r
    unfold writeWal
    split <;> first | rfl | (rename_i h; exact absurd h hs)
  unfold applyEntry
  split
  · rw [writeWalPut, hw]
  · split
    · rw [writeWalDelete, hw]
    · rfl

/-- One turn of the loop over an entry with the next LSN. -/
theorem applyDeltaLoop_entry {t : Tablet} (hlt : t.lsn + 1 < 2 ^ 64) (op : Op) (rest : Bytes)
    (fuel : Nat) :
    applyDeltaLoop (fuel + 1) (encodeEntry (t.lsn + 1) (.ofOp op) ++ rest) [] t
      = match t.applyEntry (bump t.lsn) (.ofOp op) .ok with
        | (false, t) => (false, t)
        | (true, t) => applyDeltaLoop fuel rest [] t := by
  have hbump : bump t.lsn = t.lsn + 1 := Nat.mod_eq_of_lt hlt
  have hne : encodeEntry (t.lsn + 1) (.ofOp op) ++ rest ≠ [] := by
    have := encodeEntry_length (t.lsn + 1) (.ofOp op)
    intro h
    have := congrArg List.length h
    rw [List.length_append, List.length_nil] at this
    omega
  obtain ⟨mid, hhead, hlens⟩ := readEntryHead_append hlt (.ofOp op) rest
  rw [applyDeltaLoop, if_neg hne, hhead]
  dsimp only
  rw [if_neg (by omega), if_neg (by rw [hbump]; simp), hlens]
  dsimp only
  rw [readEntryFields_append, hbump]
  rfl

/-- **A delta that starts with the next LSN is applied as a whole.** -/
theorem applyDeltaLoop_entries (ops : List Op) {t : Tablet} (hs : t.stream = .good)
    (hlt : t.lsn + ops.length < 2 ^ 64) {fuel : Nat}
    (hf : (entries (t.lsn + 1) ops).length ≤ fuel) :
    ∃ t', applyDeltaLoop fuel (entries (t.lsn + 1) ops) [] t = (true, t')
      ∧ t'.rows = ops.foldl Rows.apply t.rows ∧ t'.lsn = t.lsn + ops.length := by
  induction ops generalizing t fuel with
  | nil =>
      refine ⟨t, ?_, rfl, rfl⟩
      cases fuel with
      | zero => rfl
      | succ fuel => simp [applyDeltaLoop, entries]
  | cons op ops ih =>
      rw [List.length_cons] at hlt
      have hlen := encodeEntry_length (t.lsn + 1) (.ofOp op)
      rw [entries, List.length_append] at hf
      obtain ⟨fuel, rfl⟩ : ∃ n, fuel = n + 1 := ⟨fuel - 1, by omega⟩
      have hbump : bump t.lsn = t.lsn + 1 := Nat.mod_eq_of_lt (by omega)
      obtain ⟨b, hb⟩ := applyEntry_ok hs op
      rw [entries, applyDeltaLoop_entry (by omega), hb]
      have hl : (t.logged op b).lsn = t.lsn + 1 := hbump
      obtain ⟨t', h1, h2, h3⟩ := @ih (t.logged op b) hs (by omega) fuel
        (by rw [hl]; omega)
      rw [hl] at h1 h3
      refine ⟨t', h1, h2, ?_⟩
      rw [h3, List.length_cons]
      omega

theorem applyWalDeltaBlob_entries (m : Nat) (ops : List Op) {t : Tablet}
    (hs : ops ≠ [] → t.stream = .good) (hlt : t.lsn + ops.length < 2 ^ 64) :
    ∃ t', t.applyWalDeltaBlob (u64 m ++ entries (t.lsn + 1) ops) [] = (true, t')
      ∧ t'.rows = ops.foldl Rows.apply t.rows ∧ t'.lsn = t.lsn + ops.length := by
  unfold applyWalDeltaBlob
  rw [word_append]
  by_cases h : ops = []
  · subst h
    exact ⟨t, rfl, rfl, rfl⟩
  · exact applyDeltaLoop_entries ops (hs h) hlt (Nat.le_refl _)

/-- A delta with something to apply needs a good stream. -/
theorem applyWalDeltaBlob_refused (m : Nat) {ops : List Op} {t : Tablet} (hne : ops ≠ [])
    (hs : t.stream ≠ .good) (hlt : t.lsn + ops.length < 2 ^ 64) :
    (t.applyWalDeltaBlob (u64 m ++ entries (t.lsn + 1) ops) []).1 = false := by
  obtain ⟨op, ops, rfl⟩ := List.exists_cons_of_ne_nil hne
  rw [List.length_cons] at hlt
  have hlen := encodeEntry_length (t.lsn + 1) (.ofOp op)
  unfold applyWalDeltaBlob
  rw [word_append]
  dsimp only
  obtain ⟨fuel, hf⟩ : ∃ n, (entries (t.lsn + 1) (op :: ops)).length = n + 1 :=
    ⟨_, (Nat.sub_add_cancel (by rw [entries, List.length_append]; omega)).symm⟩
  rw [hf, entries, applyDeltaLoop_entry (by omega)]
  have hr := applyEntry_refused hs (bump t.lsn) (.ofOp op) .ok
  split
  · rfl
  · rename_i he
    rw [he] at hr
    exact absurd hr (by simp)

/-! ## Histories -/

/-- The steps that only log and apply operations. -/
def Step.isOperation : Step → Bool
  | .loadSnapshotBlob .. => false
  | .checkpoint .. => false
  | .crash .. => false
  | _ => true

/-- `t` is reached by clean steps, and `h` is everything it has logged: its own
operations, or those of the tablet whose snapshot it loaded last. -/
inductive History : Tablet → List Op → Prop where
  | fresh : History fresh []
  | operation {t t' : Tablet} {h ops : List Op} (s : Step) :
      History t h → s.isOperation = true → t.exec s = some t' → Logs t ops t' →
      History t' (h ++ ops)
  | checkpoint {t : Tablet} {h : List Op} (rl : Listing) (f : CkptFault) :
      History t h → Valid t (.checkpoint rl f) → Clean t (.checkpoint rl f) →
      History (t.checkpoint rl f).2 h
  | crash {t t' : Tablet} {h : List Op} (op : Op) (p : Bytes) :
      History t h → Valid t (.crash op p true) → t.exec (.crash op p true) = some t' →
      History t' (if p = (WalRecord.ofOp op).encode then h ++ [op] else h)
  | loadSnapshot {t s : Tablet} {h h' : List Op} (rl rl' : Listing) :
      History t h → History s h' → Lists rl s.rows → s.rows.Fits →
      Valid t (.loadSnapshotBlob (s.snapshotBlob rl) rl' .none) →
      History (t.loadSnapshotBlob (s.snapshotBlob rl) rl' .none).2 h'

/-- The history is the checkpoint's part followed by the operations in the log. -/
structure Recorded (t : Tablet) (c : CkptContents) (pre ops : List Op) (tail : Bytes) : Prop where
  /-- The files hold the tablet. -/
  durable : Durable t c ops tail
  /-- The checkpoint holds the first part. -/
  rows : c.rows = Rows.replay pre
  /-- And counts it. -/
  lsn : c.lsn = pre.length % 2 ^ 64

section Recorded

variable {t : Tablet} {c : CkptContents} {pre ops : List Op} {tail : Bytes}

theorem Recorded.rows_eq (h : Recorded t c pre ops tail) : t.rows = Rows.replay (pre ++ ops) := by
  rw [h.durable.rows, h.rows, Rows.replay_append]

theorem Recorded.lsn_eq (h : Recorded t c pre ops tail) :
    t.lsn = (pre ++ ops).length % 2 ^ 64 := by
  rw [h.durable.lsn, h.lsn, List.length_append]
  omega

theorem Recorded.scan_eq (h : Recorded t c pre ops tail) :
    (scan readRecord t.disk.wal).1 = ops.map WalRecord.ofOp := by
  rw [h.durable.wal, scan_walBytes ops h.durable.torn]

/-- A checkpoint that is written moves the whole history into its file. -/
theorem recorded_checkpoint {h : List Op} {rl : Listing} (hl : Lists rl t.rows) (hf : t.rows.Fits)
    (hlsn : t.lsn < 2 ^ 64) (hrows : t.rows = Rows.replay h) (hcount : t.lsn = h.length % 2 ^ 64) :
    Recorded (t.checkpointLocked rl .none).2
      ⟨bump t.checkpointVersion, t.lsn, t.rows, t.bloom⟩ h [] [] :=
  ⟨durable_checkpoint hl hf hlsn, hrows, hcount⟩

end Recorded

/-- The snapshot of a tablet that fits, as the loader sees it. -/
theorem installSnapshot_snapshotBlob {t s : Tablet} {rl : Listing} (hl : Lists rl s.rows)
    (hf : s.rows.Fits) (hlsn : s.lsn < 2 ^ 64) (hv : s.checkpointVersion < 2 ^ 64) :
    ∃ b, t.installSnapshot (s.snapshotBlob rl)
      = some { t with rows := s.rows, bloom := b, lsn := s.lsn
                      checkpointVersion := s.checkpointVersion } := by
  obtain ⟨h1, h2⟩ := hl.fits hf
  refine ⟨rl.foldl (fun b p => b.add p.1.1) .empty, ?_⟩
  rw [installSnapshot, snapshotBlob, readSnapshot_encode_of_fits hv hlsn h1 h2]
  simp only [emplaceRows_of_nodup hl.rowKeys, hl.complete]

theorem Durable.version_lt {t : Tablet} {c : CkptContents} {ops : List Op} {tail : Bytes}
    (hd : Durable t c ops tail) : t.checkpointVersion < 2 ^ 64 :=
  hd.version ▸ (ckptContents_fits hd.ckpt).version

/-- **What a tablet has logged is on its disk**, split between checkpoint and log. -/
theorem recorded_of_history {t : Tablet} {h : List Op} (hh : History t h) :
    ∃ c pre ops tail, Recorded t c pre ops tail ∧ h = pre ++ ops := by
  induction hh with
  | fresh => exact ⟨_, [], [], [], ⟨durable_fresh, rfl, rfl⟩, rfl⟩
  | operation s _ _ _ hlogs ih =>
      obtain ⟨c, pre, ops₀, tail, hr, rfl⟩ := ih
      obtain ⟨tail', hd⟩ := hr.durable.logs hlogs
      exact ⟨c, pre, _, tail', ⟨hd, hr.rows, hr.lsn⟩, List.append_assoc _ _ _⟩
  | checkpoint rl f _ hv hc ih =>
      obtain ⟨c, pre, ops, tail, hr, rfl⟩ := ih
      cases f with
      | none =>
          refine ⟨_, _, _, _, recorded_checkpoint hv hc hr.durable.tablet_lsn_lt hr.rows_eq hr.lsn_eq,
            (List.append_nil _).symm⟩
      | openTmp => exact ⟨c, pre, ops, tail, ⟨hr.durable.diskAt rfl rfl, hr.rows, hr.lsn⟩, rfl⟩
      | writeTmp n => exact ⟨c, pre, ops, tail, ⟨hr.durable.diskAt rfl rfl, hr.rows, hr.lsn⟩, rfl⟩
      | rename => exact ⟨c, pre, ops, tail, ⟨hr.durable.diskAt rfl rfl, hr.rows, hr.lsn⟩, rfl⟩
      | reopen appendOk => exact absurd hc id
  | crash op p _ hv he ih =>
      obtain ⟨c, pre, ops, tail, hr, rfl⟩ := ih
      obtain ⟨ops', hd, ho⟩ := hr.durable.crash_ops hv he
      refine ⟨c, pre, ops', [], ⟨hd, hr.rows, hr.lsn⟩, ?_⟩
      rw [ho]
      split
      · rw [List.append_assoc]
      · rfl
  | loadSnapshot rl rl' _ _ hl hf hv _ ih =>
      obtain ⟨c, pre, ops, tail, hr, rfl⟩ := ih
      obtain ⟨b, hb⟩ := installSnapshot_snapshotBlob hl hf hr.durable.tablet_lsn_lt hr.durable.version_lt
      have hv' := hv _ hb
      rw [Tablet.loadSnapshotBlob, hb]
      exact ⟨_, _, _, _, recorded_checkpoint hv' hf hr.durable.tablet_lsn_lt hr.rows_eq hr.lsn_eq,
        (List.append_nil _).symm⟩

/-! ## The exchange -/

/-- Whether the answer has to be a snapshot: the requester is behind, and the versions
differ or the log no longer reaches back to what it lacks. -/
def NeedsSnapshot (p : Tablet) (ver m : Nat) : Prop :=
  m ≠ p.lsn ∧ (ver ≠ p.checkpointVersion ∨ m < p.lsn - (scan readRecord p.disk.wal).1.length)

/-- The requester ends up with the source's map and LSN. -/
def Converges (p f : Tablet) (rl rl' : Listing) : Prop :=
  let r := f.loadSync rl' (p.buildSyncResponse rl f.checkpointVersion f.lsn)
  r.1 = true ∧ r.2.rows = p.rows ∧ r.2.lsn = p.lsn

section Exchange

variable {p : Tablet} {c : CkptContents} {pre ops : List Op} {tail : Bytes}

/-- **The LSNs counted back from the end are the right ones.** -/
theorem walDeltaAfter_eq (hr : Recorded p c pre ops tail) (hn : (pre ++ ops).length < 2 ^ 64)
    (m : Nat) :
    p.walDeltaAfter m
      = u64 m ++ entries (max (pre.length + 1) (m + 1)) (ops.drop (m - pre.length)) := by
  have hlsn : p.lsn = pre.length + ops.length := by
    rw [hr.lsn_eq, Nat.mod_eq_of_lt hn, List.length_append]
  have hfirst : p.firstEntryLsn (ops.map WalRecord.ofOp).length = pre.length + 1 := by
    unfold firstEntryLsn
    rw [List.length_map, hlsn, if_neg (by omega)]
    omega
  have hsub : m + 1 - (pre.length + 1) = m - pre.length := by omega
  simp only [walDeltaAfter, hr.scan_eq, hfirst]
  rw [flatMap_zipIdx_entries, Nat.add_zero, hsub]

theorem needsSnapshot_iff (hr : Recorded p c pre ops tail) (hn : (pre ++ ops).length < 2 ^ 64)
    (ver m : Nat) :
    NeedsSnapshot p ver m ↔
      m ≠ (pre ++ ops).length ∧ (ver ≠ p.checkpointVersion ∨ m < pre.length) := by
  rw [NeedsSnapshot, hr.scan_eq, hr.lsn_eq, Nat.mod_eq_of_lt hn, List.length_map,
    List.length_append, Nat.add_sub_cancel]

/-- **The answer**, for a requester whose LSN is within the history. -/
theorem buildSyncResponse_eq (hr : Recorded p c pre ops tail) (hn : (pre ++ ops).length < 2 ^ 64)
    (rl : Listing) (ver : Nat) {m : Nat} (hm : m ≤ (pre ++ ops).length) :
    (NeedsSnapshot p ver m ∧ p.buildSyncResponse rl ver m = .snapshot (p.snapshotBlob rl))
      ∨ (¬ NeedsSnapshot p ver m ∧ p.buildSyncResponse rl ver m
          = .delta (u64 m ++ entries (m + 1) ((pre ++ ops).drop m))) := by
  have hlsn : p.lsn = (pre ++ ops).length := by rw [hr.lsn_eq, Nat.mod_eq_of_lt hn]
  have hlen : (pre ++ ops).length = pre.length + ops.length := List.length_append
  rw [needsSnapshot_iff hr hn]
  unfold buildSyncResponse
  rw [hlsn]
  by_cases hcaught : m = (pre ++ ops).length
  · -- caught up: nothing in the log is newer
    refine Or.inr ⟨fun h => h.1 hcaught, ?_⟩
    rw [if_pos hcaught, walDeltaAfter_eq hr hn, List.drop_eq_nil_of_le (by omega),
      List.drop_eq_nil_of_le (by omega)]
    rfl
  · rw [if_neg hcaught]
    by_cases hver : ver = p.checkpointVersion
    · rw [if_pos ⟨hver, by omega⟩]
      by_cases hpre : m < pre.length
      · -- the first missing entry is in the checkpoint
        refine Or.inl ⟨⟨hcaught, Or.inr hpre⟩, ?_⟩
        have hzero : m - pre.length = 0 := by omega
        have hmax : max (pre.length + 1) (m + 1) = pre.length + 1 := by omega
        have hblob := walDeltaAfter_eq hr hn m
        rw [hzero, hmax, List.drop_zero] at hblob
        dsimp only
        rw [hblob]
        cases ops with
        | nil =>
            rw [if_pos]
            simp [entries, leBytes_length]
        | cons op ops =>
            have h25 := encodeEntry_length (pre.length + 1) (.ofOp op)
            rw [List.length_cons] at hlen
            have hfirst : firstDeltaLsn (u64 m ++ entries (pre.length + 1) (op :: ops))
                = some (pre.length + 1) := firstDeltaLsn_entries m (by omega) op ops
            have hbump : bump m = m + 1 := Nat.mod_eq_of_lt (by omega)
            rw [if_neg, if_pos]
            · rw [hfirst, hbump]
              intro h
              have := Option.some.inj h
              omega
            · rw [List.length_append, leBytes_length, entries, List.length_append]
              omega
      · -- the log reaches back to the first missing entry
        refine Or.inr ⟨fun h => h.2.elim (fun h' => h' hver) hpre, ?_⟩
        have hmax : max (pre.length + 1) (m + 1) = m + 1 := by omega
        have hdrop : ops.drop (m - pre.length) = (pre ++ ops).drop m := by
          rw [List.drop_append, List.drop_eq_nil_of_le (Nat.le_of_not_lt hpre), List.nil_append]
        have hblob := walDeltaAfter_eq hr hn m
        rw [hmax, hdrop] at hblob
        dsimp only
        rw [hblob]
        obtain ⟨op, rest, hcons⟩ : ∃ op rest, (pre ++ ops).drop m = op :: rest :=
          List.exists_cons_of_ne_nil (by
            intro h
            have := congrArg List.length h
            rw [List.length_drop, List.length_nil] at this
            omega)
        have h25 := encodeEntry_length (m + 1) (.ofOp op)
        have hbump : bump m = m + 1 := Nat.mod_eq_of_lt (by omega)
        rw [hcons, if_neg, if_neg]
        · rw [firstDeltaLsn_entries m (by omega), hbump]
          simp
        · rw [List.length_append, leBytes_length, entries, List.length_append]
          omega
    · rw [if_neg (fun h => hver h.1)]
      exact Or.inl ⟨⟨hcaught, Or.inl hver⟩, rfl⟩

end Exchange

/-- Loading a snapshot gives the source's map exactly when the counts fit. -/
theorem loadSnapshotBlob_converges_iff {p : Tablet} (f : Tablet) {rl : Listing} (rl' : Listing)
    (hl : Lists rl p.rows)
    (hlsn : p.lsn < 2 ^ 64) (hv : p.checkpointVersion < 2 ^ 64) :
    ((f.loadSnapshotBlob (p.snapshotBlob rl) rl' .none).1 = true
        ∧ (f.loadSnapshotBlob (p.snapshotBlob rl) rl' .none).2.rows = p.rows
        ∧ (f.loadSnapshotBlob (p.snapshotBlob rl) rl' .none).2.lsn = p.lsn)
      ↔ p.rows.Fits := by
  constructor
  · rintro ⟨h1, h2, -⟩
    rw [Tablet.loadSnapshotBlob] at h1 h2
    cases hi : f.installSnapshot (p.snapshotBlob rl) with
    | none =>
        rw [hi] at h1
        exact absurd h1 (by simp)
    | some f' =>
        -- what was read fits, so it can only be the whole map if that fits
        rw [hi] at h2
        obtain ⟨hf, -⟩ := installSnapshot_fits hi
        rwa [show f'.rows = p.rows from h2] at hf
  · intro hf
    obtain ⟨b, hb⟩ := installSnapshot_snapshotBlob (t := f) hl hf hlsn hv
    rw [Tablet.loadSnapshotBlob, hb]
    exact ⟨rfl, rfl, rfl⟩

/--
**Exactly when an exchange brings the requester level.**

The requester has the first `m` operations of the source's history and nothing else.
A snapshot needs counts that fit, a delta needs a log to append to. And a delta, when
one is sent, is the missing operations numbered from `m + 1`.
-/
theorem converges_iff {p f : Tablet} {h : List Op} (hp : History p h) (hn : h.length < 2 ^ 64)
    {m : Nat} (hm : m ≤ h.length) (hrows : f.rows = Rows.replay (h.take m)) (hlsn : f.lsn = m)
    {rl : Listing} (hl : Lists rl p.rows) (rl' : Listing) :
    (Converges p f rl rl' ↔
        (NeedsSnapshot p f.checkpointVersion m → p.rows.Fits) ∧
        (¬ NeedsSnapshot p f.checkpointVersion m → m < h.length → f.stream = .good))
      ∧ ∀ blob, p.buildSyncResponse rl f.checkpointVersion m = .delta blob →
          blob = u64 m ++ entries (m + 1) (h.drop m) := by
  obtain ⟨c, pre, ops, tail, hr, rfl⟩ := recorded_of_history hp
  unfold Converges
  rw [hlsn]
  rcases buildSyncResponse_eq hr hn rl f.checkpointVersion hm with ⟨hsnap, hresp⟩ | ⟨hsnap, hresp⟩
  · rw [hresp]
    refine ⟨?_, fun blob hb => absurd hb (by simp)⟩
    have hiff := loadSnapshotBlob_converges_iff f rl' hl hr.durable.tablet_lsn_lt
      hr.durable.version_lt
    simp only [hsnap, true_implies, not_true_eq_false, false_implies, and_true]
    exact hiff
  · rw [hresp]
    refine ⟨?_, fun blob hb => (SyncResponse.delta.inj hb).symm⟩
    simp only [hsnap, false_implies, not_false_eq_true, true_implies, true_and, loadSync]
    have hdl : ((pre ++ ops).drop m).length = (pre ++ ops).length - m := List.length_drop
    have hlt : f.lsn + ((pre ++ ops).drop m).length < 2 ^ 64 := by omega
    constructor
    · rintro ⟨h1, -⟩ hlt'
      by_contra hs
      have hne : (pre ++ ops).drop m ≠ [] := by
        intro he
        rw [he, List.length_nil] at hdl
        omega
      have hfalse := applyWalDeltaBlob_refused m hne hs hlt
      rw [hlsn] at hfalse
      rw [hfalse] at h1
      exact absurd h1 (by simp)
    · intro hs
      obtain ⟨f', h1, h2, h3⟩ := applyWalDeltaBlob_entries m ((pre ++ ops).drop m) (t := f)
        (fun hne => hs (by
          by_contra hge
          exact hne (List.drop_eq_nil_of_le (by omega)))) hlt
      rw [hlsn] at h1 h3
      rw [h1]
      refine ⟨rfl, ?_, ?_⟩
      · rw [h2, hrows, ← Rows.replay_append, List.take_append_drop, hr.rows_eq]
      · show f'.lsn = p.lsn
        rw [h3, hr.lsn_eq, Nat.mod_eq_of_lt hn]
        omega

/-! ### A source with `2 ^ 32` rows -/

/-- The row keys `0, 1, 2, …` in four bytes. -/
def rowKey (i : Nat) : Field := ⟨leBytes 4 i, by rw [leBytes_length]; decide⟩

/-- One put into each of the first `n` rows. -/
def rowPuts (n : Nat) : List Op := (List.range n).map (fun i => .put (rowKey i) emptyField emptyField)

/-- A tablet that has done them. -/
def rowsTablet (n : Nat) : Tablet :=
  (List.range n).foldl (fun t i => (t.put (rowKey i) emptyField emptyField .ok).2) fresh

/-- The order in which they were made. -/
def rowsListing (n : Nat) : Listing := (List.range n).map (fun i => (rowKey i, [(emptyField, emptyField)]))

theorem rowKey_inj {i j : Nat} (hi : i < 2 ^ 32) (hj : j < 2 ^ 32) (h : rowKey i = rowKey j) :
    i = j :=
  leBytes_inj (w := 4) hi hj (congrArg Subtype.val h)

theorem rowsListing_keys {n : Nat} (hn : n ≤ 2 ^ 32) :
    ((rowsListing n).map Prod.fst).Nodup := by
  rw [rowsListing, List.map_map]
  refine List.Nodup.map_on ?_ List.nodup_range
  intro i hi j hj he
  rw [List.mem_range] at hi hj
  exact rowKey_inj (by omega) (by omega) he

theorem rowsListing_complete {n : Nat} (hn : n ≤ 2 ^ 32) :
    rowsOf (rowsListing n) = Rows.replay (rowPuts n) := by
  induction n with
  | zero => rfl
  | succ n ih =>
      have hsplit : rowsListing (n + 1) = rowsListing n ++ [(rowKey n, [(emptyField, emptyField)])] := by
        rw [rowsListing, List.range_succ, List.map_append]; rfl
      have hnew : rowKey n ∉ rowsOf (rowsListing n) := by
        have hnd := rowsListing_keys hn
        rw [hsplit, List.map_append] at hnd
        intro hmem
        have hk : rowKey n ∈ (rowsListing n).map Prod.fst := by
          rw [← List.mem_toFinset, ← rowsOf_keys]
          exact Finmap.mem_keys.mpr hmem
        exact (List.nodup_append.mp hnd).2.2 _ hk _ (by simp) rfl
      have hlook : (Rows.replay (rowPuts n)).lookup (rowKey n) = none := by
        rw [← ih (by omega)]
        exact Finmap.lookup_eq_none.mpr hnew
      rw [rowPuts, List.range_succ, List.map_append, List.map_singleton, Rows.replay_snoc, hsplit,
        rowsOf, List.foldl_append]
      show (rowsOf (rowsListing n)).insert (rowKey n) _ = (Rows.replay (rowPuts n)).put _ _ _
      rw [ih (by omega), Rows.put, hlook]
      rfl

theorem rowsTablet_succ (n : Nat) :
    rowsTablet (n + 1) = ((rowsTablet n).put (rowKey n) emptyField emptyField .ok).2 := by
  rw [rowsTablet, List.range_succ, List.foldl_append]
  rfl

theorem rowsTablet_history (n : Nat) :
    History (rowsTablet n) (rowPuts n) ∧ (rowsTablet n).stream = .good
      ∧ (rowsTablet n).checkpointVersion = 0 := by
  induction n with
  | zero => exact ⟨History.fresh, rfl, rfl⟩
  | succ n ih =>
      obtain ⟨hh, hs, hv⟩ := ih
      obtain ⟨b, hb⟩ := put_ok hs (rowKey n) emptyField emptyField
      have hput := congrArg Prod.snd hb
      dsimp only at hput
      have hlogs : Logs (rowsTablet n) ([] ++ [.put (rowKey n) emptyField emptyField])
          (rowsTablet (n + 1)) := by
        rw [rowsTablet_succ, hput]
        exact Logs.nil.snoc _ b hs
      refine ⟨?_, ?_, ?_⟩
      · rw [rowPuts, List.range_succ, List.map_append]
        exact hh.operation (.put (rowKey n) emptyField emptyField .ok) rfl
          (by rw [rowsTablet_succ]; rfl) hlogs
      · rw [rowsTablet_succ, hput]; exact hs
      · rw [rowsTablet_succ, hput]; exact hv

theorem rowsTablet_lists {n : Nat} (hn : n ≤ 2 ^ 32) :
    Lists (rowsListing n) (rowsTablet n).rows := by
  obtain ⟨c, pre, ops, tail, hr, ho⟩ := recorded_of_history (rowsTablet_history n).1
  refine ⟨rowsListing_keys hn, ?_, ?_⟩
  · intro q hq
    obtain ⟨i, -, rfl⟩ := List.mem_map.mp hq
    simp
  · rw [rowsListing_complete hn, hr.rows_eq, ho]

theorem rowsTablet_not_fits {n : Nat} (hn : n = 2 ^ 32) : ¬ (rowsTablet n).rows.Fits := by
  intro hf
  have hlen := (rowsTablet_lists (Nat.le_of_eq hn)).length_eq
  have h := hf.nrows
  rw [← hlen, rowsListing, List.length_map, List.length_range] at h
  omega

/-- A requester that has only checkpointed its empty map. -/
def emptyFollower : Tablet := (fresh.checkpoint [] .none).2

theorem rowsTablet_not_converges {n : Nat} (hn : n = 2 ^ 32) :
    ¬ Converges (rowsTablet n) emptyFollower (rowsListing n) [] := by
  have hlen : (rowPuts n).length = n := by rw [rowPuts, List.length_map, List.length_range]
  obtain ⟨hh, -, hv⟩ := rowsTablet_history n
  obtain ⟨c, pre, ops, tail, hr, ho⟩ := recorded_of_history hh
  have hlsn : (rowsTablet n).lsn = n := by
    rw [hr.lsn_eq, ← ho, hlen]
    exact Nat.mod_eq_of_lt (by omega)
  rw [(converges_iff hh (by omega) (m := 0) (Nat.zero_le _) rfl rfl
    (rowsTablet_lists (Nat.le_of_eq hn)) []).1]
  intro h
  refine rowsTablet_not_fits hn (h.1 ⟨by omega, Or.inl ?_⟩)
  rw [hv]
  show (1 : Nat) ≠ 0
  omega

theorem onePut_history (row col val : Field) :
    History (onePut row col val) [.put row col val] := by
  obtain ⟨b, hb⟩ := onePut_eq row col val
  have hlogs : Logs fresh ([] ++ [.put row col val]) (onePut row col val) := by
    rw [hb]
    exact Logs.nil.snoc _ b rfl
  exact History.fresh.operation (.put row col val .ok) rfl rfl hlogs

theorem converges_iff_onePut :
    Converges (onePut emptyField emptyField emptyField) fresh
      [(emptyField, [(emptyField, emptyField)])] [] :=
  ((converges_iff (m := 0) (onePut_history emptyField emptyField emptyField) (by decide) (by decide)
    rfl rfl (onePut_lists _ _ _) []).1).mpr ⟨fun _ => onePut_fits _ _ _, fun _ _ => rfl⟩

/-- `2 ^ 32` rows and a requester with another checkpoint version: the snapshot says
that it holds no rows, and the requester believes it. -/
theorem not_converges_rowsTablet :
    History (rowsTablet (2 ^ 32)) (rowPuts (2 ^ 32)) ∧ History emptyFollower []
      ∧ Lists (rowsListing (2 ^ 32)) (rowsTablet (2 ^ 32)).rows
      ∧ ¬ Converges (rowsTablet (2 ^ 32)) emptyFollower (rowsListing (2 ^ 32)) [] :=
  ⟨(rowsTablet_history _).1,
    History.fresh.checkpoint [] .none ⟨by simp, by simp, rfl⟩ emptyRows_fits,
    rowsTablet_lists (Nat.le_refl _), rowsTablet_not_converges rfl⟩

end Tablet

end NCloud
