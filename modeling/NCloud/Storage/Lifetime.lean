import NCloud.Storage.Durable

/-!
# A tablet's lifetime

Every way a tablet can go on from where it is: the operations, checkpoints,
snapshot loads, and a crash that tears the record being appended and is followed by
recovery. `Reach C t` says that `t` is reached from an empty data directory by
steps that each satisfy `C`.

The durability result is `crash_of_reach_clean`. Its side condition `Clean` names
the three ways out of it, all in the handling of checkpoints and truncations that
the operating system refuses or that do not fit the format:

* a checkpoint that has been renamed into place over a log it could not truncate;
* a snapshot load whose checkpoint fails, so that memory has moved and disk has not;
* a torn tail that recovery could not cut off, which hides everything appended later.
-/

namespace NCloud

open Wire Reader

namespace Tablet

/-- One step of a tablet's life. The listings are the orders in which a checkpoint
walks the hash map. -/
inductive Step where
  | put (row col val : Field) (w : WalWrite)
  | cput (row col v1 v2 : Field) (w : WalWrite)
  | del (row col : Field) (w : WalWrite)
  | applyReplicatedPut (row col val : Field) (expected : Nat) (w : WalWrite)
  | applyReplicatedDelete (row col : Field) (expected : Nat) (w : WalWrite)
  | applyReplicatedDeleteAssigning (row col : Field) (w : WalWrite)
  | applyWalDeltaBlob (blob : Bytes) (ws : List WalWrite)
  | loadSnapshotBlob (blob : Bytes) (rl : Listing) (f : CkptFault)
  | checkpoint (rl : Listing) (f : CkptFault)
  /-- `p` of the record of `op` reached the log, then the process died and recovered. -/
  | crash (op : Op) (p : Bytes) (resizeOk : Bool)

/-- The tablet after a step; `none` when recovery refuses its files. -/
def exec (t : Tablet) : Step → Option Tablet
  | .put row col val w => some (t.put row col val w).2
  | .cput row col v1 v2 w => some (t.cput row col v1 v2 w).2
  | .del row col w => some (t.del row col w).2
  | .applyReplicatedPut row col val n w => some (t.applyReplicatedPut row col val n w).2
  | .applyReplicatedDelete row col n w => some (t.applyReplicatedDelete row col n w).2
  | .applyReplicatedDeleteAssigning row col w =>
      some (t.applyReplicatedDeleteAssigning row col w).2
  | .applyWalDeltaBlob blob ws => some (t.applyWalDeltaBlob blob ws).2
  | .loadSnapshotBlob blob rl f => some (t.loadSnapshotBlob blob rl f).2
  | .checkpoint rl f => some (t.checkpoint rl f).2
  | .crash _ p resizeOk => (ofDisk (t.appendWal p).disk).recover resizeOk

/-- What a step may be: a checkpoint walks the map it finds, a torn record is a prefix
of a record, and nothing reaches the log through a stream that is not good. -/
def Valid (t : Tablet) : Step → Prop
  | .loadSnapshotBlob blob rl _ => ∀ t', t.installSnapshot blob = some t' → Lists rl t'.rows
  | .checkpoint rl _ => Lists rl t.rows
  | .crash op p _ => p <+: (WalRecord.ofOp op).encode ∧ (t.stream = .good ∨ p = [])
  | _ => True

/-- The steps after which files and memory still agree. -/
def Clean (t : Tablet) : Step → Prop
  | .loadSnapshotBlob blob _ f => t.installSnapshot blob = none ∨ f = .none
  | .checkpoint _ f =>
      match f with
      | .none => t.rows.Fits
      | .reopen _ => False
      | _ => True
  | .crash _ _ resizeOk => resizeOk = true
  | _ => True

/-- Reached from an empty data directory by valid steps that satisfy `C`. -/
inductive Reach (C : Tablet → Step → Prop) : Tablet → Prop where
  | fresh : Reach C fresh
  | step {t t' : Tablet} (s : Step) :
      Reach C t → Valid t s → C t s → t.exec s = some t' → Reach C t'

/-! ## Snapshots -/

/-- Inserting without overwriting is inserting a part of the list. -/
theorem emplaceRows_eq (rl : Listing) :
    ∃ rl' : Listing, rl'.Sublist rl ∧ emplaceRows rl = rowsOf rl' := by
  have key : ∀ (l : Listing) (m : Rows), ∃ l' : Listing, l'.Sublist l ∧
      l.foldl (fun m p => if p.1 ∈ m then m else m.insert p.1 (colsOf p.2)) m
        = l'.foldl (fun m p => m.insert p.1 (colsOf p.2)) m := by
    intro l
    induction l with
    | nil => exact fun m => ⟨[], List.Sublist.slnil, rfl⟩
    | cons p l ih =>
        intro m
        by_cases hp : p.1 ∈ m
        · obtain ⟨l', hs, he⟩ := ih m
          exact ⟨l', hs.cons p, by rw [List.foldl_cons, if_pos hp, he]⟩
        · obtain ⟨l', hs, he⟩ := ih (m.insert p.1 (colsOf p.2))
          exact ⟨p :: l', hs.cons_cons p, by rw [List.foldl_cons, if_neg hp, he, List.foldl_cons]⟩
  exact key rl ∅

/-- A walk sees no row twice, so nothing is left out when its listing is loaded. -/
theorem emplaceRows_of_nodup {rl : Listing} (h : (rl.map Prod.fst).Nodup) :
    emplaceRows rl = rowsOf rl := by
  have key : ∀ (l : Listing) (m : Rows), (l.map Prod.fst).Nodup → (∀ p ∈ l, p.1 ∉ m) →
      l.foldl (fun m p => if p.1 ∈ m then m else m.insert p.1 (colsOf p.2)) m
        = l.foldl (fun m p => m.insert p.1 (colsOf p.2)) m := by
    intro l
    induction l with
    | nil => exact fun m _ _ => rfl
    | cons p l ih =>
        intro m hnd hm
        obtain ⟨hp, hnd⟩ := List.nodup_cons.mp hnd
        rw [List.foldl_cons, List.foldl_cons, if_neg (hm p List.mem_cons_self)]
        refine ih _ hnd ?_
        intro q hq hmem
        rcases Finmap.mem_insert.mp hmem with he | he
        · exact hp (he ▸ List.mem_map_of_mem hq)
        · exact hm q (List.mem_cons_of_mem _ hq) he
  exact key rl ∅ h (fun p _ => Finmap.notMem_empty)

/-- What `load_snapshot_blob` puts in memory fits a checkpoint file. -/
theorem installSnapshot_fits {t t' : Tablet} {blob : Bytes} (h : t.installSnapshot blob = some t') :
    t'.rows.Fits ∧ t'.lsn < 2 ^ 64 := by
  unfold installSnapshot at h
  split at h
  · exact absurd h (by simp)
  · rename_i version lsn rl rest hr
    obtain ⟨-, hl, h1, h2⟩ := readSnapshot_fits hr
    obtain rfl := Option.some.inj h
    obtain ⟨rl', hs, he⟩ := emplaceRows_eq rl
    refine ⟨?_, hl⟩
    show (emplaceRows rl).Fits
    rw [he]
    exact rowsOf_fits (by have := hs.length_le; omega) (fun p hp => h2 p (hs.subset hp))

/-! ## Files and memory agree -/

/-- The files of `t` hold `t`. -/
def Kept (t : Tablet) : Prop := ∃ c ops tail, Durable t c ops tail

theorem Kept.logs {t t' : Tablet} (h : Kept t) (hl : ∃ ops, Logs t ops t') : Kept t' := by
  obtain ⟨c, ops₀, tail, hd⟩ := h
  obtain ⟨ops, hl⟩ := hl
  obtain ⟨tail', hd'⟩ := hd.logs hl
  exact ⟨c, _, tail', hd'⟩

/-- A checkpoint that completes and fits, or that fails before its rename. -/
theorem Kept.checkpoint {t : Tablet} {rl : Listing} {f : CkptFault} (h : Kept t)
    (hv : Valid t (.checkpoint rl f)) (hc : Clean t (.checkpoint rl f)) :
    Kept (t.checkpoint rl f).2 := by
  obtain ⟨c, ops, tail, hd⟩ := h
  cases f with
  | none => exact ⟨_, _, _, durable_checkpoint hv hc hd.tablet_lsn_lt⟩
  | openTmp => exact ⟨c, ops, tail, hd.diskAt rfl rfl⟩
  | writeTmp n => exact ⟨c, ops, tail, hd.diskAt rfl rfl⟩
  | rename => exact ⟨c, ops, tail, hd.diskAt rfl rfl⟩
  | reopen appendOk => exact absurd hc id

/-- A snapshot that is refused, or loaded and checkpointed. -/
theorem Kept.loadSnapshotBlob {t : Tablet} {blob : Bytes} {rl : Listing} {f : CkptFault}
    (h : Kept t) (hv : Valid t (.loadSnapshotBlob blob rl f))
    (hc : Clean t (.loadSnapshotBlob blob rl f)) : Kept (t.loadSnapshotBlob blob rl f).2 := by
  unfold Tablet.loadSnapshotBlob
  cases hi : t.installSnapshot blob with
  | none => exact h
  | some t' =>
      have hf : f = .none := hc.resolve_left (by simp [hi])
      obtain ⟨hfits, hlsn⟩ := installSnapshot_fits hi
      rw [hf]
      exact ⟨_, _, _, durable_checkpoint (hv t' hi) hfits hlsn⟩

/-- The tablet that recovery has to rebuild from `t` and a prefix `p` of the record of
`op`: `t` itself, or `t` after that operation when the record is complete. -/
structure Recovered (t : Tablet) (op : Op) (p : Bytes) (t' : Tablet) : Prop where
  /-- A torn record never happened. -/
  before : p ≠ (WalRecord.ofOp op).encode → Same t' t
  /-- A complete one did. -/
  after : p = (WalRecord.ofOp op).encode → Same t' (t.logged op t.bloom)
  /-- The log ends with its last complete record. -/
  truncated : ∃ ops, t'.disk.wal = walBytes ops
  /-- And takes the next one. -/
  stream : t'.stream = .good

/-- The operations in the log after recovery. -/
theorem Durable.crash_ops {t t' : Tablet} {c : CkptContents} {ops : List Op} {tail : Bytes}
    (hd : Durable t c ops tail) {op : Op} {p : Bytes} (hv : Valid t (.crash op p true))
    (he : t.exec (.crash op p true) = some t') :
    ∃ ops', Durable t' c ops' []
      ∧ ops' = if p = (WalRecord.ofOp op).encode then ops ++ [op] else ops := by
  rcases hd.append_torn hv.1 hv.2 with ⟨hne, tail', hd'⟩ | ⟨rfl, hs⟩
  · obtain ⟨t₁, h1, -, h3⟩ := hd'.recover true
    obtain rfl := Option.some.inj (h1.symm.trans he)
    exact ⟨ops, (h3 rfl).2, by rw [if_neg hne]⟩
  · obtain ⟨tail', hd'⟩ := hd.logs (Logs.nil.snoc op t.bloom hs)
    obtain ⟨t₁, h1, -, h3⟩ := hd'.recover true
    obtain rfl := Option.some.inj (h1.symm.trans he)
    exact ⟨ops ++ [op], (h3 rfl).2, by rw [if_pos rfl]⟩

theorem Durable.crash_isSome {t : Tablet} {c : CkptContents} {ops : List Op} {tail : Bytes}
    (hd : Durable t c ops tail) (op : Op) (p : Bytes) :
    ∃ t', t.exec (.crash op p true) = some t' := by
  obtain ⟨t', h, -⟩ := recover_ofDisk (d := (t.appendWal p).disk) hd.ckpt rfl true
  exact ⟨t', h⟩

/-- **Recovery after a torn append.** -/
theorem Durable.crash {t : Tablet} {c : CkptContents} {ops : List Op} {tail : Bytes}
    (hd : Durable t c ops tail) {op : Op} {p : Bytes} (hv : Valid t (.crash op p true)) :
    ∃ t', t.exec (.crash op p true) = some t' ∧ Kept t' ∧ Recovered t op p t' := by
  obtain ⟨t', he⟩ := hd.crash_isSome op p
  obtain ⟨ops', hd', ho⟩ := hd.crash_ops hv he
  have hwal : t'.disk.wal = walBytes ops' := by rw [hd'.wal, List.append_nil]
  refine ⟨t', he, ⟨c, _, [], hd'⟩, ?_, ?_, ⟨_, hwal⟩, recover_stream he⟩
  · intro hne
    rw [ho, if_neg hne] at hd'
    exact ⟨by rw [hd'.rows, hd.rows], by rw [hd'.lsn, hd.lsn], by rw [hd'.version, hd.version]⟩
  · intro heq
    rw [ho, if_pos heq] at hd'
    refine ⟨?_, ?_, by rw [hd'.version]; exact hd.version.symm⟩
    · rw [hd'.rows, List.foldl_append]
      show _ = t.rows.apply op
      rw [hd.rows]; rfl
    · rw [hd'.lsn, List.length_append]
      show _ = bump t.lsn
      rw [hd.lsn, bump]
      simp only [List.length_singleton]
      omega

/-- **Every clean step keeps files and memory together.** -/
theorem kept_step {t t' : Tablet} {s : Step} (h : Kept t) (hv : Valid t s) (hc : Clean t s)
    (he : t.exec s = some t') : Kept t' := by
  cases s with
  | put row col val w =>
      obtain rfl := Option.some.inj he
      exact h.logs (put_logs t row col val w)
  | cput row col v1 v2 w =>
      obtain rfl := Option.some.inj he
      exact h.logs (cput_logs t row col v1 v2 w)
  | del row col w =>
      obtain rfl := Option.some.inj he
      exact h.logs (del_logs t row col w)
  | applyReplicatedPut row col val n w =>
      obtain rfl := Option.some.inj he
      exact h.logs (applyReplicatedPut_logs t row col val n w)
  | applyReplicatedDelete row col n w =>
      obtain rfl := Option.some.inj he
      exact h.logs (applyReplicatedDelete_logs t row col n w)
  | applyReplicatedDeleteAssigning row col w =>
      obtain rfl := Option.some.inj he
      exact h.logs (applyReplicatedDeleteAssigning_logs t row col w)
  | applyWalDeltaBlob blob ws =>
      obtain rfl := Option.some.inj he
      exact h.logs (applyWalDeltaBlob_logs t blob ws)
  | loadSnapshotBlob blob rl f =>
      obtain rfl := Option.some.inj he
      exact h.loadSnapshotBlob hv hc
  | checkpoint rl f =>
      obtain rfl := Option.some.inj he
      exact h.checkpoint hv hc
  | crash op p resizeOk =>
      obtain rfl : resizeOk = true := hc
      obtain ⟨c, ops, tail, hd⟩ := h
      obtain ⟨t₁, h1, h2, -⟩ := hd.crash hv
      obtain rfl := Option.some.inj (h1.symm.trans he)
      exact h2

theorem kept_reachable {t : Tablet} (h : Reach Clean t) : Kept t := by
  induction h with
  | fresh => exact ⟨_, _, _, durable_fresh⟩
  | step s _ hv hc he ih => exact kept_step ih hv hc he

/--
**Durability.**

Whatever clean steps came before, and however much of one more record reached the
log: recovery succeeds, rebuilds exactly the tablet before that record (or after it,
when it is complete), and leaves a log that takes the next record. The recovered
tablet is again one that clean steps reach, so the same holds after it.
-/
theorem crash_of_reach_clean {t : Tablet} (h : Reach Clean t) {op : Op} {p : Bytes}
    {resizeOk : Bool} (hv : Valid t (.crash op p resizeOk)) (hc : Clean t (.crash op p resizeOk)) :
    ∃ t', t.exec (.crash op p resizeOk) = some t' ∧ Recovered t op p t' ∧ Reach Clean t' := by
  obtain ⟨c, ops, tail, hd⟩ := kept_reachable h
  obtain rfl : resizeOk = true := hc
  obtain ⟨t', h1, -, h2⟩ := hd.crash hv
  exact ⟨t', h1, h2, h.step _ hv rfl h1⟩

/-! ### One put, and a checkpoint that could not reopen the log -/

/-- A tablet that has logged one put into an empty directory. -/
def onePut (row col val : Field) : Tablet := (fresh.put row col val .ok).2

/-- Its files after a checkpoint that was renamed into place over the old log. -/
def onePutReopen (row col val : Field) : Tablet :=
  ((onePut row col val).checkpoint [(row, [(col, val)])] (.reopen true)).2

theorem onePut_eq (row col val : Field) :
    ∃ b, onePut row col val = fresh.logged (.put row col val) b := by
  obtain ⟨b, hb⟩ := put_ok (t := fresh) rfl row col val
  exact ⟨b, by rw [onePut, hb]⟩

theorem onePut_rows (row col val : Field) :
    (onePut row col val).rows = rowsOf [(row, [(col, val)])] := by
  obtain ⟨b, hb⟩ := onePut_eq row col val
  rw [hb]; rfl

theorem onePut_lists (row col val : Field) :
    Lists [(row, [(col, val)])] (onePut row col val).rows :=
  ⟨by simp, by simp, (onePut_rows row col val).symm⟩

theorem onePut_fits (row col val : Field) : (onePut row col val).rows.Fits :=
  onePut_rows row col val ▸ rowsOf_fits (by simp) (by simp)

theorem onePut_lsn (row col val : Field) : (onePut row col val).lsn = 1 := by
  obtain ⟨b, hb⟩ := onePut_eq row col val
  rw [hb]; rfl

theorem onePut_wal (row col val : Field) :
    (onePut row col val).disk.wal = walBytes [.put row col val] := by
  obtain ⟨b, hb⟩ := onePut_eq row col val
  rw [hb]; simp [logged, appendWal, fresh, ofDisk, walBytes]

theorem onePut_reach {C : Tablet → Step → Prop} (row col val : Field)
    (hC : C fresh (.put row col val .ok)) : Reach C (onePut row col val) :=
  Reach.fresh.step (.put row col val .ok) trivial hC rfl

/-- A single record is far from the size limit of a file. -/
theorem onePut_wal_lt (row col val : Field) : (onePut row col val).disk.wal.length < 2 ^ 64 := by
  have h1 := row.2
  have h2 := col.2
  have h3 := val.2
  rw [onePut_wal]
  simp only [walBytes, List.map_cons, List.map_nil, List.flatMap_cons, List.flatMap_nil,
    WalRecord.encode, WalRecord.ofOp, List.length_append, List.length_cons, List.length_nil,
    leBytes_length]
  omega

theorem onePut_scan (row col val : Field) :
    (scan readRecord (onePut row col val).disk.wal).1 ≠ [] := by
  have hs := scan_walBytes [.put row col val] readRecord_nil
  rw [List.append_nil] at hs
  rw [onePut_wal, hs]
  simp

/-- Over the new checkpoint the old log counts its record a second time. -/
theorem onePut_not_recoversTo (row col val : Field) :
    ¬ RecoversTo ((onePut row col val).diskAt [(row, [(col, val)])] .renamed)
        (onePut row col val) := by
  have hlsn : (onePut row col val).lsn < 2 ^ 64 := by rw [onePut_lsn]; decide
  have hw : ((onePut row col val).diskAt [(row, [(col, val)])] .renamed).wal.length < 2 ^ 64 :=
    onePut_wal_lt row col val
  rw [recoversTo_ckptFile_iff (onePut_lists row col val) hlsn rfl hw]
  exact fun h => onePut_scan row col val h.2

/-- A torn put on a tablet that has done nothing else. -/
theorem crash_of_reach_clean_onePut :
    ∃ t', (onePut emptyField emptyField emptyField).exec
        (.crash (.del emptyField emptyField) [0x34, 0x12] true) = some t'
      ∧ Recovered (onePut emptyField emptyField emptyField)
          (.del emptyField emptyField) [0x34, 0x12] t'
      ∧ Reach Clean t' :=
  crash_of_reach_clean (onePut_reach _ _ _ trivial)
    ⟨by decide, Or.inl (by obtain ⟨b, hb⟩ := onePut_eq emptyField emptyField emptyField; rw [hb]; rfl)⟩
    rfl

/-- After a checkpoint that could not reopen the log, a crash with no further write
does not bring the tablet back: its LSN has grown from 1 to 2. -/
theorem not_recovered_onePutReopen :
    Reach (fun _ _ => True) (onePutReopen emptyField emptyField emptyField)
      ∧ Valid (onePutReopen emptyField emptyField emptyField)
          (.crash (.del emptyField emptyField) [] true)
      ∧ ¬ ∃ t', (onePutReopen emptyField emptyField emptyField).exec
            (.crash (.del emptyField emptyField) [] true) = some t'
          ∧ Recovered (onePutReopen emptyField emptyField emptyField)
              (.del emptyField emptyField) [] t' := by
  refine ⟨?_, ⟨List.nil_prefix, Or.inr rfl⟩, ?_⟩
  · exact (onePut_reach _ _ _ trivial).step (.checkpoint _ (.reopen true)) (onePut_lists _ _ _)
      trivial rfl
  · rintro ⟨t', he, hr⟩
    have hsame := hr.before (by simp [WalRecord.encode])
    refine onePut_not_recoversTo emptyField emptyField emptyField ⟨t', ?_, hsame.rows, hsame.lsn⟩
    have hd : ((onePutReopen emptyField emptyField emptyField).appendWal []).disk
        = (onePut emptyField emptyField emptyField).diskAt
            [(emptyField, [(emptyField, emptyField)])] .renamed := by
      simp [onePutReopen, appendWal, Tablet.checkpoint, checkpointLocked, diskAt]
    rw [← hd]
    exact he

/-! ## Crashes inside a checkpoint -/

/--
**Exactly when a crash inside `checkpoint_locked` is harmless.**

Before the rename nothing recovery reads has changed, so recovery gives the tablet if
the files already held it, as they do after every clean run. After the rename the new
checkpoint is loaded, and it already counts every record that the old log would
replay: the log has to be truncated or without records, and the counts have to fit.
The function's own failure returns leave the files at the same points.
-/
theorem recoversTo_diskAt_iff {t : Tablet} {rl : Listing} (hl : Lists rl t.rows)
    (hlsn : t.lsn < 2 ^ 64) (hwal : t.disk.wal.length < 2 ^ 64) :
    (∀ pt, RecoversTo (t.diskAt rl pt) t ↔
        (pt.beforeRename = true ∧ RecoversTo t.disk t) ∨
        (pt.beforeRename = false ∧ t.rows.Fits ∧
          (pt = .truncated ∨ (scan readRecord t.disk.wal).1 = [])))
      ∧ (∀ f, (t.checkpointLocked rl f).2.disk = t.diskAt rl (f.point t rl))
      ∧ (Reach Clean t → RecoversTo t.disk t) := by
  refine ⟨?_, checkpointLocked_disk t rl, ?_⟩
  · intro pt
    cases pt with
    | start => simp [CkptPoint.beforeRename, diskAt]
    | tmp n =>
        have hsame : RecoversTo (t.diskAt rl (.tmp n)) t ↔ RecoversTo t.disk t := by
          rw [recoversTo_iff, recoversTo_iff]; rfl
        simp [CkptPoint.beforeRename, hsame]
    | renamed =>
        have hw : (t.diskAt rl .renamed).wal.length < 2 ^ 64 := hwal
        rw [recoversTo_ckptFile_iff hl hlsn rfl hw]
        simp [CkptPoint.beforeRename, diskAt]
    | truncated =>
        rw [recoversTo_ckptFile_iff hl hlsn rfl (by simp [diskAt])]
        simp [CkptPoint.beforeRename, diskAt, scan_of_none readRecord_nil]
  · intro h
    obtain ⟨c, ops, tail, hd⟩ := kept_reachable h
    exact hd.recoversTo

theorem recoversTo_diskAt_iff_onePut :
    RecoversTo ((onePut emptyField emptyField emptyField).diskAt
      [(emptyField, [(emptyField, emptyField)])] .truncated) (onePut emptyField emptyField emptyField) :=
  ((recoversTo_diskAt_iff (onePut_lists _ _ _) (by rw [onePut_lsn]; decide)
    (onePut_wal_lt _ _ _)).1 .truncated).mpr (Or.inr ⟨rfl, onePut_fits _ _ _, Or.inl rfl⟩)

/-- A crash between the rename and the truncation, after a single put. -/
theorem not_recoversTo_renamed_onePut :
    Reach Clean (onePut emptyField emptyField emptyField)
      ∧ Lists [(emptyField, [(emptyField, emptyField)])] (onePut emptyField emptyField emptyField).rows
      ∧ ¬ RecoversTo ((onePut emptyField emptyField emptyField).diskAt
          [(emptyField, [(emptyField, emptyField)])] .renamed)
          (onePut emptyField emptyField emptyField) :=
  ⟨onePut_reach _ _ _ trivial, onePut_lists _ _ _, onePut_not_recoversTo _ _ _⟩

end Tablet

end NCloud
