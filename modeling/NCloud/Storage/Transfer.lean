import NCloud.Storage.Sync

/-!
# Snapshots and deltas on any bytes

What a tablet that catches up does with the bytes it is sent.

A snapshot is all or nothing. It is parsed into a new map before anything of the
tablet is touched, so that a blob that lost its end changes nothing, and a whole one
gives the tablet the map, the LSN and the next version of its source, in memory and on
disk.

A delta is applied entry by entry, and what was applied before an entry fails stays.
The loop over bytes is first brought to a loop over the entries that parse
(`applyDeltaLoop_eq`). That loop leaves out every entry whose LSN the tablet has
reached, be it old or a second copy, applies the ones that come next, and stops at
anything else (`unseen`).
-/

namespace NCloud

open Wire Reader

namespace Tablet

/-! ## Snapshots -/

/-- Over a checkpoint file, recovery of a running tablet is recovery of its files. -/
theorem recover_eq_ofDisk {t : Tablet} {file : Bytes} (hs : t.stream = .good)
    (hc : t.disk.ckpt = some file) (resizeOk : Bool) :
    t.recover resizeOk = (ofDisk t.disk).recover resizeOk := by
  have hload : t.loadCheckpoint = (ofDisk t.disk).loadCheckpoint := by
    have hdisk : (ofDisk t.disk).disk = t.disk := rfl
    rw [loadCheckpoint, loadCheckpoint, hdisk, hc]
    dsimp only
    cases readCheckpoint file with
    | none => rfl
    | some q =>
        show some _ = some _
        rw [ofDisk, hs]
  rw [recover, recover, hload]

/--
**The snapshot codec.**

A tablet that loads the snapshot of another has its map and LSN and the version after
its version, and recovers to the same, in place or from its files. A snapshot that
lost its end is refused and changes nothing.
-/
theorem loadSnapshotBlob_snapshotBlob (s t : Tablet) (rl : Listing) (hl : Lists rl s.rows)
    (hf : s.rows.Fits) (hlsn : s.lsn < 2 ^ 64) (hv : s.checkpointVersion < 2 ^ 64) :
    (∀ rl', Lists rl' s.rows → ∃ t', t.loadSnapshotBlob (s.snapshotBlob rl) rl' .none = (true, t')
        ∧ t'.rows = s.rows ∧ t'.lsn = s.lsn ∧ t'.checkpointVersion = bump s.checkpointVersion
        ∧ ∀ resizeOk, ∃ t'', t'.recover resizeOk = some t'' ∧ (ofDisk t'.disk).recover resizeOk = some t''
          ∧ Same t'' t')
      ∧ ∀ p, p <+: s.snapshotBlob rl → p ≠ s.snapshotBlob rl →
          ∀ rl' f, t.loadSnapshotBlob p rl' f = (false, t) := by
  constructor
  · intro rl' hl'
    obtain ⟨b, hb⟩ := installSnapshot_snapshotBlob (t := t) hl hf hlsn hv
    rw [loadSnapshotBlob, hb]
    refine ⟨_, rfl, rfl, rfl, rfl, ?_⟩
    intro resizeOk
    have hd := durable_checkpoint (t := { t with
      rows := s.rows, bloom := b, lsn := s.lsn, checkpointVersion := s.checkpointVersion }) hl' hf hlsn
    obtain ⟨t'', hrec, hsame, -⟩ := hd.recover resizeOk
    exact ⟨t'', (recover_eq_ofDisk rfl rfl resizeOk).trans hrec, hrec, hsame⟩
  · intro p hp hne rl' f
    obtain ⟨h1, h2⟩ := hl.fits hf
    have hnone : readSnapshot p = none := by
      have hread : readSnapshot (s.snapshotBlob rl) = _ := readSnapshot_encode_of_fits hv hlsn h1 h2
      obtain ⟨back, hback⟩ := hp
      rw [← hback] at hread
      refine none_of_strict_prefix cuts_readSnapshot.extends ?_ hread
      rintro rfl
      exact hne (by rw [← hback, List.append_nil])
    rw [loadSnapshotBlob, installSnapshot, hnone]

/-- The snapshot of a tablet with one cell, loaded into a new one. -/
theorem loadSnapshotBlob_snapshotBlob_onePut :
    ∃ t', fresh.loadSnapshotBlob ((onePut emptyField emptyField emptyField).snapshotBlob
        [(emptyField, [(emptyField, emptyField)])]) [(emptyField, [(emptyField, emptyField)])] .none = (true, t')
      ∧ t'.rows = (onePut emptyField emptyField emptyField).rows := by
  have hv : (onePut emptyField emptyField emptyField).checkpointVersion < 2 ^ 64 := by
    obtain ⟨b, hb⟩ := onePut_eq emptyField emptyField emptyField
    rw [hb]
    show (0 : Nat) < 2 ^ 64
    decide
  obtain ⟨t', h1, h2, -⟩ := (loadSnapshotBlob_snapshotBlob (onePut emptyField emptyField emptyField) fresh _
    (onePut_lists _ _ _) (onePut_fits _ _ _) (by rw [onePut_lsn]; decide) hv).1 _ (onePut_lists _ _ _)
  exact ⟨t', h1, h2⟩

/-! ## The entries of a delta -/

/-- One entry: its LSN and its record. -/
def readEntry : Reader (Nat × WalRecord) := do
  let entryLsn ← readEntryHead
  let lens ← readEntryLengths
  let fields ← readEntryFields lens.2.1 lens.2.2.1 lens.2.2.2
  return (entryLsn, ⟨lens.1, fields.1, fields.2.1, fields.2.2⟩)

/-- The well-formed entries at the front of a blob. -/
def deltaEntries (blob : Bytes) : List (Nat × WalRecord) :=
  match word 8 blob with
  | none => []
  | some (_, rest) => (scan readEntry rest).1

/-- The entries whose LSN is above the tablet's and above that of each entry before. -/
def unseen : Nat → List (Nat × WalRecord) → List (Nat × WalRecord)
  | _, [] => []
  | lsn, e :: es => if e.1 ≤ lsn then unseen lsn es else e :: unseen e.1 es

/-- The loop of `apply_wal_delta_blob` over parsed entries. -/
def applyEntries : List (Nat × WalRecord) → List WalWrite → Tablet → Tablet
  | [], _, t => t
  | (entryLsn, r) :: es, ws, t =>
      if entryLsn ≤ t.lsn then applyEntries es ws t
      else if entryLsn ≠ bump t.lsn then t
      else
        match t.applyEntry entryLsn r (ws.headD .ok) with
        | (false, t) => t
        | (true, t) => applyEntries es ws.tail t

theorem readEntryLengths_lt {bs rest : Bytes} {op : UInt8} {rowlen collen vallen : Nat}
    (h : readEntryLengths bs = some ((op, rowlen, collen, vallen), rest)) :
    rowlen < 2 ^ 32 ∧ collen < 2 ^ 32 ∧ vallen < 2 ^ 32 := by
  obtain ⟨op', m1, -, h1⟩ := bind_eq_some.mp h
  obtain ⟨r, m2, hr, h2⟩ := bind_eq_some.mp h1
  obtain ⟨c, m3, hc, h3⟩ := bind_eq_some.mp h2
  obtain ⟨v, m4, hv, h4⟩ := bind_eq_some.mp h3
  obtain ⟨heq, -⟩ := Prod.mk.inj (Option.some.inj h4)
  cases heq
  exact ⟨word_lt hr, word_lt hc, word_lt hv⟩

theorem body_of_le {n : Nat} {bs : Bytes} (h : n ≤ bs.length) (hn : n < 2 ^ 32) :
    ∃ f : Field, body n bs = some (f, bs.drop n) := by
  unfold body
  rw [dif_pos ⟨h, hn⟩]
  exact ⟨_, rfl⟩

/-- The three fields parse exactly when there are bytes enough for them. -/
theorem readEntryFields_cases {rowlen collen vallen : Nat} (hr : rowlen < 2 ^ 32) (hc : collen < 2 ^ 32)
    (hv : vallen < 2 ^ 32) (bs : Bytes) :
    (rowlen + collen + vallen ≤ bs.length ∧ ∃ fields, readEntryFields rowlen collen vallen bs =
        some (fields, bs.drop (rowlen + collen + vallen)))
      ∨ (bs.length < rowlen + collen + vallen ∧ readEntryFields rowlen collen vallen bs = none) := by
  by_cases hlen : rowlen + collen + vallen ≤ bs.length
  · obtain ⟨row, hrow⟩ := @body_of_le rowlen bs (by omega) hr
    obtain ⟨col, hcol⟩ := @body_of_le collen (bs.drop rowlen) (by rw [List.length_drop]; omega) hc
    obtain ⟨val, hval⟩ := @body_of_le vallen ((bs.drop rowlen).drop collen)
      (by rw [List.length_drop, List.length_drop]; omega) hv
    refine Or.inl ⟨hlen, (row, col, val), ?_⟩
    rw [readEntryFields, bind_of_some hrow, bind_of_some hcol, bind_of_some hval, List.drop_drop,
      List.drop_drop, ← Nat.add_assoc]
    rfl
  · refine Or.inr ⟨by omega, ?_⟩
    cases hread : readEntryFields rowlen collen vallen bs with
    | none => rfl
    | some q =>
        -- what was read was there
        obtain ⟨row, m1, h1, k1⟩ := bind_eq_some.mp hread
        obtain ⟨col, m2, h2, k2⟩ := bind_eq_some.mp k1
        obtain ⟨val, m3, h3, -⟩ := bind_eq_some.mp k2
        obtain ⟨rfl, rfl⟩ := body_eq_some h1
        obtain ⟨rfl, rfl⟩ := body_eq_some h2
        obtain ⟨rfl, rfl⟩ := body_eq_some h3
        simp only [List.length_append] at hlen
        omega

theorem cuts_readEntryLengths : Cuts readEntryLengths := by
  refine cuts_bind cuts_byte fun op => ?_
  refine cuts_bind (cuts_word 4) fun rowlen => ?_
  refine cuts_bind (cuts_word 4) fun collen => ?_
  exact cuts_bind (cuts_word 4) fun vallen => cuts_pure _

theorem cuts_readEntryFields (rowlen collen vallen : Nat) : Cuts (readEntryFields rowlen collen vallen) := by
  refine cuts_bind (cuts_body rowlen) fun row => ?_
  refine cuts_bind (cuts_body collen) fun col => ?_
  exact cuts_bind (cuts_body vallen) fun val => cuts_pure _

theorem consumes_readEntryHead : Consumes readEntryHead := by
  refine consumes_word_bind fun entryLsn => ?_
  exact (cuts_bind (cuts_word 4) fun magic => cuts_bind (cuts_require _) fun _ => cuts_pure entryLsn).shrinks

theorem consumes_readEntry : Consumes readEntry := by
  intro bs e rest h
  obtain ⟨n, m1, h1, h2⟩ := bind_eq_some.mp h
  obtain ⟨lens, m2, h3, h4⟩ := bind_eq_some.mp h2
  obtain ⟨fields, m3, h5, h6⟩ := bind_eq_some.mp h4
  obtain ⟨-, rfl⟩ := Prod.mk.inj (Option.some.inj h6)
  have hhead := consumes_readEntryHead bs n m1 h1
  have hlens := cuts_readEntryLengths.shrinks m1 lens m2 h3
  have hfields := (cuts_readEntryFields _ _ _).shrinks m2 fields m3 h5
  omega

/-- **One turn of the byte loop** is one turn of the loop over entries, as long as the
lengths of an entry cannot wrap. -/
theorem applyDeltaLoop_turn (fuel : Nat) {rest : Bytes} (hlen : rest.length < 2 ^ 32) (ws : List WalWrite)
    (t : Tablet) :
    (applyDeltaLoop (fuel + 1) rest ws t).2 =
      match readEntry rest with
      | none => t
      | some ((entryLsn, r), more) =>
          if entryLsn ≤ t.lsn then (applyDeltaLoop fuel more ws t).2
          else if entryLsn ≠ bump t.lsn then t
          else
            match t.applyEntry entryLsn r (ws.headD .ok) with
            | (false, t) => t
            | (true, t) => (applyDeltaLoop fuel more ws.tail t).2 := by
  rw [applyDeltaLoop]
  by_cases hnil : rest = []
  · subst hnil
    rfl
  · rw [if_neg hnil]
    cases hhead : readEntryHead rest with
    | none =>
        have hnone : readEntry rest = none := bind_of_none hhead
        rw [hnone]
    | some q =>
        obtain ⟨entryLsn, m1⟩ := q
        dsimp only
        cases hlens : readEntryLengths m1 with
        | none =>
            have hnone : readEntry rest = none := by
              rw [readEntry, bind_of_some hhead, bind_of_none hlens]
            rw [hnone]
            dsimp only
            split
            · rfl
            · split <;> rfl
        | some q =>
            obtain ⟨⟨op, rowlen, collen, vallen⟩, m2⟩ := q
            dsimp only
            obtain ⟨hr, hc, hv⟩ := readEntryLengths_lt hlens
            have hm1 := consumes_readEntryHead rest _ m1 hhead
            have hm2 := cuts_readEntryLengths.shrinks m1 _ m2 hlens
            rcases readEntryFields_cases hr hc hv m2 with ⟨hle, ⟨row, col, val⟩, hfields⟩ | ⟨hlt, hfields⟩
            · have hsome : readEntry rest =
                  some ((entryLsn, ⟨op, row, col, val⟩), m2.drop (rowlen + collen + vallen)) := by
                rw [readEntry, bind_of_some hhead, bind_of_some hlens, bind_of_some hfields]
                rfl
              have hmod : (rowlen + collen + vallen) % 2 ^ 32 = rowlen + collen + vallen :=
                Nat.mod_eq_of_lt (by omega)
              rw [hsome, hfields]
              dsimp only
              rw [if_neg (by omega : ¬ rowlen + collen + vallen > m2.length), hmod]
              split
              · rfl
              · split
                · rfl
                · cases t.applyEntry entryLsn ⟨op, row, col, val⟩ (ws.headD .ok) with
                  | mk ok t₁ => cases ok <;> rfl
            · have hnone : readEntry rest = none := by
                rw [readEntry, bind_of_some hhead, bind_of_some hlens, bind_of_none hfields]
              rw [hnone, hfields]
              dsimp only
              rw [if_pos (by omega : rowlen + collen + vallen > m2.length)]
              split
              · rfl
              · split <;> rfl

/-- **The byte loop, entry by entry.** -/
theorem applyDeltaLoop_eq {fuel : Nat} {rest : Bytes} (hfuel : rest.length ≤ fuel) (hlen : rest.length < 2 ^ 32)
    (ws : List WalWrite) (t : Tablet) :
    (applyDeltaLoop fuel rest ws t).2 = applyEntries (scan readEntry rest).1 ws t := by
  induction fuel generalizing rest ws t with
  | zero =>
      obtain rfl := List.length_eq_zero_iff.mp (Nat.le_zero.mp hfuel)
      rfl
  | succ fuel ih =>
      rw [applyDeltaLoop_turn fuel hlen]
      cases hread : readEntry rest with
      | none => rw [scan_of_none hread]; rfl
      | some q =>
          obtain ⟨⟨entryLsn, r⟩, more⟩ := q
          have hmore := consumes_readEntry rest _ more hread
          have hnext := fun ws t => @ih more (by omega) (by omega) ws t
          rw [scan_of_some consumes_readEntry hread, applyEntries]
          dsimp only
          simp only [hnext]

theorem applyWalDeltaBlob_eq (t : Tablet) {blob : Bytes} (hlen : blob.length < 2 ^ 32) (ws : List WalWrite) :
    (t.applyWalDeltaBlob blob ws).2 = applyEntries (deltaEntries blob) ws t := by
  rw [applyWalDeltaBlob, deltaEntries]
  cases hw : word 8 blob with
  | none => rfl
  | some q =>
      have hle := (cuts_word 8).shrinks blob q.1 q.2 hw
      exact applyDeltaLoop_eq (Nat.le_refl _) (by omega) ws t

/-! ## What a delta does -/

/-- An entry with the next LSN is logged and applied, or nothing of it shows in memory. -/
theorem applyEntry_cases (t : Tablet) (r : WalRecord) (w : WalWrite) :
    (∃ op b, t.applyEntry (bump t.lsn) r w = (true, t.logged op b) ∧ t.stream = .good
        ∧ ∀ m : Rows, m.apply op = r.effect m)
      ∨ t.applyEntry (bump t.lsn) r w = (false, t)
      ∨ ∃ p, t.applyEntry (bump t.lsn) r w = (false, t.torn p) ∧ t.stream = .good ∧ readRecord p = none := by
  have hne : WAL_DELETE ≠ WAL_PUT := by decide
  by_cases hput : r.op = WAL_PUT
  · rw [applyEntry, if_pos hput]
    rcases writeWal_cases t (.put r.row r.col r.val) w with ⟨hs, h⟩ | ⟨hs, p, hp, h⟩ | h
    · obtain ⟨b, hb⟩ := setCell_logged t r.row r.col r.val
      refine Or.inl ⟨.put r.row r.col r.val, b, ?_, hs, fun m => ?_⟩
      · rw [writeWalPut, h]
        dsimp only
        rw [if_neg (by simp), hb]
      · rw [WalRecord.effect, if_pos hput]
        rfl
    · exact Or.inr (Or.inr ⟨p, by rw [writeWalPut, h], hs, hp⟩)
    · exact Or.inr (Or.inl (by rw [writeWalPut, h]))
  · rw [applyEntry, if_neg hput]
    by_cases hdel : r.op = WAL_DELETE
    · rw [if_pos hdel]
      rcases writeWal_cases t (.del r.row r.col) w with ⟨hs, h⟩ | ⟨hs, p, hp, h⟩ | h
      · refine Or.inl ⟨.del r.row r.col, t.bloom, ?_, hs, fun m => ?_⟩
        · rw [writeWalDelete, h]
          dsimp only
          rw [if_neg (by simp), eraseCell_logged]
        · rw [WalRecord.effect, if_neg hput, if_pos hdel]
          rfl
      · exact Or.inr (Or.inr ⟨p, by rw [writeWalDelete, h], hs, hp⟩)
      · exact Or.inr (Or.inl (by rw [writeWalDelete, h]))
    · rw [if_neg hdel]
      exact Or.inr (Or.inl rfl)

/-- Without a good stream an entry changes nothing. -/
theorem applyEntry_stuck {t : Tablet} (hs : t.stream ≠ .good) (n : Nat) (r : WalRecord) (w : WalWrite) :
    t.applyEntry n r w = (false, t) := by
  have hw : ∀ r, t.writeWal r w = (none, t) := by
    intro r
    unfold writeWal
    split <;> first | rfl | (rename_i h; exact absurd h hs)
  unfold applyEntry
  split
  · rw [writeWalPut, hw]
  · split
    · rw [writeWalDelete, hw]
    · rfl

/-- A refused log write leaves a stream that refuses the next one. -/
theorem writeWal_none {t t₁ : Tablet} {r : WalRecord} {w : WalWrite} (h : t.writeWal r w = (none, t₁)) :
    t₁.stream ≠ .good ∧ t₁.lsn = t.lsn := by
  unfold writeWal at h
  cases hs : t.stream with
  | good =>
      rw [hs] at h
      cases w with
      | ok => exact absurd (congrArg Prod.fst h) (by simp)
      | short n =>
          obtain rfl := (Prod.mk.inj h).2
          exact ⟨nofun, rfl⟩
  | closed =>
      rw [hs] at h
      obtain rfl := (Prod.mk.inj h).2
      exact ⟨by rw [hs]; nofun, rfl⟩
  | failed =>
      rw [hs] at h
      obtain rfl := (Prod.mk.inj h).2
      exact ⟨by rw [hs]; nofun, rfl⟩

theorem writeWal_some {t t₁ : Tablet} {r : WalRecord} {w : WalWrite} {n : Nat}
    (h : t.writeWal r w = (some n, t₁)) : n = bump t.lsn := by
  unfold writeWal at h
  split at h
  · exact (Option.some.inj (Prod.mk.inj h).1).symm
  · exact absurd (congrArg Prod.fst h) (by simp)
  · exact absurd (congrArg Prod.fst h) (by simp)

/-- An entry that failed fails again. -/
theorem applyEntry_again {t t' : Tablet} {r : WalRecord} {w : WalWrite}
    (h : t.applyEntry (bump t.lsn) r w = (false, t')) :
    t'.lsn = t.lsn ∧ ∀ n w', t'.applyEntry n r w' = (false, t') := by
  by_cases hput : r.op = WAL_PUT
  · rw [applyEntry, if_pos hput] at h
    cases hw : t.writeWalPut r.row r.col r.val w with
    | mk o t₁ =>
        rw [hw] at h
        cases o with
        | none =>
            obtain rfl := (Prod.mk.inj h).2
            obtain ⟨hs, hlsn⟩ := writeWal_none hw
            exact ⟨hlsn, fun n w' => applyEntry_stuck hs n r w'⟩
        | some n =>
            dsimp only at h
            rw [if_neg (by rw [writeWal_some hw]; simp)] at h
            exact absurd (congrArg Prod.fst h) (by simp)
  · by_cases hdel : r.op = WAL_DELETE
    · rw [applyEntry, if_neg hput, if_pos hdel] at h
      cases hw : t.writeWalDelete r.row r.col w with
      | mk o t₁ =>
          rw [hw] at h
          cases o with
          | none =>
              obtain rfl := (Prod.mk.inj h).2
              obtain ⟨hs, hlsn⟩ := writeWal_none hw
              exact ⟨hlsn, fun n w' => applyEntry_stuck hs n r w'⟩
          | some n =>
              dsimp only at h
              rw [if_neg (by rw [writeWal_some hw]; simp)] at h
              exact absurd (congrArg Prod.fst h) (by simp)
    · have hunknown : ∀ (u : Tablet) n w, u.applyEntry n r w = (false, u) := by
        intro u n w
        rw [applyEntry, if_neg hput, if_neg hdel]
      rw [hunknown] at h
      obtain rfl := (Prod.mk.inj h).2
      exact ⟨rfl, hunknown t⟩

/-- `t'` is `t` after the entries `es`, which are numbered on from its LSN. -/
structure Applied (t : Tablet) (es : List (Nat × WalRecord)) (t' : Tablet) : Prop where
  /-- Consecutive LSNs from the next one on. -/
  lsns : es.map Prod.fst = List.range' (t.lsn + 1) es.length
  /-- The map has the effect of each of them, in order. -/
  rows : t'.rows = es.foldl (fun m e => e.2.effect m) t.rows
  /-- The LSN counts them. -/
  lsn : t'.lsn = t.lsn + es.length

/-- **The loop applies the unseen entries of a front part of the list**, and logs them. -/
theorem applied_applyEntries (es : List (Nat × WalRecord)) (ws : List WalWrite) {t : Tablet}
    (hl : t.lsn < 2 ^ 64) :
    ∃ j, Applied t (unseen t.lsn (es.take j)) (applyEntries es ws t)
      ∧ ∃ ops, Logs t ops (applyEntries es ws t) := by
  have hstop : ∀ (es : List (Nat × WalRecord)) (t : Tablet),
      ∃ j, Applied t (unseen t.lsn (es.take j)) t ∧ ∃ ops, Logs t ops t :=
    fun es t => ⟨0, ⟨rfl, rfl, rfl⟩, [], .nil⟩
  induction es generalizing ws t with
  | nil => exact hstop [] t
  | cons e es ih =>
      obtain ⟨n, r⟩ := e
      rw [applyEntries]
      by_cases hseen : n ≤ t.lsn
      · obtain ⟨j, hj, hlogs⟩ := ih ws hl
        rw [if_pos hseen]
        refine ⟨j + 1, ?_, hlogs⟩
        rw [List.take_succ_cons, unseen, if_pos hseen]
        exact hj
      · rw [if_neg hseen]
        by_cases hnext : n = bump t.lsn
        · rw [if_neg (not_not.mpr hnext)]
          -- the LSN is below the largest one, or the entry would not be above it
          have hbump : bump t.lsn = t.lsn + 1 := by
            unfold bump at hnext ⊢
            omega
          rcases applyEntry_cases t r (ws.headD .ok) with ⟨op, b, h, hs, heff⟩ | h | ⟨p, h, hs, hp⟩
          · obtain ⟨j, hj, ops, hlogs⟩ := @ih ws.tail (t.logged op b) (bump_lt _)
            have hlsn : (t.logged op b).lsn = n := hnext.symm
            rw [hnext, h]
            refine ⟨j + 1, ?_, [] ++ [op] ++ ops, (Logs.nil.snoc op b hs).trans hlogs⟩
            rw [List.take_succ_cons, unseen, if_neg (hnext ▸ hseen)]
            rw [hlsn] at hj
            rw [← hnext]
            show Applied t ((n, r) :: unseen n (es.take j)) _
            refine ⟨?_, ?_, ?_⟩
            · rw [List.map_cons, List.length_cons, List.range'_succ, hj.lsns, hlsn, hnext, hbump]
            · rw [List.foldl_cons, hj.rows, ← heff]
              rfl
            · rw [hj.lsn, hlsn, List.length_cons, hnext, hbump]
              omega
          · rw [hnext, h]
            exact hstop _ t
          · rw [hnext, h]
            exact ⟨0, ⟨rfl, rfl, rfl⟩, [], Logs.nil.torn p hs hp⟩
        · rw [if_pos hnext]
          exact hstop _ t

/-- **A second time, nothing happens.** -/
theorem applyEntries_again (es : List (Nat × WalRecord)) (ws ws' : List WalWrite) {t : Tablet}
    (hl : t.lsn < 2 ^ 64) :
    applyEntries es ws' (applyEntries es ws t) = applyEntries es ws t := by
  induction es generalizing ws ws' t with
  | nil => rfl
  | cons e es ih =>
      obtain ⟨n, r⟩ := e
      by_cases hseen : n ≤ t.lsn
      · -- seen then, seen now
        obtain ⟨j, hj, -⟩ := applied_applyEntries es ws hl
        have hle : n ≤ (applyEntries es ws t).lsn := by
          rw [hj.lsn]
          omega
        have hone : applyEntries ((n, r) :: es) ws t = applyEntries es ws t := if_pos hseen
        rw [hone, applyEntries, if_pos hle]
        exact ih ws ws' hl
      · by_cases hnext : n = bump t.lsn
        · have hone : applyEntries ((n, r) :: es) ws t = match t.applyEntry n r (ws.headD .ok) with
              | (false, t) => t
              | (true, t) => applyEntries es ws.tail t := by
            rw [applyEntries, if_neg hseen, if_neg (not_not.mpr hnext)]
          rw [hone]
          cases happ : t.applyEntry n r (ws.headD .ok) with
          | mk ok t₁ =>
              cases ok with
              | false =>
                  rw [hnext] at happ
                  obtain ⟨hlsn, hagain⟩ := applyEntry_again happ
                  show applyEntries ((n, r) :: es) ws' t₁ = t₁
                  rw [applyEntries, hlsn, if_neg hseen, if_neg (not_not.mpr hnext), hagain]
              | true =>
                  have hlsn : t₁.lsn = n := by
                    rcases applyEntry_cases t r (ws.headD .ok) with ⟨op, b, h, -, -⟩ | h | ⟨p, h, -, -⟩
                    all_goals rw [← hnext, happ] at h
                    · obtain rfl := (Prod.mk.inj h).2
                      exact hnext.symm
                    · exact absurd (congrArg Prod.fst h) (by simp)
                    · exact absurd (congrArg Prod.fst h) (by simp)
                  have hl₁ : t₁.lsn < 2 ^ 64 := by
                    rw [hlsn, hnext]
                    exact bump_lt _
                  obtain ⟨j, hj, -⟩ := applied_applyEntries es ws.tail hl₁
                  have hle : n ≤ (applyEntries es ws.tail t₁).lsn := by
                    rw [hj.lsn]
                    omega
                  show applyEntries ((n, r) :: es) ws' (applyEntries es ws.tail t₁) = _
                  rw [applyEntries, if_pos hle]
                  exact ih ws.tail ws' hl₁
        · have hone : ∀ ws, applyEntries ((n, r) :: es) ws t = t := by
            intro ws
            rw [applyEntries, if_neg hseen, if_pos hnext]
          rw [hone, hone]

/-! ## What is left on disk -/

/-- Logging and applying keeps what recovery makes of the files. -/
theorem recoversTo_logs {t t' : Tablet} {ops : List Op} (hr : RecoversTo t.disk t)
    (hwhole : t.stream = .good → (scan readRecord t.disk.wal).2 = []) (h : Logs t ops t') :
    RecoversTo t'.disk t' ∧ (t'.stream = .good → (scan readRecord t'.disk.wal).2 = []) := by
  induction h with
  | nil => exact ⟨hr, hwhole⟩
  | @snoc ops t' op b _ hs ih =>
      obtain ⟨hr', hwhole'⟩ := ih
      obtain ⟨c, hc, hrows, hlsn⟩ := (recoversTo_iff _ _).mp hr'
      have hone := scan_records [.ofOp op] readRecord_nil
      rw [List.append_nil, List.flatMap_singleton] at hone
      have hscan : scan readRecord (t'.logged op b).disk.wal =
          ((scan readRecord t'.disk.wal).1 ++ [.ofOp op], []) := by
        have happ := scan_append consumes_readRecord cuts_readRecord.extends
          (Prod.ext rfl (hwhole' hs) : scan readRecord t'.disk.wal = (_, [])) (WalRecord.ofOp op).encode
        rw [hone] at happ
        exact happ
      refine ⟨(recoversTo_iff _ _).mpr ⟨c, hc, ?_, ?_⟩, fun _ => by rw [hscan]⟩
      · rw [hscan, List.foldl_concat, hrows, WalRecord.effect_ofOp]
        rfl
      · rw [hscan, List.length_append, List.length_singleton]
        show _ = bump t'.lsn
        rw [← hlsn, bump]
        omega
  | @torn ops t' p _ hs hp ih =>
      obtain ⟨hr', hwhole'⟩ := ih
      obtain ⟨c, hc, hrows, hlsn⟩ := (recoversTo_iff _ _).mp hr'
      have hscan : scan readRecord (t'.torn p).disk.wal = ((scan readRecord t'.disk.wal).1, p) := by
        have happ := scan_append consumes_readRecord cuts_readRecord.extends
          (Prod.ext rfl (hwhole' hs) : scan readRecord t'.disk.wal = (_, [])) p
        rw [scan_of_none hp, List.append_nil] at happ
        exact happ
      refine ⟨(recoversTo_iff _ _).mpr ⟨c, hc, ?_, ?_⟩, fun hgood => absurd hgood (by simp [torn])⟩
      · rw [hscan]
        exact hrows
      · rw [hscan]
        exact hlsn

/-- Where the LSNs grow from entry to entry, unseen is what is above the start. -/
theorem unseen_of_increasing {es : List (Nat × WalRecord)} (h : (es.map Prod.fst).Pairwise (· < ·)) (lsn : Nat) :
    unseen lsn es = es.filter (fun e => lsn < e.1) := by
  induction es generalizing lsn with
  | nil => rfl
  | cons e es ih =>
      rw [List.map_cons, List.pairwise_cons] at h
      by_cases hseen : e.1 ≤ lsn
      · rw [unseen, if_pos hseen, ih h.2, List.filter_cons_of_neg (by simpa using hseen)]
      · have hlater : ∀ e' ∈ es, e.1 < e'.1 := fun e' he' => h.1 _ (List.mem_map_of_mem he')
        have hall : ∀ n, n ≤ e.1 → es.filter (fun e => n < e.1) = es := by
          intro n hn
          refine List.filter_eq_self.mpr (fun e' he' => ?_)
          have := hlater e' he'
          exact decide_eq_true (by omega)
        rw [unseen, if_neg hseen, ih h.2, List.filter_cons_of_pos (by simpa using hseen),
          hall e.1 (Nat.le_refl _), hall lsn (by omega)]

/-- And the unseen entries of a front part are the first of them. -/
theorem unseen_take_of_increasing {es : List (Nat × WalRecord)} (h : (es.map Prod.fst).Pairwise (· < ·))
    (lsn j : Nat) :
    unseen lsn (es.take j) = (es.filter (fun e => lsn < e.1)).take (unseen lsn (es.take j)).length := by
  have hj : ((es.take j).map Prod.fst).Pairwise (· < ·) := by
    rw [List.map_take]
    exact h.sublist (List.take_sublist _ _)
  rw [unseen_of_increasing hj]
  exact List.prefix_iff_eq_take.mp ((List.take_prefix j es).filter _)

/--
**A delta on any bytes.**

Of the well-formed entries at the front of the blob, up to some point, the tablet has
applied exactly the unseen ones, and these are numbered on from its LSN. Where the LSNs
of the blob grow they are the first entries above the tablet's LSN. Files that recovery
could rebuild the tablet from, with no torn record to append to, are still such files.
And the same blob once more changes nothing.
-/
theorem applied_applyWalDeltaBlob (t : Tablet) (hl : t.lsn < 2 ^ 64) (blob : Bytes) (hb : blob.length < 2 ^ 32)
    (ws : List WalWrite) :
    (∃ j, Applied t (unseen t.lsn ((deltaEntries blob).take j)) (t.applyWalDeltaBlob blob ws).2
        ∧ (((deltaEntries blob).map Prod.fst).Pairwise (· < ·) →
          unseen t.lsn ((deltaEntries blob).take j) =
            ((deltaEntries blob).filter (fun e => t.lsn < e.1)).take
              (unseen t.lsn ((deltaEntries blob).take j)).length))
      ∧ (RecoversTo t.disk t → (t.stream = .good → (scan readRecord t.disk.wal).2 = []) →
        RecoversTo (t.applyWalDeltaBlob blob ws).2.disk (t.applyWalDeltaBlob blob ws).2)
      ∧ ∀ ws', ((t.applyWalDeltaBlob blob ws).2.applyWalDeltaBlob blob ws').2
          = (t.applyWalDeltaBlob blob ws).2 := by
  have heq := applyWalDeltaBlob_eq t hb ws
  obtain ⟨j, hj, ops, hlogs⟩ := applied_applyEntries (deltaEntries blob) ws hl
  rw [heq]
  refine ⟨⟨j, hj, fun hinc => unseen_take_of_increasing hinc t.lsn j⟩, ?_, ?_⟩
  · exact fun hr hwhole => (recoversTo_logs hr hwhole hlogs).1
  · intro ws'
    rw [applyWalDeltaBlob_eq _ hb]
    exact applyEntries_again (deltaEntries blob) ws ws' hl

/-! ### A blob with a second copy -/

/-- A value that is not empty. -/
def oneField : Field := ⟨[1], by decide⟩

/-- LSN 1, LSN 1 again with another value, LSN 2. -/
def doubledEntries : List (Nat × WalRecord) :=
  [(1, .ofOp (.put emptyField emptyField emptyField)), (1, .ofOp (.put emptyField emptyField oneField)),
    (2, .ofOp (.put emptyField oneField emptyField))]

/-- The blob of these. -/
def doubled : Bytes := u64 0 ++ doubledEntries.flatMap (fun e => encodeEntry e.1 e.2)

theorem doubled_length : doubled.length < 2 ^ 32 := by decide +kernel

theorem deltaEntries_doubled : deltaEntries doubled = doubledEntries := by decide +kernel

/-- The second copy is left out, so two entries are applied and they are not the first two. -/
theorem not_applied_doubled (k : Nat) :
    ¬ Applied fresh ((doubledEntries.filter (fun e => fresh.lsn < e.1)).take k)
      (applyEntries doubledEntries [] fresh) := by
  intro h
  have hall : doubledEntries.filter (fun e => fresh.lsn < e.1) = doubledEntries := by decide +kernel
  have hlsn : (applyEntries doubledEntries [] fresh).lsn = 2 := by decide +kernel
  rw [hall] at h
  obtain rfl : k = 2 := by
    have hcount := hlsn.symm.trans h.lsn
    rw [List.length_take, show fresh.lsn = 0 from rfl, show doubledEntries.length = 3 from rfl] at hcount
    omega
  have hcell := congrArg (fun m : Rows => m.cell (emptyField, emptyField)) h.rows
  exact absurd hcell (by decide +kernel)

theorem applied_applyWalDeltaBlob_doubled :
    ((fresh.applyWalDeltaBlob doubled []).2.applyWalDeltaBlob doubled []).2 = (fresh.applyWalDeltaBlob doubled []).2 :=
  (applied_applyWalDeltaBlob fresh (by show (0 : Nat) < 2 ^ 64; decide) doubled doubled_length []).2.2 []

/-- A delta without entries. -/
theorem applyWalDeltaBlob_nil (t : Tablet) (n : Nat) : t.applyWalDeltaBlob (u64 n) [] = (true, t) := by
  have hword := word_append 8 n []
  rw [List.append_nil] at hword
  rw [applyWalDeltaBlob, hword]
  rfl

theorem onePutReopen_not_recoversTo (row col val : Field) :
    ¬ RecoversTo ((onePutReopen row col val).applyWalDeltaBlob (u64 0) []).2.disk
        ((onePutReopen row col val).applyWalDeltaBlob (u64 0) []).2 := by
  rw [applyWalDeltaBlob_nil]
  exact onePut_not_recoversTo row col val

/-- A second copy of an entry is not applied, whatever number of entries one counts. And
a tablet whose files do not hold it is not mended by an empty delta. -/
theorem not_first_entries_doubled :
    (doubled.length < 2 ^ 32 ∧ ¬ ∃ k,
        Applied fresh (((deltaEntries doubled).filter (fun e => fresh.lsn < e.1)).take k)
          (fresh.applyWalDeltaBlob doubled []).2)
      ∧ Reach (fun _ _ => True) (onePutReopen emptyField emptyField emptyField)
      ∧ ¬ RecoversTo ((onePutReopen emptyField emptyField emptyField).applyWalDeltaBlob (u64 0) []).2.disk
          ((onePutReopen emptyField emptyField emptyField).applyWalDeltaBlob (u64 0) []).2 := by
  refine ⟨⟨doubled_length, ?_⟩, ?_, onePutReopen_not_recoversTo _ _ _⟩
  · rintro ⟨k, hk⟩
    rw [applyWalDeltaBlob_eq fresh doubled_length, deltaEntries_doubled] at hk
    exact not_applied_doubled k hk
  · exact (onePut_reach _ _ _ trivial).step (.checkpoint _ (.reopen true)) (onePut_lists _ _ _) trivial rfl

/-! ## Skipping an entry

The skipping branch adds the three lengths in 32 bits before it adds them to `off`, the
applying branch adds each of them to `off`. -/

/-- How far the skipping branch moves `off` for the entry at the front, `none` if it refuses. -/
def skipAdvance (rest : Bytes) : Option Nat :=
  match readEntryHead rest with
  | none => none
  | some (_, mid) =>
      match readEntryLengths mid with
      | none => none
      | some ((_, rowlen, collen, vallen), fields) =>
          if rowlen + collen + vallen > fields.length then none
          else some (rest.length - fields.length + (rowlen + collen + vallen) % 2 ^ 32)

/-- The same of the applying branch, up to its log write. -/
def applyAdvance (rest : Bytes) : Option Nat :=
  match readEntryHead rest with
  | none => none
  | some (_, mid) =>
      match readEntryLengths mid with
      | none => none
      | some ((_, rowlen, collen, vallen), fields) =>
          match readEntryFields rowlen collen vallen fields with
          | none => none
          | some (_, more) => some (rest.length - more.length)

/-- What a whole entry looks like to both branches. -/
theorem readEntry_cases {rest more : Bytes} {entryLsn : Nat} {r : WalRecord}
    (h : readEntry rest = some ((entryLsn, r), more)) :
    ∃ mid head, readEntryHead rest = some (entryLsn, mid) ∧
      readEntryLengths mid = some ((r.op, r.row.1.length, r.col.1.length, r.val.1.length),
        r.row.1 ++ (r.col.1 ++ (r.val.1 ++ more))) ∧
      rest = head ++ (r.row.1 ++ (r.col.1 ++ (r.val.1 ++ more))) := by
  obtain ⟨n, mid, hhead, h₁⟩ := bind_eq_some.mp h
  obtain ⟨⟨op, rowlen, collen, vallen⟩, fields, hlens, h₂⟩ := bind_eq_some.mp h₁
  obtain ⟨⟨row, col, val⟩, left, hfields, h₃⟩ := bind_eq_some.mp h₂
  obtain ⟨heq, rfl⟩ := Prod.mk.inj (Option.some.inj h₃)
  cases heq
  obtain ⟨_, m₁, hrow, k₁⟩ := bind_eq_some.mp hfields
  obtain ⟨_, m₂, hcol, k₂⟩ := bind_eq_some.mp k₁
  obtain ⟨_, m₃, hval, k₃⟩ := bind_eq_some.mp k₂
  obtain ⟨heq, rfl⟩ := Prod.mk.inj (Option.some.inj k₃)
  cases heq
  obtain ⟨rfl, rfl⟩ := body_eq_some hrow
  obtain ⟨rfl, rfl⟩ := body_eq_some hcol
  obtain ⟨rfl, rfl⟩ := body_eq_some hval
  have hcuts : Cuts readEntryHead :=
    cuts_bind (cuts_word 8) fun lsn => cuts_bind (cuts_word 4) fun magic =>
      cuts_bind (cuts_require _) fun _ => cuts_pure lsn
  obtain ⟨head₁, rfl, -⟩ := hcuts rest _ mid hhead
  obtain ⟨head₂, rfl, -⟩ := cuts_readEntryLengths mid _ _ hlens
  exact ⟨_, head₁ ++ head₂, hhead, hlens, (List.append_assoc _ _ _).symm⟩

/--
**Where the two branches go on.**

For an entry that is there completely: the skipping branch moves `off` as far as the
applying one if and only if its three lengths add up to less than 2^32.
-/
theorem skipAdvance_eq_applyAdvance_iff {rest more : Bytes} {entryLsn : Nat} {r : WalRecord}
    (h : readEntry rest = some ((entryLsn, r), more)) :
    (∃ n, skipAdvance rest = some n ∧ ∀ fuel ws (t : Tablet), entryLsn ≤ t.lsn →
        applyDeltaLoop (fuel + 1) rest ws t = applyDeltaLoop fuel (rest.drop n) ws t) ∧
      (∃ n, applyAdvance rest = some n ∧ ∀ fuel ws (t : Tablet), ¬ entryLsn ≤ t.lsn → entryLsn = bump t.lsn →
        applyDeltaLoop (fuel + 1) rest ws t =
          match t.applyEntry entryLsn r (ws.headD .ok) with
          | (false, t) => (false, t)
          | (true, t) => applyDeltaLoop fuel (rest.drop n) ws.tail t) ∧
      (skipAdvance rest = applyAdvance rest ↔
        r.row.1.length + r.col.1.length + r.val.1.length < 2 ^ 32) := by
  obtain ⟨mid, head, hhead, hlens, hrest⟩ := readEntry_cases h
  have hne : rest ≠ [] := by
    rintro rfl
    exact absurd hhead nofun
  have hfields := readEntryFields_append r more
  have hwithin : ¬ r.row.1.length + r.col.1.length + r.val.1.length >
      (r.row.1 ++ (r.col.1 ++ (r.val.1 ++ more))).length := by
    simp only [List.length_append]
    omega
  have hskip : skipAdvance rest =
      some (head.length + (r.row.1.length + r.col.1.length + r.val.1.length) % 2 ^ 32) := by
    rw [skipAdvance, hhead]
    dsimp only
    rw [hlens]
    dsimp only
    rw [if_neg hwithin, hrest, List.length_append, Nat.add_sub_cancel]
  have happly : applyAdvance rest =
      some (head.length + (r.row.1.length + r.col.1.length + r.val.1.length)) := by
    rw [applyAdvance, hhead]
    dsimp only
    rw [hlens]
    dsimp only
    rw [hfields, hrest]
    simp only [List.length_append]
    congr 1
    omega
  have hdrop : ∀ n, rest.drop (head.length + n) = (r.row.1 ++ (r.col.1 ++ (r.val.1 ++ more))).drop n := by
    intro n
    rw [hrest, List.drop_length_add_append]
  refine ⟨⟨_, hskip, fun fuel ws t ht => ?_⟩, ⟨_, happly, fun fuel ws t hlt hbump => ?_⟩, ?_⟩
  · rw [applyDeltaLoop, if_neg hne, hhead]
    dsimp only
    rw [if_pos ht, hlens]
    dsimp only
    rw [if_neg hwithin, hdrop]
  · rw [applyDeltaLoop, if_neg hne, hhead]
    dsimp only
    rw [if_neg hlt, if_neg (not_not.mpr hbump), hlens]
    dsimp only
    rw [hfields, hdrop]
    have hmore : (r.row.1 ++ (r.col.1 ++ (r.val.1 ++ more))).drop
        (r.row.1.length + r.col.1.length + r.val.1.length) = more := by
      rw [← List.append_assoc, ← List.append_assoc]
      exact List.drop_left' (by simp only [List.length_append])
    rewrite [hmore]
    rfl
  · rw [hskip, happly, Option.some.injEq, Nat.add_left_cancel_iff]
    constructor
    · intro heq
      exact heq ▸ Nat.mod_lt _ (by decide)
    · exact Nat.mod_eq_of_lt

theorem readEntry_encodeEntry {n : Nat} (hn : n < 2 ^ 64) (r : WalRecord) (rest : Bytes) :
    readEntry (encodeEntry n r ++ rest) = some ((n, r), rest) := by
  obtain ⟨mid, hhead, hlens⟩ := readEntryHead_append hn r rest
  rw [readEntry, bind_of_some hhead, bind_of_some hlens, bind_of_some (readEntryFields_append r rest)]
  rfl

/-- A record with six bytes in its fields. -/
def sixBytes : WalRecord where
  op := WAL_PUT
  row := ⟨[97], by decide⟩
  col := ⟨[98, 99], by decide⟩
  val := ⟨[100, 101, 102], by decide⟩

/-- Its entry, and another one behind it. -/
theorem skipAdvance_eq_applyAdvance_iff_sixBytes :
    skipAdvance (encodeEntry 1 sixBytes ++ encodeEntry 2 ⟨WAL_DELETE, oneField, oneField, emptyField⟩) =
      applyAdvance (encodeEntry 1 sixBytes ++ encodeEntry 2 ⟨WAL_DELETE, oneField, oneField, emptyField⟩) :=
  (skipAdvance_eq_applyAdvance_iff (readEntry_encodeEntry (by decide) sixBytes _)).2.2.mpr (by decide)

/-- Two fields of 2^31 bytes are skipped as if they were empty. -/
theorem skipAdvance_ne_of_half {f : Field} (hf : f.1.length = 2 ^ 31) {rest more : Bytes} {entryLsn : Nat}
    {op : UInt8} (h : readEntry rest = some ((entryLsn, ⟨op, f, f, emptyField⟩), more)) :
    skipAdvance rest ≠ applyAdvance rest := by
  intro heq
  have hlt := (skipAdvance_eq_applyAdvance_iff h).2.2.mp heq
  rw [hf] at hlt
  change 2 ^ 31 + 2 ^ 31 + 0 < 2 ^ 32 at hlt
  omega

/-- Half of 2^32 zero bytes. -/
def halfField : Field := ⟨List.replicate (2 ^ 31) 0, by rw [List.length_replicate]; decide⟩

/-- A PUT with a row and a column of that length. -/
theorem not_skipAdvance_longEntry :
    ¬ ∀ (rest more : Bytes) (entryLsn : Nat) (r : WalRecord), readEntry rest = some ((entryLsn, r), more) →
      skipAdvance rest = applyAdvance rest := by
  intro h
  have hread := readEntry_encodeEntry (by decide : 1 < 2 ^ 64) ⟨WAL_PUT, halfField, halfField, emptyField⟩ []
  exact skipAdvance_ne_of_half List.length_replicate hread (h _ _ _ _ hread)

end Tablet

end NCloud
