import NCloud.Storage.Sync

/-!
# The row filter never hides a row

`get`, `cput` and `del` ask the filter first and give up when it says no. So the
filter has to say yes to every row of the map, at every moment: after each of the
ways a row enters the map, and after the two places that replace the filter as a
whole, the load of a snapshot and the load of a checkpoint.

A checkpoint file ends with the filter's bits, and where they start is decided by
the counts in front of them. The counts are 32-bit. A map with more rows than that
is written with a count that is too small, and the next load takes row data for
filter bits: `hidden_longTablet`.

The second half is about checkpoint files as they are found. Header and rows are
read with care, the bits are not: `load_checkpoint` ignores what `deserialize`
returns, so a file that ends inside its last 256 KB is accepted.
-/

namespace NCloud

open Wire Reader

/-- The filter admits every row of the map. -/
def Covers (b : BloomFilter) (rows : Rows) : Prop := ∀ r ∈ rows, b.mayContain r.1 = true

theorem covers_empty (b : BloomFilter) : Covers b ∅ :=
  fun _ hr => absurd hr Finmap.notMem_empty

/-- A row the filter admits may enter. -/
theorem Covers.insert {b : BloomFilter} {rows : Rows} (h : Covers b rows) {row : Field}
    (hrow : b.mayContain row.1 = true) (cols : Cols) : Covers b (rows.insert row cols) := by
  intro r hr
  rcases Finmap.mem_insert.mp hr with rfl | hr
  · exact hrow
  · exact h r hr

theorem Covers.add {b : BloomFilter} {rows : Rows} (h : Covers b rows) (key : Bytes) :
    Covers (b.add key) rows :=
  fun r hr => BloomFilter.mayContain_add b key (h r hr)

namespace Tablet

/-! ## The same operations without the filter -/

/-- `get`, straight from the map. -/
def getUnfiltered (t : Tablet) (row col : Field) : Option Field :=
  (t.rows.lookup row).bind (fun cols => cols.lookup col)

/-- `cput`, straight from the map. -/
def cputUnfiltered (t : Tablet) (row col v1 v2 : Field) (w : WalWrite) : Option Nat × Tablet :=
  match t.rows.lookup row with
  | none => (none, t)
  | some cols =>
      if cols.lookup col = some v1 then
        match t.writeWalPut row col v2 w with
        | (none, t) => (none, t)
        | (some lsn, t) => (some lsn, { t with rows := t.rows.insert row (cols.insert col v2) })
      else (none, t)

/-- `del`, straight from the map. -/
def delUnfiltered (t : Tablet) (row col : Field) (w : WalWrite) : Option (Option Nat) × Tablet :=
  match t.rows.lookup row with
  | none => (some none, t)
  | some cols =>
      if cols.lookup col = none then (some none, t)
      else
        match t.writeWalDelete row col w with
        | (none, t) => (none, t)
        | (some lsn, t) =>
            (some (some lsn), { t with rows := t.rows.insert row (cols.erase col) })

/-- Where the filter admits every row, asking it changes nothing. -/
theorem findRow_of_covers {t : Tablet} (h : Covers t.bloom t.rows) (row : Field) :
    t.findRow row = t.rows.lookup row := by
  unfold findRow
  split
  · rfl
  · rename_i hno
    -- the filter says no, so the row is not there
    exact (Finmap.lookup_eq_none.mpr (fun hmem => hno (h row hmem))).symm

theorem get_of_covers {t : Tablet} (h : Covers t.bloom t.rows) (row col : Field) :
    t.get row col = t.getUnfiltered row col := by
  rw [get, getUnfiltered, findRow_of_covers h]

theorem cput_of_covers {t : Tablet} (h : Covers t.bloom t.rows) (row col v1 v2 : Field) (w : WalWrite) :
    t.cput row col v1 v2 w = t.cputUnfiltered row col v1 v2 w := by
  rw [cput, findRow_of_covers h]
  rfl

theorem del_of_covers {t : Tablet} (h : Covers t.bloom t.rows) (row col : Field) (w : WalWrite) :
    t.del row col w = t.delUnfiltered row col w := by
  rw [del, findRow_of_covers h]
  rfl

/-! ## What an operation does to the filter -/

/-- A change of the map that the filter follows, with the checkpoint file untouched. -/
structure Tracks (t t' : Tablet) : Prop where
  /-- Rows that enter the map enter the filter. -/
  covers : Covers t.bloom t.rows → Covers t'.bloom t'.rows
  /-- The checkpoint file is the same. -/
  ckpt : t'.disk.ckpt = t.disk.ckpt
  /-- The counter is still a 64-bit one. -/
  lsn : t.lsn < 2 ^ 64 → t'.lsn < 2 ^ 64

theorem Tracks.refl (t : Tablet) : Tracks t t := ⟨id, rfl, id⟩

theorem Tracks.trans {t₁ t₂ t₃ : Tablet} (h₁ : Tracks t₁ t₂) (h₂ : Tracks t₂ t₃) : Tracks t₁ t₃ :=
  ⟨fun h => h₂.covers (h₁.covers h), h₂.ckpt.trans h₁.ckpt, fun h => h₂.lsn (h₁.lsn h)⟩

/-- A log write leaves map and filter alone. -/
theorem writeWal_same (t : Tablet) (r : WalRecord) (w : WalWrite) :
    (t.writeWal r w).2.rows = t.rows ∧ (t.writeWal r w).2.bloom = t.bloom
      ∧ Tracks t (t.writeWal r w).2 := by
  unfold writeWal
  cases t.stream with
  | closed => exact ⟨rfl, rfl, .refl t⟩
  | failed => exact ⟨rfl, rfl, .refl t⟩
  | good =>
      cases w with
      | ok => exact ⟨rfl, rfl, id, rfl, fun _ => bump_lt _⟩
      | short n => exact ⟨rfl, rfl, id, rfl, id⟩

theorem tracks_setCell (t : Tablet) (row col val : Field) : Tracks t (t.setCell row col val) := by
  unfold setCell
  cases hrow : t.rows.lookup row with
  | none => exact ⟨fun h => (h.add row.1).insert (BloomFilter.mayContain_add_self _ _) _, rfl, id⟩
  | some cols =>
      have hmem : row ∈ t.rows := Finmap.lookup_isSome.mp (by rw [hrow]; rfl)
      exact ⟨fun h => h.insert (h row hmem) _, rfl, id⟩

theorem tracks_eraseCell (t : Tablet) (row col : Field) : Tracks t (t.eraseCell row col) := by
  unfold eraseCell
  cases hrow : t.rows.lookup row with
  | none => exact .refl t
  | some cols =>
      have hmem : row ∈ t.rows := Finmap.lookup_isSome.mp (by rw [hrow]; rfl)
      exact ⟨fun h => h.insert (h row hmem) _, rfl, id⟩

/-- A log write, and what is done to the tablet when it succeeds. -/
theorem tracks_of_writeWal {t t' : Tablet} {r : WalRecord} {w : WalWrite}
    (hfail : ∀ t₁, t.writeWal r w = (none, t₁) → t' = t₁)
    (hok : ∀ n t₁, t.writeWal r w = (some n, t₁) → Tracks t₁ t') : Tracks t t' := by
  obtain ⟨-, -, hone⟩ := writeWal_same t r w
  cases hw : t.writeWal r w with
  | mk o t₁ =>
      rw [hw] at hone
      cases o with
      | none => rw [hfail t₁ hw]; exact hone
      | some n => exact hone.trans (hok n t₁ hw)

theorem tracks_put (t : Tablet) (row col val : Field) (w : WalWrite) :
    Tracks t (t.put row col val w).2 := by
  refine tracks_of_writeWal (r := .ofOp (.put row col val)) (w := w) ?_ ?_
  · intro t₁ h
    rw [put, writeWalPut, h]
  · intro n t₁ h
    rw [put, writeWalPut, h]
    exact tracks_setCell t₁ row col val

/-- The row was found, so it may be written back. -/
theorem tracks_found {t t₁ : Tablet} {row : Field} {cols : Cols} (hf : t.findRow row = some cols)
    (hrows : t₁.rows = t.rows) (new : Cols) : Tracks t₁ { t₁ with rows := t₁.rows.insert row new } := by
  have hmem : row ∈ t₁.rows := by
    rw [hrows, ← Finmap.lookup_isSome, lookup_of_findRow hf]
    rfl
  exact ⟨fun h => h.insert (h row hmem) new, rfl, id⟩

theorem tracks_cput (t : Tablet) (row col v1 v2 : Field) (w : WalWrite) :
    Tracks t (t.cput row col v1 v2 w).2 := by
  unfold cput
  cases hf : t.findRow row with
  | none => exact .refl t
  | some cols =>
      dsimp only
      split
      · obtain ⟨hrows, -, -⟩ := writeWal_same t (.ofOp (.put row col v2)) w
        refine tracks_of_writeWal (r := .ofOp (.put row col v2)) (w := w) ?_ ?_
        · intro t₁ h
          rw [writeWalPut, h]
        · intro n t₁ h
          rw [h] at hrows
          rw [writeWalPut, h]
          exact tracks_found hf hrows _
      · exact .refl t

theorem tracks_del (t : Tablet) (row col : Field) (w : WalWrite) : Tracks t (t.del row col w).2 := by
  unfold del
  cases hf : t.findRow row with
  | none => exact .refl t
  | some cols =>
      dsimp only
      split
      · exact .refl t
      · obtain ⟨hrows, -, -⟩ := writeWal_same t (.ofOp (.del row col)) w
        refine tracks_of_writeWal (r := .ofOp (.del row col)) (w := w) ?_ ?_
        · intro t₁ h
          rw [writeWalDelete, h]
        · intro n t₁ h
          rw [h] at hrows
          rw [writeWalDelete, h]
          exact tracks_found hf hrows _

theorem tracks_applyReplicatedDeleteAssigning (t : Tablet) (row col : Field) (w : WalWrite) :
    Tracks t (t.applyReplicatedDeleteAssigning row col w).2 := by
  refine tracks_of_writeWal (r := .ofOp (.del row col)) (w := w) ?_ ?_
  · intro t₁ h
    rw [applyReplicatedDeleteAssigning, writeWalDelete, h]
  · intro n t₁ h
    rw [applyReplicatedDeleteAssigning, writeWalDelete, h]
    exact tracks_eraseCell t₁ row col

/-- A put under an expected LSN: a record with another LSN is left in the log alone. -/
theorem tracks_putAt (t : Tablet) (row col val : Field) (n : Nat) (w : WalWrite) :
    Tracks t (match t.writeWalPut row col val w with
      | (none, t) => (false, t)
      | (some lsn, t) => if lsn ≠ n then (false, t) else (true, t.setCell row col val)).2 := by
  refine tracks_of_writeWal (r := .ofOp (.put row col val)) (w := w) ?_ ?_
  · intro t₁ h
    rw [writeWalPut, h]
  · intro lsn t₁ h
    rw [writeWalPut, h]
    dsimp only
    split
    · exact .refl t₁
    · exact tracks_setCell t₁ row col val

/-- A deletion under an expected LSN. -/
theorem tracks_deleteAt (t : Tablet) (row col : Field) (n : Nat) (w : WalWrite) :
    Tracks t (match t.writeWalDelete row col w with
      | (none, t) => (false, t)
      | (some lsn, t) => if lsn ≠ n then (false, t) else (true, t.eraseCell row col)).2 := by
  refine tracks_of_writeWal (r := .ofOp (.del row col)) (w := w) ?_ ?_
  · intro t₁ h
    rw [writeWalDelete, h]
  · intro lsn t₁ h
    rw [writeWalDelete, h]
    dsimp only
    split
    · exact .refl t₁
    · exact tracks_eraseCell t₁ row col

theorem tracks_applyReplicatedPut (t : Tablet) (row col val : Field) (n : Nat) (w : WalWrite) :
    Tracks t (t.applyReplicatedPut row col val n w).2 := by
  unfold applyReplicatedPut
  split
  · exact .refl t
  · split
    · exact .refl t
    · exact tracks_putAt t row col val n w

theorem tracks_applyReplicatedDelete (t : Tablet) (row col : Field) (n : Nat) (w : WalWrite) :
    Tracks t (t.applyReplicatedDelete row col n w).2 := by
  unfold applyReplicatedDelete
  split
  · exact .refl t
  · split
    · exact .refl t
    · exact tracks_deleteAt t row col n w

theorem tracks_applyEntry (t : Tablet) (n : Nat) (r : WalRecord) (w : WalWrite) :
    Tracks t (t.applyEntry n r w).2 := by
  unfold applyEntry
  split
  · exact tracks_putAt t r.row r.col r.val n w
  · split
    · exact tracks_deleteAt t r.row r.col n w
    · exact .refl t

theorem tracks_applyDeltaLoop (fuel : Nat) (rest : Bytes) (ws : List WalWrite) (t : Tablet) :
    Tracks t (applyDeltaLoop fuel rest ws t).2 := by
  induction fuel generalizing rest ws t with
  | zero => exact .refl t
  | succ fuel ih =>
      rw [applyDeltaLoop]
      split
      · exact .refl t
      · split
        · exact .refl t
        · split
          · split
            · exact .refl t
            · split
              · exact .refl t
              · exact ih _ _ _
          · split
            · exact .refl t
            · split
              · exact .refl t
              · split
                · exact .refl t
                · rename_i op _ _ _ _ _ _ row col val _ _
                  have hone : ∀ {n ok t₁}, t.applyEntry n ⟨op, row, col, val⟩ (ws.headD .ok) = (ok, t₁) →
                      Tracks t t₁ := by
                    intro n ok t₁ he
                    have h := tracks_applyEntry t n ⟨op, row, col, val⟩ (ws.headD .ok)
                    rwa [he] at h
                  split
                  · rename_i he
                    exact hone he
                  · rename_i t₁ he
                    exact (hone he).trans (ih _ ws.tail t₁)

theorem tracks_applyWalDeltaBlob (t : Tablet) (blob : Bytes) (ws : List WalWrite) :
    Tracks t (t.applyWalDeltaBlob blob ws).2 := by
  unfold applyWalDeltaBlob
  split
  · exact .refl t
  · exact tracks_applyDeltaLoop _ _ _ _

theorem tracks_replayRecord (t : Tablet) (r : WalRecord) : Tracks t (t.replayRecord r) := by
  have hput := tracks_setCell t r.row r.col r.val
  have hdel := tracks_eraseCell t r.row r.col
  unfold replayRecord
  split
  · exact ⟨hput.covers, hput.ckpt, fun _ => bump_lt _⟩
  · split
    · exact ⟨hdel.covers, hdel.ckpt, fun _ => bump_lt _⟩
    · exact ⟨id, rfl, fun _ => bump_lt _⟩

theorem tracks_replayWal (t : Tablet) (resizeOk : Bool) : Tracks t (t.replayWal resizeOk) := by
  have hfold : ∀ (rs : List WalRecord) (t : Tablet), Tracks t (rs.foldl replayRecord t) := by
    intro rs
    induction rs with
    | nil => exact fun t => .refl t
    | cons r rs ih => exact fun t => (tracks_replayRecord t r).trans (ih _)
  have hall := hfold (scan readRecord t.disk.wal).1 t
  cases resizeOk with
  | false => exact hall
  | true => exact ⟨hall.covers, hall.ckpt, hall.lsn⟩

/-! ## The filter over a tablet's life -/

/-- The filter in memory admits the rows in memory, and the one in the checkpoint file
those of the file. -/
structure Covered (t : Tablet) : Prop where
  /-- Memory. -/
  memory : Covers t.bloom t.rows
  /-- The file. -/
  file : ∀ c, ckptContents t.disk.ckpt = some c → Covers c.bloom c.rows
  /-- The counter is a 64-bit one. -/
  lsn : t.lsn < 2 ^ 64

theorem Covered.tracks {t t' : Tablet} (h : Covered t) (ht : Tracks t t') : Covered t' :=
  ⟨ht.covers h.memory, fun c hc => h.file c (ht.ckpt ▸ hc), ht.lsn h.lsn⟩

/-- An empty map over files whose checkpoint is covered. -/
theorem covered_ofDisk {d : Disk} (h : ∀ c, ckptContents d.ckpt = some c → Covers c.bloom c.rows) :
    Covered (ofDisk d) :=
  ⟨covers_empty _, h, by show (0 : Nat) < 2 ^ 64; decide⟩

/-- Loading a checkpoint brings its own filter with it. -/
theorem Covered.loadCheckpoint {t t' : Tablet} (h : Covered t) (hl : t.loadCheckpoint = some t') :
    Covered t' := by
  unfold Tablet.loadCheckpoint at hl
  cases hc : t.disk.ckpt with
  | none =>
      rw [hc] at hl
      obtain rfl := Option.some.inj hl
      exact ⟨h.memory, h.file, h.lsn⟩
  | some file =>
      rw [hc] at hl
      dsimp only at hl
      cases hr : readCheckpoint file with
      | none => rw [hr] at hl; exact absurd hl (by simp)
      | some q =>
          obtain ⟨⟨version, lsn, rl⟩, rest⟩ := q
          rw [hr] at hl
          obtain rfl := Option.some.inj hl
          have hfile : ckptContents t.disk.ckpt = some ⟨version, lsn, rowsOf rl, .deserialize rest⟩ := by
            rw [hc, ckptContents, hr]
            rfl
          exact ⟨h.file _ hfile, h.file, (readCheckpoint_fits hr).2.1⟩

theorem Covered.recover {t t' : Tablet} (h : Covered t) {resizeOk : Bool}
    (hr : t.recover resizeOk = some t') : Covered t' := by
  obtain ⟨t₁, hl, rfl⟩ := Option.map_eq_some_iff.mp hr
  exact (h.loadCheckpoint hl).tracks (tracks_replayWal t₁ resizeOk)

/-- A checkpoint writes map and filter side by side; its file reads back when it fits. -/
theorem Covered.checkpointLocked {t : Tablet} (h : Covered t) {rl : Listing} (hl : Lists rl t.rows)
    {f : CkptFault} (hf : (f.point t rl).beforeRename = false → t.rows.Fits) :
    Covered (t.checkpointLocked rl f).2 := by
  have hnew : t.rows.Fits → ∀ c, ckptContents (some (t.ckptFile rl)) = some c → Covers c.bloom c.rows := by
    intro hfits c hc
    rw [ckptContents_ckptFile hl hfits h.lsn] at hc
    obtain rfl := Option.some.inj hc
    exact h.memory
  cases f with
  | openTmp => exact ⟨h.memory, h.file, h.lsn⟩
  | writeTmp n => exact ⟨h.memory, h.file, h.lsn⟩
  | rename => exact ⟨h.memory, h.file, h.lsn⟩
  | reopen appendOk => exact ⟨h.memory, hnew (hf rfl), h.lsn⟩
  | none => exact ⟨h.memory, hnew (hf rfl), h.lsn⟩

/-- Every row of a snapshot is added to the new filter before it enters the new map. -/
theorem covers_emplaceRows (rl : Listing) :
    Covers (rl.foldl (fun b p => b.add p.1.1) .empty) (emplaceRows rl) := by
  have hfold : ∀ (l : Listing) (b : BloomFilter) (m : Rows), Covers b m →
      Covers (l.foldl (fun b p => b.add p.1.1) b)
        (l.foldl (fun m p => if p.1 ∈ m then m else m.insert p.1 (colsOf p.2)) m) := by
    intro l
    induction l with
    | nil => exact fun b m h => h
    | cons p l ih =>
        intro b m h
        refine ih _ _ ?_
        show Covers (b.add p.1.1) (if p.1 ∈ m then m else _)
        split
        · exact h.add p.1.1
        · exact (h.add p.1.1).insert (BloomFilter.mayContain_add_self b p.1.1) _
  exact hfold rl .empty ∅ (covers_empty _)

theorem Covered.loadSnapshotBlob {t : Tablet} (h : Covered t) {blob : Bytes} {rl : Listing} {f : CkptFault}
    (hv : Valid t (.loadSnapshotBlob blob rl f)) : Covered (t.loadSnapshotBlob blob rl f).2 := by
  unfold Tablet.loadSnapshotBlob
  cases hi : t.installSnapshot blob with
  | none => exact h
  | some t' =>
      obtain ⟨hfits, hlsn⟩ := installSnapshot_fits hi
      have hcov : Covered t' := by
        unfold installSnapshot at hi
        split at hi
        · exact absurd hi (by simp)
        · obtain rfl := Option.some.inj hi
          exact ⟨covers_emplaceRows _, h.file, hlsn⟩
      exact hcov.checkpointLocked (hv t' hi) (fun _ => hfits)

/-- A checkpoint that is renamed into place was of a map whose counts fit. -/
def Fitting (t : Tablet) : Step → Prop
  | .checkpoint rl f => (f.point t rl).beforeRename = false → t.rows.Fits
  | _ => True

theorem Covered.step {t t' : Tablet} {s : Step} (h : Covered t) (hv : Valid t s) (hc : Fitting t s)
    (he : t.exec s = some t') : Covered t' := by
  cases s with
  | put row col val w =>
      obtain rfl := Option.some.inj he
      exact h.tracks (tracks_put t row col val w)
  | cput row col v1 v2 w =>
      obtain rfl := Option.some.inj he
      exact h.tracks (tracks_cput t row col v1 v2 w)
  | del row col w =>
      obtain rfl := Option.some.inj he
      exact h.tracks (tracks_del t row col w)
  | applyReplicatedPut row col val n w =>
      obtain rfl := Option.some.inj he
      exact h.tracks (tracks_applyReplicatedPut t row col val n w)
  | applyReplicatedDelete row col n w =>
      obtain rfl := Option.some.inj he
      exact h.tracks (tracks_applyReplicatedDelete t row col n w)
  | applyReplicatedDeleteAssigning row col w =>
      obtain rfl := Option.some.inj he
      exact h.tracks (tracks_applyReplicatedDeleteAssigning t row col w)
  | applyWalDeltaBlob blob ws =>
      obtain rfl := Option.some.inj he
      exact h.tracks (tracks_applyWalDeltaBlob t blob ws)
  | loadSnapshotBlob blob rl f =>
      obtain rfl := Option.some.inj he
      exact h.loadSnapshotBlob hv
  | checkpoint rl f =>
      obtain rfl := Option.some.inj he
      exact h.checkpointLocked hv hc
  | crash op p resizeOk => exact (covered_ofDisk (d := (t.appendWal p).disk) h.file).recover he

/-- Reached from any log without a checkpoint by valid steps that satisfy `C`, and by
`recover` at any time: of the running tablet, or of a new one over its files. -/
inductive Visits (C : Tablet → Step → Prop) : Tablet → Prop where
  | start (d : Disk) : d.ckpt = none → Visits C (ofDisk d)
  | step {t t' : Tablet} (s : Step) : Visits C t → Valid t s → C t s → t.exec s = some t' → Visits C t'
  | recover {t t' : Tablet} (resizeOk : Bool) : Visits C t → t.recover resizeOk = some t' → Visits C t'

theorem covered_of_visits {t : Tablet} (h : Visits Fitting t) : Covered t := by
  induction h with
  | start d hd =>
      refine covered_ofDisk (fun c hc => ?_)
      rw [hd] at hc
      obtain rfl := Option.some.inj hc
      exact covers_empty _
  | step s _ hv hc he ih => exact ih.step hv hc he
  | recover resizeOk _ hr ih => exact ih.recover hr

/--
**The filter never hides a row.**

In every state that is reached while the checkpoints that are renamed into place fit
their counts, the filter admits every row of the map, and the three operations that
ask it answer as if they did not.
-/
theorem unfiltered_of_visits {t : Tablet} (h : Visits Fitting t) :
    Covers t.bloom t.rows
      ∧ (∀ row col, t.get row col = t.getUnfiltered row col)
      ∧ (∀ row col v1 v2 w, t.cput row col v1 v2 w = t.cputUnfiltered row col v1 v2 w)
      ∧ ∀ row col w, t.del row col w = t.delUnfiltered row col w := by
  have hc := (covered_of_visits h).memory
  exact ⟨hc, get_of_covers hc, cput_of_covers hc, del_of_covers hc⟩

/-- After a put and a checkpoint. -/
theorem unfiltered_of_visits_onePut :
    ((onePut emptyField emptyField emptyField).checkpoint [(emptyField, [(emptyField, emptyField)])] .none).2.get
        emptyField emptyField =
      ((onePut emptyField emptyField emptyField).checkpoint
        [(emptyField, [(emptyField, emptyField)])] .none).2.getUnfiltered emptyField emptyField := by
  have hstart : Visits Fitting fresh := .start _ rfl
  have hput : Visits Fitting (onePut emptyField emptyField emptyField) :=
    hstart.step (.put emptyField emptyField emptyField .ok) trivial trivial rfl
  exact (unfiltered_of_visits (hput.step (.checkpoint _ .none) (onePut_lists _ _ _)
    (fun _ => onePut_fits _ _ _) rfl)).2.1 _ _

/-! ### One row too many -/

/-- `n` rows of four-byte keys and then one with the empty key. -/
def longTablet (n : Nat) : Tablet := ((rowsTablet n).put emptyField emptyField emptyField .ok).2

/-- A walk that sees the empty key first. -/
def longListing (n : Nat) : Listing := (emptyField, [(emptyField, emptyField)]) :: rowsListing n

theorem visits_rowsTablet (n : Nat) : Visits (fun _ _ => True) (rowsTablet n) := by
  induction n with
  | zero => exact .start _ rfl
  | succ n ih =>
      rw [rowsTablet_succ]
      exact ih.step (.put (rowKey n) emptyField emptyField .ok) trivial trivial rfl

theorem rowKey_ne (i : Nat) : rowKey i ≠ emptyField := by
  intro h
  have hlen := congrArg (fun f : Field => f.1.length) h
  rw [rowKey] at hlen
  simp [emptyField] at hlen

/-- A row that no later one overwrites may as well be inserted last. -/
theorem foldl_insert_comm (l : Listing) (m : Rows) {row : Field} (h : row ∉ l.map Prod.fst) (cols : Cols) :
    l.foldl (fun m p => m.insert p.1 (colsOf p.2)) (m.insert row cols) =
      (l.foldl (fun m p => m.insert p.1 (colsOf p.2)) m).insert row cols := by
  induction l generalizing m with
  | nil => rfl
  | cons p l ih =>
      rw [List.map_cons, List.mem_cons, not_or] at h
      rw [List.foldl_cons, List.foldl_cons, Finmap.insert_insert_of_ne m h.1]
      exact ih (m.insert p.1 (colsOf p.2)) h.2

theorem emptyField_notMem (n : Nat) : emptyField ∉ (rowsListing n).map Prod.fst := by
  intro h
  rw [rowsListing, List.map_map] at h
  obtain ⟨i, -, hi⟩ := List.mem_map.mp h
  exact rowKey_ne i hi

theorem longTablet_lists {n : Nat} (hn : n ≤ 2 ^ 32) : Lists (longListing n) (longTablet n).rows := by
  have hrows := rowsTablet_lists hn
  obtain ⟨b, hb⟩ := put_ok (rowsTablet_history n).2.1 emptyField emptyField emptyField
  refine ⟨?_, ?_, ?_⟩
  · rw [longListing, List.map_cons]
    exact List.nodup_cons.mpr ⟨emptyField_notMem n, hrows.rowKeys⟩
  · intro p hp
    rcases List.mem_cons.mp hp with rfl | hp
    · simp
    · exact hrows.colKeys p hp
  · have hlook : (rowsTablet n).rows.lookup emptyField = none := by
      rw [← hrows.complete, rowsOf]
      exact lookup_foldl_insert_of_notMem (fun p : Field × List (Field × Field) => p.1)
        (fun p => colsOf p.2) (rowsListing n) ∅ (emptyField_notMem n)
    rw [longTablet, hb]
    show _ = (rowsTablet n).rows.put emptyField emptyField emptyField
    rw [Rows.put, hlook, ← hrows.complete]
    exact foldl_insert_comm (rowsListing n) ∅ (emptyField_notMem n) _

/-- The count in the file is 1, and the bits are read from where the second row starts. -/
theorem readCheckpoint_longTablet {n : Nat} (hn : n = 2 ^ 32) :
    ∃ tl, readCheckpoint ((longTablet n).ckptFile (longListing n)) =
      some ((bump (longTablet n).checkpointVersion, (longTablet n).lsn,
        [(emptyField, [(emptyField, emptyField)])]), (4 : UInt8) :: tl) := by
  obtain ⟨b, hb⟩ := put_ok (rowsTablet_history n).2.1 emptyField emptyField emptyField
  have hlsn : (longTablet n).lsn < 2 ^ 64 := by
    rw [longTablet, hb]
    exact bump_lt _
  have hcount : (longListing n).length % 2 ^ 32 = 1 := by
    rw [longListing, List.length_cons, rowsListing, List.length_map, List.length_range, hn]
    decide
  obtain ⟨m, rfl⟩ : ∃ m, n = m + 1 := ⟨n - 1, by omega⟩
  have hfirst : rowsListing (m + 1) = (rowKey 0, [(emptyField, emptyField)]) ::
      (List.range m).map (fun i => (rowKey (i + 1), [(emptyField, emptyField)])) := by
    rw [rowsListing, List.range_succ_eq_map, List.map_cons, List.map_map]
    rfl
  obtain ⟨tl, htl⟩ : ∃ tl, (rowsListing (m + 1)).flatMap encodeRow ++ (longTablet (m + 1)).bloom.serialize =
      (4 : UInt8) :: tl := by
    rw [hfirst]
    exact ⟨_, rfl⟩
  have hrow := @readRows_append [(emptyField, [(emptyField, emptyField)])] (by simp)
    ((4 : UInt8) :: tl)
  refine ⟨tl, ?_⟩
  rw [ckptFile, readCheckpoint_encode _ _ (bump_lt _) hlsn, hcount, longListing, List.flatMap_cons,
    List.append_assoc, htl]
  simp only [List.length_singleton, List.flatMap_cons, List.flatMap_nil, List.append_nil] at hrow
  rw [hrow, Option.map_some]

theorem not_mayContain_nil (tl : Bytes) : (BloomFilter.deserialize ((4 : UInt8) :: tl)).mayContain [] = false := by
  have hbit : (BloomFilter.deserialize ((4 : UInt8) :: tl)).getBit (BloomFilter.hash [] 2) = false := by
    rw [BloomFilter.getBit_eq_testBit]
    show (4 : UInt8).toNat.testBit 0 = false
    decide
  rw [BloomFilter.mayContain, List.all_eq_false]
  exact ⟨2, by decide, by rw [hbit]; decide⟩

/-- A tablet with `2 ^ 32 + 1` rows that has been checkpointed and recovered: one row is
left in the map, and the filter denies it. -/
theorem hidden_longTablet :
    ∃ t, Visits (fun _ _ => True) t ∧ emptyField ∈ t.rows ∧ t.bloom.mayContain emptyField.1 = false
      ∧ t.get emptyField emptyField = none ∧ t.getUnfiltered emptyField emptyField = some emptyField := by
  obtain ⟨n, hn⟩ : ∃ n : Nat, n = 2 ^ 32 := ⟨_, rfl⟩
  obtain ⟨tl, hread⟩ := readCheckpoint_longTablet hn
  have hlong : Visits (fun _ _ => True) (longTablet n) :=
    (visits_rowsTablet n).step (.put emptyField emptyField emptyField .ok) trivial trivial rfl
  have hckpt := hlong.step (.checkpoint (longListing n) .none) (longTablet_lists (Nat.le_of_eq hn)) trivial rfl
  have hrec : ((longTablet n).checkpoint (longListing n) .none).2.recover true = some
      { (longTablet n) with
        rows := rowsOf [(emptyField, [(emptyField, emptyField)])]
        bloom := .deserialize ((4 : UInt8) :: tl)
        checkpointVersion := bump (longTablet n).checkpointVersion
        stream := .good
        disk := (longTablet n).diskAt (longListing n) .truncated } := by
    have hfile : ((longTablet n).checkpoint (longListing n) .none).2.disk.ckpt =
        some ((longTablet n).ckptFile (longListing n)) := rfl
    rw [recover, loadCheckpoint, hfile]
    dsimp only
    rw [hread]
    rfl
  refine ⟨_, hckpt.recover true hrec, ?_, not_mayContain_nil tl, ?_, ?_⟩
  · show emptyField ∈ (∅ : Rows).insert emptyField (colsOf [(emptyField, emptyField)])
    exact Finmap.mem_insert.mpr (Or.inl rfl)
  · rw [get, findRow]
    show (if (BloomFilter.deserialize ((4 : UInt8) :: tl)).mayContain [] then _ else none).bind _ = none
    rw [not_mayContain_nil]
    rfl
  · rw [getUnfiltered]
    show ((rowsOf [(emptyField, [(emptyField, emptyField)])]).lookup emptyField).bind _ = _
    rfl

/-! ## Checkpoint files as they are found -/

/-- The tablet finds `file` as its checkpoint. -/
def withCkpt (t : Tablet) (file : Bytes) : Tablet := { t with disk := { t.disk with ckpt := some file } }

/-- Every cell of the map is returned by `get`. -/
def Serves (t : Tablet) : Prop :=
  ∀ row col val, t.rows.cell (row, col) = some val → t.get row col = some val

/-- The bytes reach as far as each of the key's three bits, and the bit is set there. -/
def HasBits (bits : Bytes) (key : Bytes) : Prop :=
  ∀ i ∈ List.range BloomFilter.NHASH, ∃ b,
    bits[(BloomFilter.hash key i).toNat % BloomFilter.BITS / 8]? = some b
      ∧ b.toNat.testBit ((BloomFilter.hash key i).toNat % BloomFilter.BITS % 8) = true

/-- Where the header and the rows it counts end; `none` when they do not parse. -/
def rowsEnd (file : Bytes) : Option Nat :=
  (readCheckpoint file).map (fun q => file.length - q.2.length)

/-- Bytes that the file does not have are read as zero. -/
theorem mayContain_deserialize_iff (bits key : Bytes) :
    (BloomFilter.deserialize bits).mayContain key = true ↔ HasBits bits key := by
  rw [BloomFilter.mayContain, List.all_eq_true]
  refine forall₂_congr (fun i _ => ?_)
  rw [BloomFilter.getBit_eq_testBit]
  show (bits.getD _ 0).toNat.testBit _ = true ↔ _
  rw [List.getD_eq_getElem?_getD]
  cases hb : bits[(BloomFilter.hash key i).toNat % BloomFilter.BITS / 8]? with
  | none => simp
  | some b => simp

/-- A row with a column in it has to be admitted; what is said of an empty row shows nowhere. -/
theorem serves_iff (t : Tablet) :
    Serves t ↔ ∀ row cols, t.rows.lookup row = some cols → cols ≠ ∅ → t.bloom.mayContain row.1 = true := by
  constructor
  · intro h row cols hrow hne
    have hcol : ∃ col val, cols.lookup col = some val := by
      by_contra hnone
      refine hne (Finmap.ext_lookup (fun col => ?_))
      rw [Finmap.lookup_empty]
      exact Option.eq_none_iff_forall_ne_some.mpr (fun val hval => hnone ⟨col, val, hval⟩)
    obtain ⟨col, val, hval⟩ := hcol
    have hget := h row col val (by rw [Rows.cell, hrow]; exact hval)
    by_contra hno
    rw [get, findRow, if_neg hno] at hget
    exact absurd hget (by simp)
  · intro h row col val hcell
    obtain ⟨cols, hrow, hval⟩ := Option.bind_eq_some_iff.mp hcell
    have hne : cols ≠ ∅ := by
      rintro rfl
      exact absurd hval (by simp)
    rw [get, findRow, if_pos (h row cols hrow hne), hrow]
    exact hval

theorem loadCheckpoint_withCkpt (t : Tablet) (file : Bytes) :
    (t.withCkpt file).loadCheckpoint = (readCheckpoint file).map (fun q =>
      { t.withCkpt file with
        rows := rowsOf q.1.2.2
        bloom := .deserialize q.2
        checkpointVersion := q.1.1
        lsn := q.1.2.1 }) := by
  have hfile : (t.withCkpt file).disk.ckpt = some file := rfl
  rw [loadCheckpoint, hfile]
  dsimp only
  cases readCheckpoint file with
  | none => rfl
  | some q => rfl

theorem rowsEnd_ckptFile {s : Tablet} {rl : Listing} (hl : Lists rl s.rows) (hf : s.rows.Fits)
    (hlsn : s.lsn < 2 ^ 64) :
    rowsEnd (s.ckptFile rl) = some ((s.ckptFile rl).length - BloomFilter.BYTES) := by
  obtain ⟨h1, h2⟩ := hl.fits hf
  rw [rowsEnd]
  conv => lhs; rw [ckptFile, readCheckpoint_encode_of_fits s.bloom (bump_lt _) hlsn h1 h2]
  rw [Option.map_some, BloomFilter.serialize_length, ckptFile]

/--
**What an accepted checkpoint is worth.**

A file that is accepted serves all it loaded exactly when the bytes behind its rows
have the bits of each row with a column; they need not be there. And a file written by
`checkpoint_locked` that lost its end is refused exactly when the cut falls before the
end of the rows: the last 256 KB may be missing in part or altogether.
-/
theorem loadCheckpoint_complete_iff (t : Tablet) :
    (∀ file, (∀ t', (t.withCkpt file).loadCheckpoint = some t' → Serves t') ↔
      ∀ version lsn rl rest, readCheckpoint file = some ((version, lsn, rl), rest) →
        ∀ row cols, (rowsOf rl).lookup row = some cols → cols ≠ ∅ → HasBits rest row.1)
      ∧ (∀ (s : Tablet) (rl : Listing) (p : Bytes), p <+: s.ckptFile rl → p ≠ s.ckptFile rl →
        ((t.withCkpt p).loadCheckpoint = none ↔ ∀ n, rowsEnd (s.ckptFile rl) = some n → p.length < n))
      ∧ ∀ (s : Tablet) (rl : Listing), Lists rl s.rows → s.rows.Fits → s.lsn < 2 ^ 64 →
        rowsEnd (s.ckptFile rl) = some ((s.ckptFile rl).length - BloomFilter.BYTES) := by
  refine ⟨?_, ?_, fun s rl hl hf hlsn => rowsEnd_ckptFile hl hf hlsn⟩
  · intro file
    rw [loadCheckpoint_withCkpt]
    cases hread : readCheckpoint file with
    | none => simp
    | some q =>
        obtain ⟨⟨version, lsn, rl⟩, rest⟩ := q
        constructor
        · intro h version' lsn' rl' rest' heq row cols hrow hne
          cases heq
          exact (mayContain_deserialize_iff rest row.1).mp
            ((serves_iff _).mp (h _ rfl) row cols hrow hne)
        · intro h t' ht'
          obtain rfl := Option.some.inj ht'
          refine (serves_iff _).mpr (fun row cols hrow hne => ?_)
          exact (mayContain_deserialize_iff rest row.1).mpr (h version lsn rl rest rfl row cols hrow hne)
  · intro s rl p hp _
    rw [loadCheckpoint_withCkpt, Option.map_eq_none_iff, rowsEnd]
    cases hread : readCheckpoint (s.ckptFile rl) with
    | none =>
        -- what does not parse as a whole does not parse in part
        refine ⟨fun _ => nofun, fun _ => ?_⟩
        obtain ⟨back, hback⟩ := hp
        cases hpart : readCheckpoint p with
        | none => rfl
        | some q =>
            have hwhole := cuts_readCheckpoint.extends p q.1 q.2 back hpart
            rw [hback, hread] at hwhole
            exact absurd hwhole (by simp)
    | some q =>
        rw [Option.map_some, eq_none_iff_of_isPrefix cuts_readCheckpoint hread hp]
        simp

/-- The checkpoint of a tablet with one cell. -/
def onePutFile (row col val : Field) : Bytes := (onePut row col val).ckptFile [(row, [(col, val)])]

theorem onePutFile_rowsEnd (row col val : Field) :
    rowsEnd (onePutFile row col val) = some ((onePutFile row col val).length - BloomFilter.BYTES) :=
  rowsEnd_ckptFile (onePut_lists row col val) (onePut_fits row col val) (by rw [onePut_lsn]; decide)

theorem onePutFile_length (row col val : Field) :
    BloomFilter.BYTES + 24 ≤ (onePutFile row col val).length := by
  simp only [onePutFile, ckptFile, encodeCheckpoint, List.length_append, leBytes_length,
    BloomFilter.serialize_length]
  omega

/-- Cut in its first 24 bytes the file is refused. -/
theorem onePutFile_header (row col val : Field) {n : Nat} (hn : n < 24) :
    (onePutFile row col val).take n <+: onePutFile row col val
      ∧ (onePutFile row col val).take n ≠ onePutFile row col val
      ∧ ∀ m, rowsEnd (onePutFile row col val) = some m → ((onePutFile row col val).take n).length < m := by
  have hlen := onePutFile_length row col val
  have htake : ((onePutFile row col val).take n).length ≤ n := by
    rw [List.length_take]
    exact Nat.min_le_left _ _
  refine ⟨List.take_prefix _ _, ?_, ?_⟩
  · intro h
    have heq := congrArg List.length h
    omega
  · intro m hm
    rw [onePutFile_rowsEnd] at hm
    obtain rfl := Option.some.inj hm
    omega

/-- The whole of it is accepted, with the filter behind the row. -/
theorem readCheckpoint_onePutFile (row col val : Field) : ∃ version,
    readCheckpoint (onePutFile row col val) =
      some ((version, 1, [(row, [(col, val)])]), (onePut row col val).bloom.serialize) := by
  obtain ⟨h1, h2⟩ := (onePut_lists row col val).fits (onePut_fits row col val)
  have hlsn : (onePut row col val).lsn < 2 ^ 64 := by
    rw [onePut_lsn]
    decide
  have hread : readCheckpoint (onePutFile row col val) = _ :=
    readCheckpoint_encode_of_fits (onePut row col val).bloom (bump_lt _) hlsn h1 h2
  rw [onePut_lsn] at hread
  exact ⟨_, hread⟩

theorem hasBits_onePut (row col val : Field) : HasBits (onePut row col val).bloom.serialize row.1 := by
  have hread := BloomFilter.deserialize_serialize (onePut row col val).bloom []
  rw [List.append_nil] at hread
  rw [← mayContain_deserialize_iff, hread]
  exact BloomFilter.mayContain_add_self _ _

/-- A field of two bytes. -/
def twoBytes : Field := ⟨[104, 105], by decide⟩

/-- Cut after three bytes the file is refused; whole it is accepted, and its cell is
served. -/
theorem loadCheckpoint_complete_iff_onePutFile :
    (fresh.withCkpt ((onePutFile twoBytes twoBytes twoBytes).take 3)).loadCheckpoint = none
      ∧ ∃ t, (fresh.withCkpt (onePutFile twoBytes twoBytes twoBytes)).loadCheckpoint = some t
        ∧ t.get twoBytes twoBytes = some twoBytes := by
  obtain ⟨h1, h2, h3⟩ := onePutFile_header twoBytes twoBytes twoBytes (by decide : 3 < 24)
  obtain ⟨version, hread⟩ := readCheckpoint_onePutFile twoBytes twoBytes twoBytes
  have hload := loadCheckpoint_withCkpt fresh (onePutFile twoBytes twoBytes twoBytes)
  rw [hread] at hload
  refine ⟨((loadCheckpoint_complete_iff fresh).2.1 _ _ _ h1 h2).mpr h3, _, hload, ?_⟩
  -- its only row has its bits in the filter
  refine ((loadCheckpoint_complete_iff fresh).1 (onePutFile twoBytes twoBytes twoBytes)).mpr ?_ _ hload _ _ _ rfl
  intro version' lsn rl rest heq row cols hrow _
  rw [hread] at heq
  obtain ⟨hhead, rfl⟩ := Prod.mk.inj (Option.some.inj heq)
  obtain ⟨-, -, rfl⟩ := hhead
  have hmem : row = twoBytes := by
    by_contra hne
    have hnone : (rowsOf [(twoBytes, [(twoBytes, twoBytes)])]).lookup row = none :=
      Finmap.lookup_insert_of_ne _ hne
    rw [hnone] at hrow
    exact absurd hrow (by simp)
  rw [hmem]
  exact hasBits_onePut _ _ _

/-- Cut where its filter should start, the file is loaded as if it were whole. -/
theorem loadCheckpoint_onePutFile (row col val : Field) :
    ∃ v lsn, (fresh.withCkpt ((onePutFile row col val).take
        ((onePutFile row col val).length - BloomFilter.BYTES))).loadCheckpoint =
      some { fresh.withCkpt ((onePutFile row col val).take
          ((onePutFile row col val).length - BloomFilter.BYTES)) with
        rows := rowsOf [(row, [(col, val)])]
        bloom := .deserialize []
        checkpointVersion := v
        lsn := lsn } := by
  obtain ⟨version, hread⟩ := readCheckpoint_onePutFile row col val
  obtain ⟨used, hused, hmore⟩ := cuts_readCheckpoint _ _ _ hread
  have hcut : (onePutFile row col val).take ((onePutFile row col val).length - BloomFilter.BYTES) = used := by
    rw [hused, List.length_append, BloomFilter.serialize_length, Nat.add_sub_cancel, List.take_left]
  have hpart := hmore []
  rw [List.append_nil, ← hcut] at hpart
  rw [loadCheckpoint_withCkpt, hpart]
  exact ⟨_, _, rfl⟩

theorem not_hasBits_nil (key : Bytes) : ¬ HasBits [] key := by
  intro h
  obtain ⟨b, hb, -⟩ := h 0 (by decide)
  exact absurd hb (by simp)

/-- Its only cell is then not served. -/
theorem not_complete_onePutFile :
    (onePutFile emptyField emptyField emptyField).take
        ((onePutFile emptyField emptyField emptyField).length - BloomFilter.BYTES)
        <+: onePutFile emptyField emptyField emptyField
      ∧ (onePutFile emptyField emptyField emptyField).take
          ((onePutFile emptyField emptyField emptyField).length - BloomFilter.BYTES)
        ≠ onePutFile emptyField emptyField emptyField
      ∧ ∃ t, (fresh.withCkpt ((onePutFile emptyField emptyField emptyField).take
          ((onePutFile emptyField emptyField emptyField).length - BloomFilter.BYTES))).loadCheckpoint = some t
        ∧ t.rows.cell (emptyField, emptyField) = some emptyField ∧ t.get emptyField emptyField = none := by
  obtain ⟨v, lsn, hload⟩ := loadCheckpoint_onePutFile emptyField emptyField emptyField
  refine ⟨List.take_prefix _ _, ?_, _, hload, rfl, ?_⟩
  · intro h
    have hlen := onePutFile_length emptyField emptyField emptyField
    have heq := congrArg List.length h
    rw [List.length_take, BloomFilter.BYTES] at heq
    omega
  · have hno : ¬ (BloomFilter.deserialize []).mayContain emptyField.1 = true := by
      rw [mayContain_deserialize_iff]
      exact not_hasBits_nil _
    rw [get, findRow]
    show (if (BloomFilter.deserialize []).mayContain emptyField.1 then _ else none).bind _ = none
    rw [if_neg hno]
    rfl

end Tablet

end NCloud
