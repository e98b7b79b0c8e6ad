import NCloud.Storage.Tablet

/-!
# What an operation can do to a tablet

Every operation that is not a checkpoint, a snapshot load or a recovery changes a
tablet in one way only: it appends records to the log and applies exactly those
records to the map, one LSN each. A write that the operating system cuts short
leaves a torn record behind and a stream that accepts nothing more.

`Logs t ops t'` is that statement. Each operation gets one lemma that says so, and
everything later is proved about `Logs`, never about the operations.
-/

namespace NCloud.Tablet

open Wire Reader

/-- `t` after logging and applying one operation. The filter may gain a row. -/
def logged (t : Tablet) (op : Op) (b : BloomFilter) : Tablet :=
  { t.appendWal (WalRecord.ofOp op).encode with
    rows := t.rows.apply op
    lsn := bump t.lsn
    bloom := b }

/-- `t` after a write that stopped in the middle of a record. -/
def torn (t : Tablet) (p : Bytes) : Tablet := { t.appendWal p with stream := .failed }

/-- `t'` is `t` after logging and applying `ops`, and possibly one torn write. -/
inductive Logs (t : Tablet) : List Op → Tablet → Prop where
  | nil : Logs t [] t
  | snoc {ops : List Op} {t' : Tablet} (op : Op) (b : BloomFilter) :
      Logs t ops t' → t'.stream = .good → Logs t (ops ++ [op]) (t'.logged op b)
  | torn {ops : List Op} {t' : Tablet} (p : Bytes) :
      Logs t ops t' → t'.stream = .good → readRecord p = none → Logs t ops (t'.torn p)

theorem Logs.trans {t t₁ t₂ : Tablet} {ops₁ ops₂ : List Op}
    (h₁ : Logs t ops₁ t₁) (h₂ : Logs t₁ ops₂ t₂) : Logs t (ops₁ ++ ops₂) t₂ := by
  induction h₂ with
  | nil => rw [List.append_nil]; exact h₁
  | snoc op b _ hs ih => rw [← List.append_assoc]; exact ih.snoc op b hs
  | torn p _ hs hp ih => exact ih.torn p hs hp

/-! ## The map half -/

/-- Setting a cell is the map's `put`; only the filter knows whether the row was new. -/
theorem setCell_eq (t : Tablet) (row col val : Field) :
    ∃ b, t.setCell row col val = { t with rows := t.rows.put row col val, bloom := b } := by
  unfold setCell Rows.put
  cases h : t.rows.lookup row with
  | none => exact ⟨t.bloom.add row.1, by simp⟩
  | some cols => exact ⟨t.bloom, by simp⟩

theorem eraseCell_eq (t : Tablet) (row col : Field) :
    t.eraseCell row col = { t with rows := t.rows.erase row col } := by
  unfold eraseCell Rows.erase
  cases t.rows.lookup row with
  | none => rfl
  | some cols => rfl

theorem lookup_of_findRow {t : Tablet} {row : Field} {cols : Cols}
    (h : t.findRow row = some cols) : t.rows.lookup row = some cols := by
  unfold findRow at h
  split at h
  · exact h
  · exact absurd h (by simp)

/-! ## The log half -/

/-- The three outcomes of a log write. -/
theorem writeWal_cases (t : Tablet) (op : Op) (w : WalWrite) :
    (t.stream = .good ∧ t.writeWal (.ofOp op) w
        = (some (bump t.lsn), { t.appendWal (WalRecord.ofOp op).encode with lsn := bump t.lsn }))
      ∨ (t.stream = .good ∧ ∃ p, readRecord p = none ∧ t.writeWal (.ofOp op) w = (none, t.torn p))
      ∨ t.writeWal (.ofOp op) w = (none, t) := by
  unfold writeWal
  cases hs : t.stream with
  | closed => exact Or.inr (Or.inr rfl)
  | failed => exact Or.inr (Or.inr rfl)
  | good =>
      cases w with
      | ok => exact Or.inl ⟨rfl, rfl⟩
      | short n =>
          refine Or.inr (Or.inl ⟨rfl, (WalRecord.ofOp op).encode.dropLast.take n, ?_, rfl⟩)
          have hpre : (WalRecord.ofOp op).encode.dropLast.take n <+: (WalRecord.ofOp op).encode :=
            (List.take_prefix n _).trans (List.dropLast_prefix _)
          refine readRecord_torn hpre ?_
          -- the record is not empty, so losing its last byte makes it shorter
          intro he
          have hlen := congrArg List.length he
          have hpos : 0 < (WalRecord.ofOp op).encode.length := by
            rw [WalRecord.encode, List.length_append, leBytes_length]
            omega
          simp only [List.length_take, List.length_dropLast] at hlen
          omega

/-- The result of a log write together with the map update that follows it. -/
theorem logs_of_writeWal {t t' : Tablet} (op : Op) (w : WalWrite)
    (hfail : ∀ t₁, t.writeWal (.ofOp op) w = (none, t₁) → t' = t₁)
    (hok : t.writeWal (.ofOp op) w
        = (some (bump t.lsn), { t.appendWal (WalRecord.ofOp op).encode with lsn := bump t.lsn }) →
      ∃ b, t' = t.logged op b) :
    ∃ ops, Logs t ops t' := by
  rcases writeWal_cases t op w with ⟨hs, h⟩ | ⟨hs, p, hp, h⟩ | h
  · obtain ⟨b, rfl⟩ := hok h
    exact ⟨_, Logs.nil.snoc op b hs⟩
  · rw [hfail _ h]
    exact ⟨_, Logs.nil.torn p hs hp⟩
  · rw [hfail _ h]
    exact ⟨_, Logs.nil⟩

/-- Applying a put after its record was written. -/
theorem setCell_logged (t : Tablet) (row col val : Field) :
    ∃ b, ({ t.appendWal (WalRecord.ofOp (.put row col val)).encode with
      lsn := bump t.lsn } : Tablet).setCell row col val = t.logged (.put row col val) b := by
  obtain ⟨b, hb⟩ := setCell_eq
    { t.appendWal (WalRecord.ofOp (.put row col val)).encode with lsn := bump t.lsn } row col val
  exact ⟨b, hb⟩

/-- Applying a deletion after its record was written. -/
theorem eraseCell_logged (t : Tablet) (row col : Field) :
    ({ t.appendWal (WalRecord.ofOp (.del row col)).encode with
      lsn := bump t.lsn } : Tablet).eraseCell row col = t.logged (.del row col) t.bloom :=
  eraseCell_eq _ row col

/-- A put that the operating system lets through. -/
theorem put_ok {t : Tablet} (hs : t.stream = .good) (row col val : Field) :
    ∃ b, t.put row col val .ok = (some (bump t.lsn), t.logged (.put row col val) b) := by
  obtain ⟨b, hb⟩ := setCell_logged t row col val
  refine ⟨b, ?_⟩
  simp only [put, writeWalPut, writeWal, hs]
  exact congrArg (Prod.mk _) hb

/-- A conditional put whose condition holds. -/
theorem cput_ok {t : Tablet} (hs : t.stream = .good) {row col v1 : Field} {cols : Cols}
    (hf : t.findRow row = some cols) (hv : cols.lookup col = some v1) (v2 : Field) :
    t.cput row col v1 v2 .ok = (some (bump t.lsn), t.logged (.put row col v2) t.bloom) := by
  simp [cput, hf, hv, writeWalPut, writeWal, hs, logged, appendWal, Rows.apply, Rows.put,
    lookup_of_findRow hf]

/-- A deletion that finds its cell. -/
theorem del_ok {t : Tablet} (hs : t.stream = .good) {row col : Field} {cols : Cols}
    (hf : t.findRow row = some cols) (hv : cols.lookup col ≠ none) :
    t.del row col .ok = (some (some (bump t.lsn)), t.logged (.del row col) t.bloom) := by
  simp [del, hf, hv, writeWalDelete, writeWal, hs, logged, appendWal, Rows.apply, Rows.erase,
    lookup_of_findRow hf]

/-! ## One lemma per operation -/

theorem put_logs (t : Tablet) (row col val : Field) (w : WalWrite) :
    ∃ ops, Logs t ops (t.put row col val w).2 := by
  refine logs_of_writeWal (.put row col val) w ?_ ?_
  · intro t₁ h
    rw [put, writeWalPut, h]
  · intro h
    obtain ⟨b, hb⟩ := setCell_logged t row col val
    exact ⟨b, by rw [put, writeWalPut, h]; exact hb⟩

theorem cput_logs (t : Tablet) (row col v1 v2 : Field) (w : WalWrite) :
    ∃ ops, Logs t ops (t.cput row col v1 v2 w).2 := by
  unfold cput
  cases hf : t.findRow row with
  | none => exact ⟨_, Logs.nil⟩
  | some cols =>
      dsimp only
      split
      · refine logs_of_writeWal (.put row col v2) w ?_ ?_
        · intro t₁ h
          rw [writeWalPut, h]
        · intro h
          refine ⟨t.bloom, ?_⟩
          rw [writeWalPut, h]
          simp [logged, appendWal, Rows.apply, Rows.put, lookup_of_findRow hf]
      · exact ⟨_, Logs.nil⟩

theorem del_logs (t : Tablet) (row col : Field) (w : WalWrite) :
    ∃ ops, Logs t ops (t.del row col w).2 := by
  unfold del
  cases hf : t.findRow row with
  | none => exact ⟨_, Logs.nil⟩
  | some cols =>
      dsimp only
      split
      · exact ⟨_, Logs.nil⟩
      · refine logs_of_writeWal (.del row col) w ?_ ?_
        · intro t₁ h
          rw [writeWalDelete, h]
        · intro h
          refine ⟨t.bloom, ?_⟩
          rw [writeWalDelete, h]
          simp [logged, appendWal, Rows.apply, Rows.erase, lookup_of_findRow hf]

theorem applyReplicatedDeleteAssigning_logs (t : Tablet) (row col : Field) (w : WalWrite) :
    ∃ ops, Logs t ops (t.applyReplicatedDeleteAssigning row col w).2 := by
  refine logs_of_writeWal (.del row col) w ?_ ?_
  · intro t₁ h
    rw [applyReplicatedDeleteAssigning, writeWalDelete, h]
  · intro h
    exact ⟨t.bloom, by rw [applyReplicatedDeleteAssigning, writeWalDelete, h]; exact eraseCell_logged t row col⟩

theorem applyReplicatedPut_logs (t : Tablet) (row col val : Field) (n : Nat) (w : WalWrite) :
    ∃ ops, Logs t ops (t.applyReplicatedPut row col val n w).2 := by
  unfold applyReplicatedPut
  split
  · exact ⟨_, Logs.nil⟩
  · split
    · exact ⟨_, Logs.nil⟩
    · rename_i hn
      refine logs_of_writeWal (.put row col val) w ?_ ?_
      · intro t₁ h
        rw [writeWalPut, h]
      · intro h
        obtain ⟨b, hb⟩ := setCell_logged t row col val
        refine ⟨b, ?_⟩
        rw [writeWalPut, h]
        dsimp only
        rw [if_neg (by simpa using fun he => hn (Ne.symm he))]
        exact hb

theorem applyReplicatedDelete_logs (t : Tablet) (row col : Field) (n : Nat) (w : WalWrite) :
    ∃ ops, Logs t ops (t.applyReplicatedDelete row col n w).2 := by
  unfold applyReplicatedDelete
  split
  · exact ⟨_, Logs.nil⟩
  · split
    · exact ⟨_, Logs.nil⟩
    · rename_i hn
      refine logs_of_writeWal (.del row col) w ?_ ?_
      · intro t₁ h
        rw [writeWalDelete, h]
      · intro h
        refine ⟨t.bloom, ?_⟩
        rw [writeWalDelete, h]
        dsimp only
        rw [if_neg (by simpa using fun he => hn (Ne.symm he))]
        exact eraseCell_logged t row col

/-- One delta entry: an unknown operation byte changes nothing. -/
theorem applyEntry_logs {t : Tablet} {n : Nat} (r : WalRecord) (w : WalWrite)
    (hn : n = bump t.lsn) : ∃ ops, Logs t ops (t.applyEntry n r w).2 := by
  unfold applyEntry
  split
  · refine logs_of_writeWal (.put r.row r.col r.val) w ?_ ?_
    · intro t₁ h
      rw [writeWalPut, h]
    · intro h
      obtain ⟨b, hb⟩ := setCell_logged t r.row r.col r.val
      refine ⟨b, ?_⟩
      rw [writeWalPut, h]
      dsimp only
      rw [if_neg (by simp [hn])]
      exact hb
  · split
    · refine logs_of_writeWal (.del r.row r.col) w ?_ ?_
      · intro t₁ h
        rw [writeWalDelete, h]
      · intro h
        refine ⟨t.bloom, ?_⟩
        rw [writeWalDelete, h]
        dsimp only
        rw [if_neg (by simp [hn])]
        exact eraseCell_logged t r.row r.col
    · exact ⟨_, Logs.nil⟩

/-- The delta loop logs what it applies, entry by entry, on any bytes at all. -/
theorem applyDeltaLoop_logs (fuel : Nat) (rest : Bytes) (ws : List WalWrite) (t : Tablet) :
    ∃ ops, Logs t ops (applyDeltaLoop fuel rest ws t).2 := by
  induction fuel generalizing rest ws t with
  | zero => exact ⟨_, Logs.nil⟩
  | succ fuel ih =>
      rw [applyDeltaLoop]
      split
      · exact ⟨_, Logs.nil⟩
      · split
        · exact ⟨_, Logs.nil⟩
        · split
          · -- an entry already applied is skipped
            split
            · exact ⟨_, Logs.nil⟩
            · split
              · exact ⟨_, Logs.nil⟩
              · exact ih _ _ _
          · split
            · exact ⟨_, Logs.nil⟩
            · rename_i hgap
              have hn := not_not.mp hgap
              split
              · exact ⟨_, Logs.nil⟩
              · split
                · exact ⟨_, Logs.nil⟩
                · rename_i op _ _ _ _ _ _ row col val _ _
                  obtain ⟨ops₁, h₁⟩ := applyEntry_logs ⟨op, row, col, val⟩ (ws.headD .ok) hn
                  split
                  · rename_i t₁ he
                    rw [he] at h₁
                    exact ⟨ops₁, h₁⟩
                  · rename_i t₁ he
                    rw [he] at h₁
                    obtain ⟨ops₂, h₂⟩ := ih _ ws.tail t₁
                    exact ⟨ops₁ ++ ops₂, h₁.trans h₂⟩

theorem applyWalDeltaBlob_logs (t : Tablet) (blob : Bytes) (ws : List WalWrite) :
    ∃ ops, Logs t ops (t.applyWalDeltaBlob blob ws).2 := by
  unfold applyWalDeltaBlob
  split
  · exact ⟨_, Logs.nil⟩
  · exact applyDeltaLoop_logs _ _ _ _

end NCloud.Tablet
