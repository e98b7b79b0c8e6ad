import NCloud.Lib.Reader
import Mathlib.Data.Finmap

/-!
# Rows, columns and logged operations

`rows_` is a map from row to a map from column to value. A row that lost its
last column stays in the map, so an empty row and an absent row are different
states; a checkpoint has to tell them apart.

The map is a finite map up to order. `std::unordered_map` promises nothing about
iteration order, so whatever walks the map (a checkpoint, a snapshot) takes a
`Listing`: some order in which the walk could have seen it.
-/

namespace NCloud

open Wire

/-- A row key, column key or value: every format and header gives it a 32-bit length. -/
abbrev Field := { b : Bytes // b.length < 2 ^ 32 }

/-- `RowData::cols`. -/
abbrev Cols := Finmap (fun _ : Field => Field)

/-- `Tablet::rows_`. -/
abbrev Rows := Finmap (fun _ : Field => Cols)

/-- A logged operation. -/
inductive Op where
  | put (row col val : Field)
  | del (row col : Field)
  deriving DecidableEq

/-- The cell an operation writes. -/
def Op.cell : Op → Field × Field
  | .put row col _ => (row, col)
  | .del row col => (row, col)

/-- What the operation leaves in its cell. -/
def Op.value : Op → Option Field
  | .put _ _ val => some val
  | .del _ _ => none

/-- The lengths of its fields in a record, added up. -/
def Op.size : Op → Nat
  | .put row col val => row.1.length + col.1.length + val.1.length
  | .del row col => row.1.length + col.1.length

namespace Rows

/-- `cols[col] = val` in the row, which is created when missing. -/
def put (rows : Rows) (row col val : Field) : Rows :=
  rows.insert row (((rows.lookup row).getD ∅).insert col val)

/-- `cols.erase(col)` in the row, if there is one. -/
def erase (rows : Rows) (row col : Field) : Rows :=
  match rows.lookup row with
  | none => rows
  | some cols => rows.insert row (cols.erase col)

/-- The effect of a logged operation. -/
def apply (rows : Rows) : Op → Rows
  | .put row col val => rows.put row col val
  | .del row col => rows.erase row col

/-- The contents of one cell. -/
def cell (rows : Rows) (c : Field × Field) : Option Field :=
  (rows.lookup c.1).bind (fun cols => cols.lookup c.2)

/-- The rows after a history of operations on an empty tablet. -/
def replay (ops : List Op) : Rows := ops.foldl apply ∅

@[simp] theorem replay_nil : replay [] = ∅ := rfl

theorem replay_append (xs ys : List Op) : replay (xs ++ ys) = ys.foldl apply (replay xs) :=
  List.foldl_append

theorem replay_snoc (ops : List Op) (op : Op) : replay (ops ++ [op]) = (replay ops).apply op := by
  rw [replay_append]; rfl

/-! ## Cells -/

theorem cell_put_self (rows : Rows) (row col val : Field) :
    (rows.put row col val).cell (row, col) = some val := by
  simp [put, cell]

theorem cell_put_of_ne {rows : Rows} {row col val : Field} {c : Field × Field}
    (h : c ≠ (row, col)) : (rows.put row col val).cell c = rows.cell c := by
  obtain ⟨r, k⟩ := c
  by_cases hr : r = row
  · subst hr
    have hk : k ≠ col := fun he => h (by rw [he])
    have hl : (rows.put r col val).lookup r = some (((rows.lookup r).getD ∅).insert col val) :=
      Finmap.lookup_insert rows
    simp only [cell, hl, Option.bind_some, Finmap.lookup_insert_of_ne _ hk]
    cases rows.lookup r with
    | none => simp
    | some cols => rfl
  · have hl : (rows.put row col val).lookup r = rows.lookup r :=
      Finmap.lookup_insert_of_ne rows hr
    simp only [cell, hl]

theorem cell_erase_self (rows : Rows) (row col : Field) :
    (rows.erase row col).cell (row, col) = none := by
  unfold erase
  cases h : rows.lookup row with
  | none => simp [cell, h]
  | some cols => simp [cell]

theorem cell_erase_of_ne {rows : Rows} {row col : Field} {c : Field × Field}
    (h : c ≠ (row, col)) : (rows.erase row col).cell c = rows.cell c := by
  obtain ⟨r, k⟩ := c
  unfold erase
  cases hrow : rows.lookup row with
  | none => rfl
  | some cols =>
      by_cases hr : r = row
      · subst hr
        have hk : k ≠ col := fun he => h (by rw [he])
        have hl : (rows.insert r (cols.erase col)).lookup r = some (cols.erase col) :=
          Finmap.lookup_insert rows
        simp only [cell, hl, hrow, Option.bind_some, Finmap.lookup_erase_ne hk]
      · have hl : (rows.insert row (cols.erase col)).lookup r = rows.lookup r :=
          Finmap.lookup_insert_of_ne rows hr
        simp only [cell, hl]

/-- An operation decides its own cell. -/
theorem cell_apply_self (rows : Rows) (op : Op) : (rows.apply op).cell op.cell = op.value := by
  cases op with
  | put row col val => exact cell_put_self rows row col val
  | del row col => exact cell_erase_self rows row col

/-- And no other. -/
theorem cell_apply_of_ne {rows : Rows} {op : Op} {c : Field × Field} (h : c ≠ op.cell) :
    (rows.apply op).cell c = rows.cell c := by
  cases op with
  | put row col val => exact cell_put_of_ne h
  | del row col => exact cell_erase_of_ne h

/-- Rows are never removed. -/
theorem mem_apply_of_mem {rows : Rows} {op : Op} {r : Field} (h : r ∈ rows) :
    r ∈ rows.apply op := by
  cases op with
  | put row col val => exact Finmap.mem_insert.mpr (Or.inr h)
  | del row col =>
      show r ∈ rows.erase row col
      unfold erase
      cases rows.lookup row with
      | none => exact h
      | some cols => exact Finmap.mem_insert.mpr (Or.inr h)

/-- An operation leaves the other rows alone. -/
theorem lookup_apply_of_ne {rows : Rows} {op : Op} {r : Field} (h : r ≠ op.cell.1) :
    (rows.apply op).lookup r = rows.lookup r := by
  cases op with
  | put row col val => exact Finmap.lookup_insert_of_ne rows h
  | del row col =>
      show (rows.erase row col).lookup r = _
      unfold erase
      cases rows.lookup row with
      | none => rfl
      | some cols => exact Finmap.lookup_insert_of_ne rows h

/-- An operation on a row that exists makes no row. -/
theorem mem_apply_iff {rows : Rows} {op : Op} (hop : op.cell.1 ∈ rows) (r : Field) :
    r ∈ rows.apply op ↔ r ∈ rows := by
  refine ⟨fun h => ?_, mem_apply_of_mem⟩
  by_cases hr : r = op.cell.1
  · exact hr ▸ hop
  · rw [← Finmap.lookup_isSome] at h ⊢
    rwa [lookup_apply_of_ne hr] at h

theorem cell_of_notMem {rows : Rows} {c : Field × Field} (h : c.1 ∉ rows) : rows.cell c = none := by
  rw [cell, Finmap.lookup_eq_none.mpr h]; rfl

theorem mem_of_cell {rows : Rows} {c : Field × Field} (h : rows.cell c ≠ none) : c.1 ∈ rows := by
  by_contra hn
  exact h (cell_of_notMem hn)

end Rows

/-! ## Listings -/

/-- An order in which a walk over `rows_` may see its rows and columns. -/
abbrev Listing := List (Field × List (Field × Field))

/-- `rd->cols[col] = val`, pair after pair. -/
def colsOf (cs : List (Field × Field)) : Cols :=
  cs.foldl (fun m p => m.insert p.1 p.2) ∅

/-- `rows_[row] = rd`, row after row. -/
def rowsOf (rl : Listing) : Rows :=
  rl.foldl (fun m p => m.insert p.1 (colsOf p.2)) ∅

/-- `rl` is one of the orders in which the map can be walked. -/
structure Lists (rl : Listing) (rows : Rows) : Prop where
  /-- No row is seen twice. -/
  rowKeys : (rl.map Prod.fst).Nodup
  /-- No column of a row is seen twice. -/
  colKeys : ∀ p ∈ rl, (p.2.map Prod.fst).Nodup
  /-- And everything is seen. -/
  complete : rowsOf rl = rows

/-- The counts `nrows` and `ncols` of the file formats are 32-bit. -/
structure Rows.Fits (rows : Rows) : Prop where
  /-- Fewer than `2 ^ 32` rows. -/
  nrows : rows.keys.card < 2 ^ 32
  /-- Fewer than `2 ^ 32` columns in each. -/
  ncols : ∀ r cols, rows.lookup r = some cols → cols.keys.card < 2 ^ 32

instance (rows : Rows) : Decidable rows.Fits :=
  decidable_of_iff (rows.keys.card < 2 ^ 32 ∧ ∀ r ∈ rows.keys, ((rows.lookup r).getD ∅).keys.card < 2 ^ 32)
    ⟨fun h => ⟨h.1, fun r cols hr => by
        have hcols := h.2 r (Finmap.mem_keys.mpr (Finmap.mem_of_lookup_eq_some hr))
        rwa [hr] at hcols⟩,
      fun h => ⟨h.nrows, fun r hr => by
        obtain ⟨cols, hcols⟩ := Finmap.mem_iff.mp (Finmap.mem_keys.mp hr)
        rw [hcols]
        exact h.ncols r cols hcols⟩⟩

namespace Rows

/-- Every cell of the one has a place in the other. -/
def Inside (rows rows' : Rows) : Prop :=
  ∀ r cols, rows.lookup r = some cols → ∃ cols', rows'.lookup r = some cols' ∧ cols.keys ⊆ cols'.keys

/-- What is inside rows that fit fits. -/
theorem Fits.mono {rows rows' : Rows} (h : rows'.Fits) (hin : rows.Inside rows') : rows.Fits := by
  refine ⟨Nat.lt_of_le_of_lt (Finset.card_le_card fun r hr => ?_) h.nrows, fun r cols hr => ?_⟩
  · obtain ⟨cols, hcols⟩ := Finmap.mem_iff.mp (Finmap.mem_keys.mp hr)
    obtain ⟨cols', hcols', -⟩ := hin r cols hcols
    exact Finmap.mem_keys.mpr (Finmap.mem_of_lookup_eq_some hcols')
  · obtain ⟨cols', hcols', hsub⟩ := hin r cols hr
    exact Nat.lt_of_le_of_lt (Finset.card_le_card hsub) (h.ncols r cols' hcols')

/-- A put makes room for its cell. -/
theorem inside_put (rows : Rows) (row col val : Field) : rows.Inside (rows.put row col val) := by
  intro r cols hr
  by_cases he : r = row
  · subst he
    refine ⟨cols.insert col val, ?_, fun x hx => ?_⟩
    · rw [put, hr]
      exact Finmap.lookup_insert rows
    · exact Finmap.mem_keys.mpr (Finmap.mem_insert.mpr (.inr (Finmap.mem_keys.mp hx)))
  · exact ⟨cols, (Finmap.lookup_insert_of_ne rows he).trans hr, Finset.Subset.refl _⟩

/-- Where an operation has room for its cell it makes no more. -/
theorem apply_inside {rows big : Rows} {op : Op} {cols' : Cols} (h : rows.Inside big)
    (hrow : big.lookup op.cell.1 = some cols') (hcol : op.cell.2 ∈ cols') : (rows.apply op).Inside big := by
  intro r cols hr
  by_cases he : r = op.cell.1
  · subst he
    refine ⟨cols', hrow, fun x hx => ?_⟩
    -- a column of the row from before, or the one of the operation
    have hold : ∀ old, rows.lookup op.cell.1 = some old → old.keys ⊆ cols'.keys := by
      intro old hlook
      obtain ⟨cols'', hbig, hsub⟩ := h op.cell.1 old hlook
      obtain rfl := Option.some.inj (hrow.symm.trans hbig)
      exact hsub
    cases op with
    | put row col val =>
        have hlook : (rows.put row col val).lookup row = some (((rows.lookup row).getD ∅).insert col val) :=
          Finmap.lookup_insert rows
        obtain rfl := Option.some.inj (hlook.symm.trans hr)
        rcases Finmap.mem_insert.mp (Finmap.mem_keys.mp hx) with rfl | hx
        · exact Finmap.mem_keys.mpr hcol
        · cases hprev : rows.lookup row with
          | none =>
              rw [hprev] at hx
              exact absurd hx Finmap.notMem_empty
          | some old =>
              rw [hprev] at hx
              exact hold old hprev (Finmap.mem_keys.mpr hx)
    | del row col =>
        have hr : (rows.erase row col).lookup row = some cols := hr
        unfold erase at hr
        cases hprev : rows.lookup row with
        | none =>
            rw [hprev] at hr
            exact absurd (hprev.symm.trans hr) (by simp)
        | some old =>
            rw [hprev] at hr
            obtain rfl := Option.some.inj ((Finmap.lookup_insert rows).symm.trans hr)
            exact hold old hprev (Finmap.mem_keys.mpr (Finmap.mem_erase.mp (Finmap.mem_keys.mp hx)).2)
  · rw [lookup_apply_of_ne he] at hr
    exact h r cols hr

/-- Two operations on one cell need no more room than a put there. -/
theorem apply_apply_inside (rows : Rows) (op undo : Op) (hcell : undo.cell = op.cell) (val : Field) :
    ((rows.apply op).apply undo).Inside (rows.put op.cell.1 op.cell.2 val) := by
  have hrow : (rows.put op.cell.1 op.cell.2 val).lookup op.cell.1
      = some (((rows.lookup op.cell.1).getD ∅).insert op.cell.2 val) := Finmap.lookup_insert rows
  have hcol : op.cell.2 ∈ ((rows.lookup op.cell.1).getD ∅).insert op.cell.2 val :=
    Finmap.mem_insert.mpr (.inl rfl)
  have honce := apply_inside (inside_put rows _ _ val) hrow hcol
  rw [← hcell] at hrow hcol honce ⊢
  exact apply_inside honce hrow hcol

end Rows

section Insertion

variable {κ ν : Type} [DecidableEq κ] {β : Type}

/-- Building a map by insertion keeps the last value given for a key. -/
theorem keys_foldl_insert (key : β → κ) (val : β → ν) (l : List β)
    (m : Finmap (fun _ : κ => ν)) :
    (l.foldl (fun m p => m.insert (key p) (val p)) m).keys = m.keys ∪ (l.map key).toFinset := by
  induction l generalizing m with
  | nil => simp
  | cons p l ih =>
      rw [List.foldl_cons, ih]
      ext x
      simp only [Finset.mem_union, Finmap.mem_keys, Finmap.mem_insert, List.map_cons,
        List.toFinset_cons, Finset.mem_insert]
      tauto

theorem lookup_foldl_insert_of_notMem (key : β → κ) (val : β → ν) (l : List β)
    (m : Finmap (fun _ : κ => ν)) {x : κ} (h : x ∉ l.map key) :
    (l.foldl (fun m p => m.insert (key p) (val p)) m).lookup x = m.lookup x := by
  induction l generalizing m with
  | nil => rfl
  | cons p l ih =>
      rw [List.map_cons, List.mem_cons, not_or] at h
      rw [List.foldl_cons, ih _ h.2, Finmap.lookup_insert_of_ne _ h.1]

theorem lookup_foldl_insert_of_mem (key : β → κ) (val : β → ν) {l : List β}
    (hn : (l.map key).Nodup) (m : Finmap (fun _ : κ => ν)) {p : β} (hp : p ∈ l) :
    (l.foldl (fun m p => m.insert (key p) (val p)) m).lookup (key p) = some (val p) := by
  induction l generalizing m with
  | nil => exact absurd hp (by simp)
  | cons q l ih =>
      rw [List.map_cons, List.nodup_cons] at hn
      rw [List.foldl_cons]
      rcases List.mem_cons.mp hp with rfl | hp
      · rw [lookup_foldl_insert_of_notMem key val l _ hn.1, Finmap.lookup_insert]
      · exact ih hn.2 _ hp

/-- Emplacing keeps the keys there are and adds those of the list. -/
theorem mem_foldl_emplace (l : List (κ × ν)) (m : Finmap (fun _ : κ => ν)) {x : κ}
    (h : x ∈ l.foldl (fun m p => if p.1 ∈ m then m else m.insert p.1 p.2) m) :
    x ∈ m ∨ x ∈ l.map Prod.fst := by
  induction l generalizing m with
  | nil => exact .inl h
  | cons p l ih =>
      rw [List.foldl_cons] at h
      rw [List.map_cons, List.mem_cons]
      rcases ih _ h with hm | hl
      · split at hm
        · exact .inl hm
        · rcases Finmap.mem_insert.mp hm with heq | hm
          · exact .inr (.inl heq)
          · exact .inl hm
      · exact .inr (.inr hl)

/-- Emplacing copies of all entries of a map makes that map. -/
theorem lookup_foldl_emplace {src : Finmap (fun _ : κ => ν)} (l : List (κ × ν))
    (hl : ∀ p ∈ l, src.lookup p.1 = some p.2) (m : Finmap (fun _ : κ => ν))
    (hm : ∀ x ∈ m, m.lookup x = src.lookup x) (hall : ∀ x ∈ src, x ∈ m ∨ x ∈ l.map Prod.fst) (x : κ) :
    (l.foldl (fun m p => if p.1 ∈ m then m else m.insert p.1 p.2) m).lookup x = src.lookup x := by
  induction l generalizing m with
  | nil =>
      by_cases hx : x ∈ m
      · exact hm x hx
      · have hsrc : x ∉ src := fun hs => (hall x hs).elim hx (by simp)
        rw [List.foldl_nil, Finmap.lookup_eq_none.mpr hx, Finmap.lookup_eq_none.mpr hsrc]
  | cons p l ih =>
      have hl' : ∀ q ∈ l, src.lookup q.1 = some q.2 := fun q hq => hl q (List.mem_cons_of_mem _ hq)
      rw [List.foldl_cons]
      split
      · rename_i hp
        refine ih hl' m hm (fun y hy => ?_)
        rcases hall y hy with hy | hy
        · exact .inl hy
        · rcases List.mem_cons.mp hy with rfl | hy
          · exact .inl hp
          · exact .inr hy
      · refine ih hl' _ (fun y hy => ?_) (fun y hy => ?_)
        · by_cases hyp : y = p.1
          · rw [hyp, Finmap.lookup_insert, hl p List.mem_cons_self]
          · rw [Finmap.lookup_insert_of_ne _ hyp]
            exact hm y ((Finmap.mem_insert.mp hy).resolve_left hyp)
        · rcases hall y hy with hy | hy
          · exact .inl (Finmap.mem_insert.mpr (.inr hy))
          · rcases List.mem_cons.mp hy with rfl | hy
            · exact .inl (Finmap.mem_insert.mpr (.inl rfl))
            · exact .inr hy

end Insertion

theorem colsOf_keys (cs : List (Field × Field)) :
    (colsOf cs).keys = (cs.map Prod.fst).toFinset := by
  rw [colsOf, keys_foldl_insert]; simp

theorem rowsOf_keys (rl : Listing) : (rowsOf rl).keys = (rl.map Prod.fst).toFinset := by
  have h := keys_foldl_insert (fun p : Field × List (Field × Field) => p.1) (fun p => colsOf p.2)
    rl ∅
  rw [rowsOf, h]; simp

/-- A listing has exactly as many entries as the map has rows. -/
theorem Lists.length_eq {rl : Listing} {rows : Rows} (h : Lists rl rows) :
    rl.length = rows.keys.card := by
  rw [← h.complete, rowsOf_keys, List.toFinset_card_of_nodup h.rowKeys, List.length_map]

theorem Lists.lookup {rl : Listing} {rows : Rows} (h : Lists rl rows)
    {p : Field × List (Field × Field)} (hp : p ∈ rl) : rows.lookup p.1 = some (colsOf p.2) := by
  rw [← h.complete]
  exact lookup_foldl_insert_of_mem (fun p : Field × List (Field × Field) => p.1)
    (fun p => colsOf p.2) h.rowKeys ∅ hp

/-- When the map fits the format, so does each of its listings. -/
theorem Lists.fits {rl : Listing} {rows : Rows} (h : Lists rl rows) (hf : rows.Fits) :
    rl.length < 2 ^ 32 ∧ ∀ p ∈ rl, p.2.length < 2 ^ 32 := by
  refine ⟨h.length_eq ▸ hf.nrows, ?_⟩
  intro p hp
  have hc := hf.ncols p.1 (colsOf p.2) (h.lookup hp)
  rwa [colsOf_keys, List.toFinset_card_of_nodup (h.colKeys p hp), List.length_map] at hc

/-- Whatever is built from counted lists fits the format. -/
theorem rowsOf_fits {rl : Listing} (h1 : rl.length < 2 ^ 32)
    (h2 : ∀ p ∈ rl, p.2.length < 2 ^ 32) : (rowsOf rl).Fits := by
  refine ⟨?_, ?_⟩
  · rw [rowsOf_keys]
    calc (rl.map Prod.fst).toFinset.card ≤ (rl.map Prod.fst).length := List.toFinset_card_le _
      _ = rl.length := List.length_map _
      _ < 2 ^ 32 := h1
  · -- every row of the map was inserted by some entry of the list
    have key : ∀ (l : Listing) (m : Rows), (∀ p ∈ l, p.2.length < 2 ^ 32) →
        (∀ r cols, m.lookup r = some cols → cols.keys.card < 2 ^ 32) →
        ∀ r cols, (l.foldl (fun m p => m.insert p.1 (colsOf p.2)) m).lookup r = some cols →
          cols.keys.card < 2 ^ 32 := by
      intro l
      induction l with
      | nil => intro m _ hm; exact hm
      | cons p l ih =>
          intro m hl hm
          refine ih _ (fun q hq => hl q (List.mem_cons_of_mem _ hq)) ?_
          intro r cols hr
          by_cases he : r = p.1
          · subst he
            rw [Finmap.lookup_insert] at hr
            rw [← Option.some.inj hr, colsOf_keys]
            calc (p.2.map Prod.fst).toFinset.card ≤ (p.2.map Prod.fst).length :=
                  List.toFinset_card_le _
              _ = p.2.length := List.length_map _
              _ < 2 ^ 32 := hl p List.mem_cons_self
          · rw [Finmap.lookup_insert_of_ne _ he] at hr
            exact hm r cols hr
    intro r cols hr
    exact key rl ∅ h2 (by simp) r cols hr

theorem emptyRows_fits : (∅ : Rows).Fits :=
  @rowsOf_fits [] (by decide) (by simp)

/-- One cell fits. -/
theorem apply_emptyRows_fits (op : Op) : ((∅ : Rows).apply op).Fits := by
  cases op with
  | put row col val =>
      have hrow : (∅ : Rows).put row col val = rowsOf [(row, [(col, val)])] := by
        rw [Rows.put, Finmap.lookup_empty]
        rfl
      show ((∅ : Rows).put row col val).Fits
      rw [hrow]
      exact rowsOf_fits (by simp) (by simp)
  | del row col =>
      have hrow : (∅ : Rows).erase row col = ∅ := by rw [Rows.erase, Finmap.lookup_empty]
      show ((∅ : Rows).erase row col).Fits
      rw [hrow]
      exact emptyRows_fits

end NCloud
