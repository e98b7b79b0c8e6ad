import NCloud.Storage.Sync

/-!
# Snapshots taken while writers run

`tablet.cc` holds `wal_mu_` for the whole of a write and `rows_mu_` for parts of it,
and `snapshot_blob` holds only a shared `rows_mu_`. This module is the tablet at the
granularity of those critical sections:

* `put` and the replicated operations append and move `lsn_` first and take
  `rows_mu_` afterwards, shared when `put` finds its row, exclusive otherwise;
* `cput` and `del` hold a shared `rows_mu_` and their row's lock around both halves;
* `snapshot_blob` takes a shared `rows_mu_`, reads the header, then reads row after
  row under the row's lock.

A snapshot is `Consistent` with its header LSN when each of its cells is the cell's
value after at least that many operations. The two acts that can break this are named
by `Fine`; in runs that avoid them every snapshot is consistent
(`consistent_of_reach`).
-/

namespace NCloud

namespace Concurrent

/-- Who holds `wal_mu_`, and how far it has come. -/
inductive Writer where
  | idle
  /-- Appended, row not yet touched; `exclusive` if it will take `rows_mu_` so. -/
  | logged (op : Op) (exclusive : Bool)
  /-- Row locked, nothing appended yet. -/
  | locked (op : Op)
  /-- Row locked, appended, row not yet touched. -/
  | lockedLogged (op : Op)
  deriving DecidableEq

/-- The operation that is in the log and not in the map. -/
def Writer.pending : Writer → List Op
  | .logged op _ => [op]
  | .lockedLogged op => [op]
  | _ => []

/-- The row whose lock the writer holds between acts. -/
def Writer.holds : Writer → Option Field
  | .locked op => some op.cell.1
  | .lockedLogged op => some op.cell.1
  | _ => none

/-- A running `snapshot_blob`: the rows it has yet to visit, the LSN in its header once
it is written, and what it has copied. -/
structure Snapshot where
  order : List Field
  lsn : Option Nat
  rows : Rows

/-- A tablet with its locks. The log is everything ever logged, so its length is `lsn_`. -/
structure State where
  rows : Rows
  log : List Op
  writer : Writer
  snapshots : List Snapshot

/-- The critical sections. -/
inductive Act where
  /-- `put`, first half. -/
  | putLog (row col val : Field)
  /-- `apply_replicated_put`, `apply_replicated_delete` or a delta entry, first half. -/
  | replicatedLog (op : Op)
  /-- The second half of either. -/
  | applyRow
  /-- `cput` up to its comparison. -/
  | cputLock (row col v1 v2 : Field)
  /-- `del` up to its lookup. -/
  | delLock (row col : Field)
  /-- The append of either. -/
  | lockedLog
  /-- The row update of either. -/
  | lockedApply
  /-- `load_snapshot_blob` of a tablet with history `h`. -/
  | install (h : List Op)
  /-- `snapshot_blob` takes its lock; the map will be walked in this order. -/
  | snapLock (order : List Field)
  /-- It writes its header. -/
  | snapHeader (i : Nat)
  /-- It copies the next row. -/
  | snapRow (i : Nat)
  /-- It returns. -/
  | snapEnd (i : Nat)

/-- An empty tablet. -/
def State.init : State := { rows := ∅, log := [], writer := .idle, snapshots := [] }

/-- One critical section; `none` when a lock is not free. -/
def step (s : State) : Act → Option State
  | .putLog row col val =>
      if s.writer = .idle then
        some { s with log := s.log ++ [.put row col val], writer := .logged (.put row col val) false }
      else none
  | .replicatedLog op =>
      if s.writer = .idle then some { s with log := s.log ++ [op], writer := .logged op true }
      else none
  | .applyRow =>
      match s.writer with
      | .logged op exclusive =>
          -- a row has to be made, or the caller asks for it: `rows_mu_` is taken exclusively
          if (exclusive = true ∨ op.cell.1 ∉ s.rows) ∧ s.snapshots ≠ [] then none
          else some { s with rows := s.rows.apply op, writer := .idle }
      | _ => none
  | .cputLock row col v1 v2 =>
      if s.writer = .idle ∧ s.rows.cell (row, col) = some v1 then
        some { s with writer := .locked (.put row col v2) }
      else none
  | .delLock row col =>
      if s.writer = .idle ∧ s.rows.cell (row, col) ≠ none then
        some { s with writer := .locked (.del row col) }
      else none
  | .lockedLog =>
      match s.writer with
      | .locked op => some { s with log := s.log ++ [op], writer := .lockedLogged op }
      | _ => none
  | .lockedApply =>
      match s.writer with
      | .lockedLogged op => some { s with rows := s.rows.apply op, writer := .idle }
      | _ => none
  | .install h =>
      if s.writer = .idle ∧ s.snapshots = [] then some { s with rows := Rows.replay h, log := h }
      else none
  | .snapLock order =>
      if order.Nodup ∧ order.toFinset = s.rows.keys then
        some { s with snapshots := s.snapshots ++ [⟨order, none, ∅⟩] }
      else none
  | .snapHeader i =>
      match s.snapshots[i]? with
      | some ⟨order, none, rows⟩ =>
          some { s with snapshots := s.snapshots.set i ⟨order, some s.log.length, rows⟩ }
      | _ => none
  | .snapRow i =>
      match s.snapshots[i]? with
      | some ⟨key :: order, some lsn, rows⟩ =>
          if s.writer.holds = some key then none
          else
            (s.rows.lookup key).map (fun cols =>
              { s with snapshots := s.snapshots.set i ⟨order, some lsn, rows.insert key cols⟩ })
      | _ => none
  | .snapEnd i =>
      match s.snapshots[i]? with
      | some ⟨[], some _, _⟩ => some { s with snapshots := s.snapshots.eraseIdx i }
      | _ => none

/-- The snapshot reflects at least the first `lsn` operations: each cell is what it was
after some number of operations between `lsn` and now. -/
def Consistent (log : List Op) (lsn : Nat) (rows : Rows) : Prop :=
  ∀ c, ∃ k, lsn ≤ k ∧ k ≤ log.length ∧ rows.cell c = (Rows.replay (log.take k)).cell c

/-- The acts that cannot make a snapshot claim more than it holds. A header is not
written while a put that will make a new row is between its halves, and a row is not
copied while the snapshot's header counts an operation on it that is. -/
def Fine (s : State) : Act → Prop
  | .snapHeader _ =>
      ∀ row col val exclusive, s.writer = .logged (.put row col val) exclusive → row ∈ s.rows
  | .snapRow i =>
      ∀ key order lsn rows op exclusive, s.snapshots[i]? = some ⟨key :: order, some lsn, rows⟩ →
        s.writer = .logged op exclusive → op.cell.1 = key → lsn < s.log.length
  | _ => True

/-- Reached by acts that satisfy `C`. -/
inductive Reach (C : State → Act → Prop) : State → Prop where
  | init : Reach C State.init
  | step {s s' : State} (a : Act) : Reach C s → C s a → step s a = some s' → Reach C s'

/-! ## The invariant -/

/-- What a running snapshot has to do with the tablet around it. -/
structure SnapshotInv (s : State) (r : Snapshot) : Prop where
  /-- It visits every row; none can be made while it runs. -/
  keys : ∀ key, key ∈ s.rows ↔ key ∈ r.order ∨ key ∈ r.rows
  /-- Nothing is copied before the header is written. -/
  fresh : r.lsn = none → r.rows = ∅
  /-- The header counts logged operations. -/
  le : ∀ lsn, r.lsn = some lsn → lsn ≤ s.log.length
  /-- A copied row is the row after at least as many operations as the header says. -/
  copied : ∀ lsn, r.lsn = some lsn → ∀ key cols, r.rows.lookup key = some cols →
    ∃ k, lsn ≤ k ∧ k ≤ s.log.length ∧ (Rows.replay (s.log.take k)).lookup key = some cols
  /-- A row that does not exist was not written by the operations it counts. -/
  absent : ∀ lsn, r.lsn = some lsn → ∀ c : Field × Field, c.1 ∉ s.rows →
    (Rows.replay (s.log.take lsn)).cell c = none

/-- The map lags the log by the operation in hand, and every snapshot is as above. -/
structure Inv (s : State) : Prop where
  /-- The lag. -/
  lag : ∃ pre, s.rows = Rows.replay pre ∧ s.log = pre ++ s.writer.pending
  /-- A locked row exists. -/
  held : ∀ row, s.writer.holds = some row → row ∈ s.rows
  /-- The snapshots. -/
  snapshots : ∀ r ∈ s.snapshots, SnapshotInv s r

theorem inv_init : Inv State.init where
  lag := ⟨[], rfl, rfl⟩
  held := nofun
  snapshots := nofun

/-- A snapshot does not mind a growing log or changes within existing rows. -/
theorem SnapshotInv.mono {s s' : State} {r : Snapshot} (h : SnapshotInv s r)
    (hkeys : ∀ key, key ∈ s'.rows ↔ key ∈ s.rows) (hlog : s.log <+: s'.log) : SnapshotInv s' r := by
  obtain ⟨more, hmore⟩ := hlog
  have htake : ∀ k, k ≤ s.log.length → s'.log.take k = s.log.take k := by
    intro k hk
    rw [← hmore, List.take_append_of_le_length hk]
  have hlen : s.log.length ≤ s'.log.length := by rw [← hmore, List.length_append]; omega
  refine ⟨fun key => (hkeys key).trans (h.keys key), h.fresh, ?_, ?_, ?_⟩
  · intro lsn hl
    exact (h.le lsn hl).trans hlen
  · intro lsn hl key cols hc
    obtain ⟨k, h1, h2, h3⟩ := h.copied lsn hl key cols hc
    exact ⟨k, h1, h2.trans hlen, by rw [htake k h2]; exact h3⟩
  · intro lsn hl c hc
    rw [htake lsn (h.le lsn hl)]
    exact h.absent lsn hl c (fun hm => hc ((hkeys c.1).mpr hm))

/-- Nor anything that leaves the map and the log alone. -/
theorem SnapshotInv.frame {s s' : State} {r : Snapshot} (h : SnapshotInv s r)
    (hrows : s'.rows = s.rows) (hlog : s'.log = s.log) : SnapshotInv s' r :=
  h.mono (fun _ => by rw [hrows]) (hlog ▸ List.prefix_refl _)

/-- Between the halves of a write, the map's other rows are what the log says. -/
theorem lookup_lagging {pre pending : List Op} {key : Field}
    (h : ∀ op ∈ pending, op.cell.1 ≠ key) :
    (Rows.replay (pre ++ pending)).lookup key = (Rows.replay pre).lookup key := by
  rw [Rows.replay_append]
  induction pending generalizing pre with
  | nil => rfl
  | cons op pending ih =>
      have hstep := @ih (pre ++ [op]) (fun o ho => h o (List.mem_cons_of_mem _ ho))
      rw [Rows.replay_snoc] at hstep
      rw [List.foldl_cons, hstep]
      exact Rows.lookup_apply_of_ne (Ne.symm (h op List.mem_cons_self))

theorem pending_length (w : Writer) : w.pending.length ≤ 1 := by
  cases w <;> simp [Writer.pending]

/-- The header is written. -/
theorem snapshotInv_header {s : State} (h : Inv s) {i : Nat} (hf : Fine s (.snapHeader i))
    {order : List Field} {rows : Rows} (hr : SnapshotInv s ⟨order, none, rows⟩) :
    SnapshotInv s ⟨order, some s.log.length, rows⟩ := by
  have hempty : rows = ∅ := hr.fresh rfl
  refine ⟨hr.keys, nofun, ?_, ?_, ?_⟩
  · rintro lsn ⟨⟩
    exact Nat.le_refl _
  · rintro lsn ⟨⟩ key cols hc
    simp [hempty] at hc
  · rintro lsn ⟨⟩ c hc
    obtain ⟨pre, hrows, hlog⟩ := h.lag
    have hnone : (Rows.replay pre).cell c = none := Rows.cell_of_notMem (hrows ▸ hc)
    rw [List.take_length, hlog]
    cases hw : s.writer with
    | idle => simpa [Writer.pending] using hnone
    | locked op => simpa [Writer.pending] using hnone
    | lockedLogged op =>
        -- the row of this operation is locked, so it exists
        have hop : op.cell.1 ∈ s.rows := h.held _ (by rw [hw]; rfl)
        have hne : c ≠ op.cell := fun he => hc (he ▸ hop)
        simp only [Writer.pending]
        rw [Rows.replay_snoc, Rows.cell_apply_of_ne hne, hnone]
    | logged op exclusive =>
        simp only [Writer.pending]
        rw [Rows.replay_snoc]
        cases op with
        | put row col val =>
            have hrow := hf row col val exclusive hw
            have hne : c ≠ (Op.put row col val).cell := fun he => hc (he ▸ hrow)
            rw [Rows.cell_apply_of_ne hne, hnone]
        | del row col =>
            by_cases he : c = (Op.del row col).cell
            · rw [he, Rows.cell_apply_self]; rfl
            · rw [Rows.cell_apply_of_ne he, hnone]

/-- A row is copied. -/
theorem snapshotInv_row {s : State} (h : Inv s) {i : Nat} (hf : Fine s (.snapRow i))
    {key : Field} {order : List Field} {lsn : Nat} {rows : Rows} {cols : Cols}
    (hi : s.snapshots[i]? = some ⟨key :: order, some lsn, rows⟩)
    (hheld : s.writer.holds ≠ some key) (hcols : s.rows.lookup key = some cols)
    (hr : SnapshotInv s ⟨key :: order, some lsn, rows⟩) :
    SnapshotInv s ⟨order, some lsn, rows.insert key cols⟩ := by
  refine ⟨?_, nofun, hr.le, ?_, hr.absent⟩
  · intro k
    rw [hr.keys k, List.mem_cons, Finmap.mem_insert]
    tauto
  · rintro lsn' ⟨⟩ k cs hk
    by_cases hkey : k = key
    · subst hkey
      rw [Finmap.lookup_insert] at hk
      obtain rfl := Option.some.inj hk
      obtain ⟨pre, hrows, hlog⟩ := h.lag
      have hle := hr.le lsn rfl
      by_cases hpre : lsn ≤ pre.length
      · -- the header counts only operations that have reached the map
        refine ⟨pre.length, hpre, by rw [hlog, List.length_append]; omega, ?_⟩
        rw [hlog, List.take_left, ← hrows, hcols]
      · -- it counts the one in hand too, which is then on another row
        refine ⟨s.log.length, hle, Nat.le_refl _, ?_⟩
        rw [List.take_length, hlog, lookup_lagging, ← hrows, hcols]
        intro op hop he
        cases hw : s.writer with
        | idle => rw [hw] at hop; exact absurd hop (by simp [Writer.pending])
        | locked op' => rw [hw] at hop; exact absurd hop (by simp [Writer.pending])
        | lockedLogged op' =>
            rw [hw] at hop hheld
            obtain rfl : op = op' := by simpa [Writer.pending] using hop
            exact hheld (by simp [Writer.holds, he])
        | logged op' exclusive =>
            rw [hw] at hop
            obtain rfl : op = op' := by simpa [Writer.pending] using hop
            have hlt := hf k order lsn rows op exclusive hi hw he
            have hp := pending_length s.writer
            rw [hlog, List.length_append] at hlt
            omega
    · rw [Finmap.lookup_insert_of_ne _ hkey] at hk
      exact hr.copied lsn rfl k cs hk

/-- Appending a record. -/
theorem Inv.append {s : State} (h : Inv s) (hp : s.writer.pending = []) {op : Op} {w : Writer}
    (hw : w.pending = [op]) (hheld : ∀ row, w.holds = some row → row ∈ s.rows) :
    Inv { s with log := s.log ++ [op], writer := w } := by
  obtain ⟨pre, hrows, hlog⟩ := h.lag
  rw [hp, List.append_nil] at hlog
  refine ⟨⟨pre, hrows, by rw [hw, hlog]⟩, hheld, ?_⟩
  intro r hr
  exact (h.snapshots r hr).mono (fun _ => Iff.rfl) (List.prefix_append _ _)

/-- Bringing the map up to the log. -/
theorem Inv.apply {s : State} (h : Inv s) {op : Op} (hp : s.writer.pending = [op])
    (hrow : op.cell.1 ∈ s.rows ∨ s.snapshots = []) :
    Inv { s with rows := s.rows.apply op, writer := .idle } := by
  obtain ⟨pre, hrows, hlog⟩ := h.lag
  refine ⟨⟨pre ++ [op], ?_, ?_⟩, nofun, ?_⟩
  · rw [Rows.replay_snoc, ← hrows]
  · rw [hlog, hp]; exact (List.append_nil _).symm
  · intro r hr
    rcases hrow with hrow | hnone
    · exact (h.snapshots r hr).mono (Rows.mem_apply_iff hrow) (List.prefix_refl _)
    · rw [show s.snapshots = [] from hnone] at hr
      exact absurd hr (by simp)

/-- Taking a row's lock. -/
theorem Inv.lock {s : State} (h : Inv s) (hi : s.writer = .idle) {op : Op}
    (hop : op.cell.1 ∈ s.rows) : Inv { s with writer := .locked op } := by
  obtain ⟨pre, hrows, hlog⟩ := h.lag
  refine ⟨⟨pre, hrows, by rw [hlog, hi]; rfl⟩, ?_, fun r hr => (h.snapshots r hr).frame rfl rfl⟩
  intro row hr
  obtain rfl := Option.some.inj hr
  exact hop

/-- Replacing one snapshot. -/
theorem Inv.set {s : State} (h : Inv s) (i : Nat) {r : Snapshot} (hr : SnapshotInv s r) :
    Inv { s with snapshots := s.snapshots.set i r } := by
  refine ⟨h.lag, h.held, ?_⟩
  intro r' hr'
  rcases List.mem_or_eq_of_mem_set hr' with hm | rfl
  · exact (h.snapshots r' hm).frame rfl rfl
  · exact hr.frame rfl rfl

/-- **Every fine act keeps the invariant.** -/
theorem inv_step {s s' : State} {a : Act} (h : Inv s) (hf : Fine s a) (hs : step s a = some s') :
    Inv s' := by
  cases a with
  | putLog row col val =>
      simp only [step] at hs
      split at hs
      · rename_i hi
        obtain rfl := Option.some.inj hs
        exact h.append (by rw [hi]; rfl) rfl nofun
      · exact absurd hs (by simp)
  | replicatedLog op =>
      simp only [step] at hs
      split at hs
      · rename_i hi
        obtain rfl := Option.some.inj hs
        exact h.append (by rw [hi]; rfl) rfl nofun
      · exact absurd hs (by simp)
  | applyRow =>
      simp only [step] at hs
      split at hs
      · rename_i op exclusive hw
        split at hs
        · exact absurd hs (by simp)
        · rename_i hfree
          obtain rfl := Option.some.inj hs
          refine h.apply (by rw [hw]; rfl) ?_
          by_cases hrow : op.cell.1 ∈ s.rows
          · exact Or.inl hrow
          · right
            by_contra hne
            exact hfree ⟨Or.inr hrow, hne⟩
      · exact absurd hs (by simp)
  | cputLock row col v1 v2 =>
      simp only [step] at hs
      split at hs
      · rename_i hc
        obtain rfl := Option.some.inj hs
        exact h.lock hc.1 (Rows.mem_of_cell (c := (row, col)) (by rw [hc.2]; simp))
      · exact absurd hs (by simp)
  | delLock row col =>
      simp only [step] at hs
      split at hs
      · rename_i hc
        obtain rfl := Option.some.inj hs
        exact h.lock hc.1 (Rows.mem_of_cell (c := (row, col)) hc.2)
      · exact absurd hs (by simp)
  | lockedLog =>
      simp only [step] at hs
      split at hs
      · rename_i op hw
        obtain rfl := Option.some.inj hs
        refine h.append (by rw [hw]; rfl) rfl ?_
        intro row hr
        exact h.held row (by rw [hw]; exact hr)
      · exact absurd hs (by simp)
  | lockedApply =>
      simp only [step] at hs
      split at hs
      · rename_i op hw
        obtain rfl := Option.some.inj hs
        exact h.apply (by rw [hw]; rfl) (Or.inl (h.held _ (by rw [hw]; rfl)))
      · exact absurd hs (by simp)
  | install hist =>
      simp only [step] at hs
      split at hs
      · rename_i hc
        obtain rfl := Option.some.inj hs
        refine ⟨⟨hist, rfl, by rw [hc.1]; exact (List.append_nil _).symm⟩, ?_, ?_⟩
        · intro row hr
          rw [hc.1] at hr
          exact absurd hr (by simp [Writer.holds])
        · intro r hr
          rw [hc.2] at hr
          exact absurd hr (by simp)
      · exact absurd hs (by simp)
  | snapLock order =>
      simp only [step] at hs
      split at hs
      · rename_i hc
        obtain rfl := Option.some.inj hs
        refine ⟨h.lag, h.held, ?_⟩
        intro r hr
        rcases List.mem_append.mp hr with hm | hm
        · exact (h.snapshots r hm).frame rfl rfl
        · obtain rfl := List.mem_singleton.mp hm
          refine ⟨?_, fun _ => rfl, nofun, nofun, nofun⟩
          intro key
          show key ∈ s.rows ↔ key ∈ order ∨ key ∈ (∅ : Rows)
          rw [← Finmap.mem_keys, ← hc.2, List.mem_toFinset]
          simp [Finmap.notMem_empty]
      · exact absurd hs (by simp)
  | snapHeader i =>
      simp only [step] at hs
      split at hs
      · rename_i order rows hi
        obtain rfl := Option.some.inj hs
        exact h.set i (snapshotInv_header h hf (h.snapshots _ (List.mem_of_getElem? hi)))
      · exact absurd hs (by simp)
  | snapRow i =>
      simp only [step] at hs
      split at hs
      · rename_i key order lsn rows hi
        split at hs
        · exact absurd hs (by simp)
        · rename_i hheld
          obtain ⟨cols, hcols, rfl⟩ := Option.map_eq_some_iff.mp hs
          exact h.set i
            (snapshotInv_row h hf hi hheld hcols (h.snapshots _ (List.mem_of_getElem? hi)))
      · exact absurd hs (by simp)
  | snapEnd i =>
      simp only [step] at hs
      split at hs
      · obtain rfl := Option.some.inj hs
        refine ⟨h.lag, h.held, ?_⟩
        intro r hr
        exact (h.snapshots r (List.mem_of_mem_eraseIdx hr)).frame rfl rfl
      · exact absurd hs (by simp)

theorem inv_reachable {s : State} (h : Reach Fine s) : Inv s := by
  induction h with
  | init => exact inv_init
  | step a _ hf hs ih => exact inv_step ih hf hs

/--
**Snapshots are consistent in every fine run.**

When a snapshot has copied its last row, each of its cells, those of rows it does not
have included, holds what the cell held after at least as many operations as its
header says.
-/
theorem consistent_of_reach {s : State} (h : Reach Fine s) {r : Snapshot} (hr : r ∈ s.snapshots)
    {lsn : Nat} (hl : r.lsn = some lsn) (hdone : r.order = []) : Consistent s.log lsn r.rows := by
  have hinv := (inv_reachable h).snapshots r hr
  intro c
  cases hc : r.rows.lookup c.1 with
  | some cols =>
      obtain ⟨k, h1, h2, h3⟩ := hinv.copied lsn hl c.1 cols hc
      exact ⟨k, h1, h2, by rw [Rows.cell, Rows.cell, hc, h3]⟩
  | none =>
      refine ⟨lsn, Nat.le_refl _, hinv.le lsn hl, ?_⟩
      have hnot : c.1 ∉ r.rows := Finmap.lookup_eq_none.mp hc
      rw [Rows.cell_of_notMem hnot, hinv.absent lsn hl c]
      intro hm
      rcases (hinv.keys c.1).mp hm with ho | ho
      · rw [hdone] at ho
        exact absurd ho (by simp)
      · exact hnot ho

/-- Acts one after the other. -/
def run (s : State) : List Act → Option State
  | [] => some s
  | a :: as => (step s a).bind (fun s' => run s' as)

/-! ### A snapshot between the halves of a put -/

/-- One put has logged its record; a snapshot has started, written its header and found
no rows. -/
def betweenHalves : State :=
  { rows := ∅
    log := [.put emptyField emptyField emptyField]
    writer := .logged (.put emptyField emptyField emptyField) false
    snapshots := [⟨[], some 1, ∅⟩] }

/-- A field of one byte. -/
def oneByte (b : UInt8) : Field := ⟨[b], (by decide : 1 < 2 ^ 32)⟩

/-- Two puts into one cell. -/
def twoPuts : List Op :=
  [.put (oneByte 97) (oneByte 98) (oneByte 99), .put (oneByte 97) (oneByte 98) (oneByte 100)]

/-- Both puts are done. A snapshot counts the first of them; it has copied the row between
the halves of the second. -/
def duringPut : State :=
  { rows := Rows.replay twoPuts
    log := twoPuts
    writer := .idle
    snapshots := [⟨[], some 1, (∅ : Rows).insert (oneByte 97) ((∅ : Cols).insert (oneByte 98) (oneByte 99))⟩] }

theorem reach_duringPut : Reach Fine duringPut := by
  have hfirst := ((Reach.init (C := Fine)).step (.putLog (oneByte 97) (oneByte 98) (oneByte 99)) trivial rfl).step
    .applyRow trivial rfl
  have hheader := (hfirst.step (.snapLock [oneByte 97]) trivial rfl).step (.snapHeader 0) nofun rfl
  have hsecond := hheader.step (.putLog (oneByte 97) (oneByte 98) (oneByte 100)) trivial rfl
  refine (hsecond.step (.snapRow 0) ?_ rfl).step .applyRow trivial rfl
  -- the header does not count the put that is under way
  intro key order lsn rows op exclusive hr _ _
  have hlsn : lsn = 1 := by
    have hone := congrArg (fun r => r.bind Snapshot.lsn) hr
    exact (Option.some.inj hone).symm
  rw [hlsn]
  decide

theorem consistent_of_reach_duringPut :
    Consistent duringPut.log 1
      ((∅ : Rows).insert (oneByte 97) ((∅ : Cols).insert (oneByte 98) (oneByte 99))) :=
  consistent_of_reach reach_duringPut (List.mem_singleton.mpr rfl) rfl rfl

/-- The header says 1, and the operation with LSN 1 is not in the snapshot. -/
theorem not_consistent_betweenHalves :
    run State.init [.putLog emptyField emptyField emptyField, .snapLock [], .snapHeader 0]
        = some betweenHalves
      ∧ Reach (fun _ _ => True) betweenHalves
      ∧ ⟨[], some 1, ∅⟩ ∈ betweenHalves.snapshots
      ∧ ¬ Consistent betweenHalves.log 1 ∅ := by
  refine ⟨rfl, ?_, List.mem_singleton.mpr rfl, ?_⟩
  · exact (((Reach.init (C := fun _ _ => True)).step (.putLog emptyField emptyField emptyField) trivial
      rfl).step (.snapLock []) trivial rfl).step (.snapHeader 0) trivial rfl
  · intro h
    obtain ⟨k, h1, h2, h3⟩ := h (emptyField, emptyField)
    obtain rfl : k = 1 := Nat.le_antisymm h2 h1
    have hput : (Rows.replay [.put emptyField emptyField emptyField]).cell (emptyField, emptyField)
        = some emptyField := Rows.cell_put_self ∅ emptyField emptyField emptyField
    rw [show betweenHalves.log.take 1 = [.put emptyField emptyField emptyField] from rfl, hput,
      Rows.cell_of_notMem Finmap.notMem_empty] at h3
    exact absurd h3 (by simp)

/-! ## Run alone, the sections are the tablet's functions -/

/-- The state of a tablet that nobody is writing. -/
structure Quiet (s : State) (t : Tablet) : Prop where
  /-- `wal_mu_` is free. -/
  idle : s.writer = .idle
  /-- Nobody reads. -/
  alone : s.snapshots = []
  /-- Same map. -/
  rows : s.rows = t.rows
  /-- Same LSN. -/
  lsn : t.lsn = s.log.length % 2 ^ 64

theorem Quiet.logged {s : State} {t : Tablet} (h : Quiet s t) (op : Op) (b : BloomFilter) :
    Quiet { s with rows := s.rows.apply op, log := s.log ++ [op] } (t.logged op b) := by
  refine ⟨h.idle, h.alone, ?_, ?_⟩
  · show s.rows.apply op = t.rows.apply op
    rw [h.rows]
  · show bump t.lsn = _
    rw [h.lsn, bump, List.length_append, List.length_singleton]
    omega

theorem run_put {s : State} {t : Tablet} (h : Quiet s t) (hs : t.stream = .good)
    (row col val : Field) :
    ∃ s', run s [.putLog row col val, .applyRow] = some s'
      ∧ Quiet s' (t.put row col val .ok).2 := by
  obtain ⟨b, hb⟩ := Tablet.put_ok hs row col val
  refine ⟨{ s with rows := s.rows.apply (.put row col val), log := s.log ++ [.put row col val] },
    ?_, ?_⟩
  · simp [run, step, h.idle, h.alone]
  · rw [hb]
    exact h.logged _ b

theorem Quiet.cell {s : State} {t : Tablet} (h : Quiet s t) {row : Field} {cols : Cols}
    (hf : t.findRow row = some cols) (col : Field) : s.rows.cell (row, col) = cols.lookup col := by
  rw [h.rows, Rows.cell, Tablet.lookup_of_findRow hf]
  rfl

theorem run_cput {s : State} {t : Tablet} (h : Quiet s t) (hs : t.stream = .good)
    {row col v1 : Field} {cols : Cols} (hf : t.findRow row = some cols)
    (hv : cols.lookup col = some v1) (v2 : Field) :
    ∃ s', run s [.cputLock row col v1 v2, .lockedLog, .lockedApply] = some s'
      ∧ Quiet s' (t.cput row col v1 v2 .ok).2 := by
  refine ⟨{ s with rows := s.rows.apply (.put row col v2), log := s.log ++ [.put row col v2] },
    ?_, ?_⟩
  · simp [run, step, h.idle, h.cell hf, hv]
  · rw [Tablet.cput_ok hs hf hv]
    exact h.logged _ _

theorem run_del {s : State} {t : Tablet} (h : Quiet s t) (hs : t.stream = .good)
    {row col : Field} {cols : Cols} (hf : t.findRow row = some cols)
    (hv : cols.lookup col ≠ none) :
    ∃ s', run s [.delLock row col, .lockedLog, .lockedApply] = some s'
      ∧ Quiet s' (t.del row col .ok).2 := by
  refine ⟨{ s with rows := s.rows.apply (.del row col), log := s.log ++ [.del row col] }, ?_, ?_⟩
  · simp [run, step, h.idle, h.cell hf, hv]
  · rw [Tablet.del_ok hs hf hv]
    exact h.logged _ _

/-- A snapshot that nobody disturbs copies the map, row by row. -/
theorem run_snapRows (rl : Listing) {s : State} {lsn : Nat} {rows : Rows}
    (hi : s.writer = .idle) (hs : s.snapshots = [⟨rl.map Prod.fst, some lsn, rows⟩])
    (hl : ∀ p ∈ rl, s.rows.lookup p.1 = some (colsOf p.2)) :
    run s (rl.map (fun _ => .snapRow 0)) = some { s with
      snapshots := [⟨[], some lsn, rl.foldl (fun m p => m.insert p.1 (colsOf p.2)) rows⟩] } := by
  induction rl generalizing s rows with
  | nil => rw [List.map_nil, run, List.foldl_nil, ← List.map_nil, ← hs]
  | cons p rl ih =>
      have hstep : step s (.snapRow 0) = some { s with
          snapshots := [⟨rl.map Prod.fst, some lsn, rows.insert p.1 (colsOf p.2)⟩] } := by
        simp [step, hs, hi, Writer.holds, hl p List.mem_cons_self]
      rw [List.map_cons, run, hstep, Option.bind_some]
      exact ih hi rfl (fun q hq => hl q (List.mem_cons_of_mem _ hq))

theorem run_snapshot {s : State} {t : Tablet} (h : Quiet s t) {rl : Listing}
    (hl : Lists rl t.rows) :
    run s (.snapLock (rl.map Prod.fst) :: .snapHeader 0 :: rl.map (fun _ => .snapRow 0))
      = some { s with snapshots := [⟨[], some s.log.length, t.rows⟩] } := by
  have hkeys : (rl.map Prod.fst).toFinset = s.rows.keys := by
    rw [h.rows, ← hl.complete, rowsOf_keys]
  have hlock : step s (.snapLock (rl.map Prod.fst))
      = some { s with snapshots := [⟨rl.map Prod.fst, none, ∅⟩] } := by
    simp only [step, if_pos (And.intro hl.rowKeys hkeys), h.alone, List.nil_append]
  rw [run, hlock, Option.bind_some, run]
  have hrows := run_snapRows rl (s := { s with snapshots := [⟨rl.map Prod.fst, some s.log.length, ∅⟩] })
    h.idle rfl (fun p hp => by rw [show s.rows = t.rows from h.rows]; exact hl.lookup hp)
  rw [show rl.foldl (fun m p => m.insert p.1 (colsOf p.2)) ∅ = t.rows from hl.complete] at hrows
  exact hrows

end Concurrent

end NCloud
