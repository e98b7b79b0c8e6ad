import NCloud.Lib.Intervals
import NCloud.Coordinator.Tables

/-!
# Ranges of rows

Which tablet a row belongs to is decided in four places: `find_tablet`, `handle_lookup` and
`handle_read_lookup` of the coordinator scan `tablets_`, and `find_hosted_for_row` of a
storage node scans `hosted_`. Here the two tests they use are compared with each other and
with half-open intervals of rows.
-/

namespace NCloud

open Wire Process Intervals

/-! ## The storage node's side -/

namespace Storage

/-- What `HostedTabletConfig` says of the rows. -/
structure HostedTabletConfig where
  name : Bytes
  rowStart : Bytes
  rowEnd : Bytes
  deriving DecidableEq

/-- `row_in_range`. -/
def rowInRange (row start finish : Bytes) : Bool :=
  if start ≠ [] ∧ row < start then false
  else if finish ≠ [] ∧ finish ≤ row then false
  else true

/-- `find_hosted_for_row`. -/
def findHostedForRow (row : Bytes) : List HostedTabletConfig → Option HostedTabletConfig
  | [] => none
  | hosted :: rest =>
      if rowInRange row hosted.rowStart hosted.rowEnd then some hosted else findHostedForRow row rest

end Storage

/-! ## The coordinator's side -/

namespace Coordinator

open Storage

/-- `find_tablet`. -/
def findTablet (row : Bytes) : List TabletGroup → Option TabletGroup
  | [] => none
  | tg :: rest =>
      if (tg.rowStart = [] ∨ tg.rowStart ≤ row) ∧ (tg.rowEnd = [] ∨ row < tg.rowEnd) then some tg
      else findTablet row rest

/-- How a lookup goes on when its scan has ended. -/
def lookupIn : Option TabletGroup → CoordProg LookupReply
  | none => pure (.error "no tablet for row")
  | some tg => do
      let nodes ← perform (S := sig) .readNodes
      match tg.nodeIds.head?.bind (findAlive nodes) with
      | none => return .error "primary unavailable"
      | some primary =>
          match ← refreshAndCache primary with
          | none => return .error "primary unavailable"
          | some primary =>
              let nodes ← perform (S := sig) .readNodes
              retryStale tg primary (tabletMaxKnownLsn nodes tg)

namespace TabletGroup

/-- The range as an interval. -/
def interval (tg : TabletGroup) : HalfOpen Bytes where
  lo := tg.rowStart
  hi := if tg.rowEnd = [] then none else some tg.rowEnd

/-- The entry of the storage nodes' configuration that a line of the topology becomes. -/
def hosted (tg : TabletGroup) : HostedTabletConfig := ⟨tg.name, tg.rowStart, tg.rowEnd⟩

theorem below_end_iff (tg : TabletGroup) (row : Bytes) :
    Below row tg.interval.hi ↔ tg.rowEnd = [] ∨ row < tg.rowEnd := by
  unfold interval
  by_cases hend : tg.rowEnd = []
  · rw [if_pos hend]
    exact ⟨fun _ => .inl hend, fun _ => trivial⟩
  · rw [if_neg hend]
    exact ⟨.inr, fun h => h.resolve_left hend⟩

/-- An empty start is the least row. -/
theorem after_start_iff (tg : TabletGroup) (row : Bytes) :
    (tg.rowStart = [] ∨ tg.rowStart ≤ row) ↔ tg.rowStart ≤ row := by
  constructor
  · rintro (hnil | hle)
    · rw [hnil]
      exact List.nil_le row
    · exact hle
  · exact .inr

theorem has_interval_iff (tg : TabletGroup) (row : Bytes) :
    tg.interval.Has row ↔ (tg.rowStart = [] ∨ tg.rowStart ≤ row) ∧ (tg.rowEnd = [] ∨ row < tg.rowEnd) := by
  rw [after_start_iff, ← below_end_iff]
  rfl

theorem covers_eq (tg : TabletGroup) (row : Bytes) : tg.covers row = decide (tg.interval.Has row) := by
  rw [covers, ← Bool.decide_or, ← Bool.decide_or, ← Bool.decide_and, decide_eq_decide]
  exact (has_interval_iff tg row).symm

theorem covers_iff (tg : TabletGroup) {row : Bytes} :
    tg.covers row = true ↔ (tg.rowStart = [] ∨ tg.rowStart ≤ row) ∧ (tg.rowEnd = [] ∨ row < tg.rowEnd) := by
  rw [covers_eq, decide_eq_true_eq]
  exact has_interval_iff tg row

/-- **The two sides test the same.** -/
theorem rowInRange_eq (tg : TabletGroup) (row : Bytes) :
    rowInRange row tg.rowStart tg.rowEnd = tg.covers row := by
  rw [covers_eq, rowInRange]
  by_cases hstart : tg.rowStart ≠ [] ∧ row < tg.rowStart
  · rw [if_pos hstart, eq_comm, decide_eq_false_iff_not]
    exact fun hhas => Std.not_lt_of_ge hhas.1 hstart.2
  · have hafter : tg.rowStart = [] ∨ tg.rowStart ≤ row := by
      by_cases hnil : tg.rowStart = []
      · exact .inl hnil
      · exact .inr (List.not_lt.mp fun hlt => hstart ⟨hnil, hlt⟩)
    rw [if_neg hstart]
    by_cases hend : tg.rowEnd ≠ [] ∧ tg.rowEnd ≤ row
    · rw [if_pos hend, eq_comm, decide_eq_false_iff_not, has_interval_iff]
      rintro ⟨-, hnil | hlt⟩
      · exact hend.1 hnil
      · exact Std.not_lt_of_ge hend.2 hlt
    · rw [if_neg hend, eq_comm, decide_eq_true_eq, has_interval_iff]
      refine ⟨hafter, ?_⟩
      by_cases hnil : tg.rowEnd = []
      · exact .inl hnil
      · exact .inr (List.not_le.mp fun hle => hend ⟨hnil, hle⟩)

end TabletGroup

/-! ## The scans -/

variable {row : Bytes} {ι : Type}

theorem findTablet_eq (row : Bytes) (tablets : List TabletGroup) :
    findTablet row tablets = tablets.find? (fun tg => tg.covers row) := by
  induction tablets with
  | nil => rfl
  | cons tg rest ih =>
      rw [findTablet, ih]
      by_cases hcovers : tg.covers row = true
      · rw [if_pos (tg.covers_iff.mp hcovers),
          List.find?_cons_of_pos (p := fun tg : TabletGroup => tg.covers row) hcovers]
      · rw [if_neg fun htest => hcovers (tg.covers_iff.mpr htest),
          List.find?_cons_of_neg (p := fun tg : TabletGroup => tg.covers row) hcovers]

/-- The entry both sides pick. -/
theorem findHostedForRow_eq (row : Bytes) (entries : List ι) (group : ι → TabletGroup) :
    findHostedForRow row (entries.map fun e => (group e).hosted) =
      (entries.find? fun e => (group e).covers row).map fun e => (group e).hosted := by
  induction entries with
  | nil => rfl
  | cons e rest ih =>
      rw [List.map_cons, findHostedForRow, ih]
      have htest : rowInRange row (group e).hosted.rowStart (group e).hosted.rowEnd = (group e).covers row :=
        (group e).rowInRange_eq row
      rw [htest]
      by_cases hcovers : (group e).covers row = true
      · rw [if_pos hcovers, List.find?_cons_of_pos (p := fun e => (group e).covers row) hcovers]
        rfl
      · rw [if_neg hcovers, List.find?_cons_of_neg (p := fun e => (group e).covers row) hcovers]

theorem findTablet_map (row : Bytes) (entries : List ι) (group : ι → TabletGroup) :
    findTablet row (entries.map group) = (entries.find? fun e => (group e).covers row).map group := by
  rw [findTablet_eq, List.find?_map]
  rfl

theorem lookupPrimary_eq (row : Bytes) :
    lookupPrimary row = perform (S := sig) .readTablets >>= fun tablets => lookupIn (findTablet row tablets) := by
  rw [lookupPrimary]
  refine congrArg (perform (S := sig) .readTablets >>= ·) (funext fun tablets => ?_)
  refine Eq.trans ?_ (congrArg lookupIn (findTablet_eq row tablets).symm)
  cases List.find? (fun tg => tg.covers row) tablets with
  | none => rfl
  | some tg => rfl

/-! ## Contiguous ranges -/

/-- Each range ends where the next one starts, its bounds increase, and only the first start
and the last end may be missing. -/
def Contiguous (tablets : List TabletGroup) : Prop :=
  tablets.IsChain (fun tg next => tg.rowEnd ≠ [] ∧ tg.rowEnd = next.rowStart) ∧
    ∀ tg ∈ tablets, tg.rowEnd = [] ∨ tg.rowStart < tg.rowEnd

instance (tablets : List TabletGroup) : Decidable (Contiguous tablets) :=
  inferInstanceAs (Decidable (_ ∧ _))

/-- The end of the last range. -/
def lastEnd : TabletGroup → List TabletGroup → Bytes
  | first, [] => first.rowEnd
  | _, next :: rest => lastEnd next rest

theorem adjoining_of_contiguous : ∀ (first : TabletGroup) (rest : List TabletGroup),
    Contiguous (first :: rest) → ∃ hi, Adjoining first.rowStart ((first :: rest).map TabletGroup.interval) hi ∧
      ∀ row, Below row hi ↔ lastEnd first rest = [] ∨ row < lastEnd first rest := by
  intro first rest
  induction rest generalizing first with
  | nil =>
      intro h
      refine ⟨first.interval.hi, .last ?_, fun row => first.below_end_iff row⟩
      exact (first.below_end_iff _).mpr (h.2 first List.mem_cons_self)
  | cons next rest ih =>
      rintro ⟨hchain, hbounds⟩
      obtain ⟨⟨hend, hnext⟩, hchain⟩ := List.isChain_cons_cons.mp hchain
      obtain ⟨hi, hadj, hlast⟩ := ih next ⟨hchain, fun tg h => hbounds tg (List.mem_cons_of_mem _ h)⟩
      have hlt : first.rowStart < first.rowEnd := (hbounds first List.mem_cons_self).resolve_left hend
      refine ⟨hi, ?_, hlast⟩
      have hfirst : first.interval = ⟨first.rowStart, some first.rowEnd⟩ := by
        rw [TabletGroup.interval, if_neg hend]
      rw [List.map_cons, hfirst]
      refine .cons hlt ?_
      rw [hnext]
      exact hadj

theorem countP_covers (row : Bytes) (tablets : List TabletGroup) :
    tablets.countP (fun tg => tg.covers row) = hits row (tablets.map TabletGroup.interval) := by
  rw [hits, List.countP_map]
  exact List.countP_congr fun tg _ => by rw [tg.covers_eq]; rfl

/-- **Ranges that are contiguous share out the rows, and every list of ranges is scanned alike
on both sides**: the coordinator's `find_tablet` and its two lookups, and the storage node
that hosts the same tablets, all come to the same entry or to none. -/
theorem routing_partition :
    (∀ (first : TabletGroup) (rest : List TabletGroup) (row : Bytes), Contiguous (first :: rest) →
      first.rowStart ≤ row → lastEnd first rest = [] ∨ row < lastEnd first rest →
      (first :: rest).countP (fun tg => rowInRange row tg.rowStart tg.rowEnd) = 1) ∧
    (∀ (ι : Type) (entries : List ι) (group : ι → TabletGroup) (row : Bytes), ∃ picked : Option ι,
      findTablet row (entries.map group) = picked.map group ∧
      findHostedForRow row (entries.map fun e => (group e).hosted) = picked.map (fun e => (group e).hosted) ∧
      picked = entries.find? (fun e => rowInRange row (group e).rowStart (group e).rowEnd)) ∧
    ∀ row : Bytes,
      handleLookup row = (perform (S := sig) .readTablets >>= fun tablets => lookupIn (findTablet row tablets)) ∧
      handleReadLookup row = (perform (S := sig) .readTablets >>= fun tablets => lookupIn (findTablet row tablets)) := by
  refine ⟨?_, ?_, fun row => ⟨lookupPrimary_eq row, lookupPrimary_eq row⟩⟩
  · intro first rest row h hstart hend
    obtain ⟨hi, hadj, hlast⟩ := adjoining_of_contiguous first rest h
    simp only [TabletGroup.rowInRange_eq]
    rw [countP_covers]
    exact hadj.hits_eq_one hstart ((hlast row).mpr hend)
  · intro ι entries group row
    refine ⟨entries.find? fun e => (group e).covers row, findTablet_map row entries group,
      findHostedForRow_eq row entries group, ?_⟩
    simp only [TabletGroup.rowInRange_eq]

/-- Two tablets that meet at `g`. -/
def twoTablets : List TabletGroup := [⟨[97], [], [103], []⟩, ⟨[98], [103], [], []⟩]

theorem routing_partition_twoTablets :
    twoTablets.countP (fun tg => rowInRange [103, 0] tg.rowStart tg.rowEnd) = 1 :=
  routing_partition.1 ⟨[97], [], [103], []⟩ [⟨[98], [103], [], []⟩] [103, 0] (by decide) (by decide) (by decide)

end Coordinator

end NCloud
