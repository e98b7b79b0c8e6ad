import NCloud.Lib.Csv
import NCloud.Lib.Stream
import NCloud.Protocol.Forms
import NCloud.Coordinator.Tables

/-!
# The answer to a ping

A storage node says what it has in one line, and `parse_ping_metadata` looks for what it
needs. It takes the first place where the name of a field stands, so what tablets are called
matters only after their own field has begun.
-/

namespace NCloud.Coordinator.Ping

open Wire Protocol.Forms

def comma : UInt8 := 44

def colon : UInt8 := 58

/-! ## The storage node -/

/-- `max_lsn`. -/
def maxLsn (hosted : List (TabletName × Nat)) : Nat := hosted.foldl (fun m h => max m h.2) 0

/-- One turn of the loop over the tablets. -/
def appendTabletLsn (out : Bytes) (h : TabletName × Nat) : Bytes :=
  (if out = [] then out else out ++ [comma]) ++ (h.1 ++ [colon] ++ Decimal.text h.2)

/-- `tablet_lsns`. -/
def tabletLsnsText (hosted : List (TabletName × Nat)) : Bytes := hosted.foldl appendTabletLsn []

/-- The answer to `PING`, without the end of the line. -/
def pingLine (hosted : List (TabletName × Nat)) (pid : Nat) : Bytes :=
  ascii "+OK LSN=" ++ (Decimal.text (maxLsn hosted) ++ (ascii " PID=" ++ (Decimal.text pid ++
    (ascii " TABLETS=" ++ (Decimal.text hosted.length ++ (ascii " TABLET_LSNS=" ++ tabletLsnsText hosted))))))

/-! ## The coordinator -/

/-- The text before the last `c` and the text after it, as `rfind` finds it. -/
def cutLast (c : UInt8) (s : Bytes) : Option (Bytes × Bytes) :=
  (cut [c] s.reverse).map (fun (after, before) => (before.reverse, after.reverse))

/-- `parsed[name] = lsn`. -/
def setLsn (parsed : List (TabletName × Nat)) (name : TabletName) (lsn : Nat) : List (TabletName × Nat) :=
  parsed.filter (fun p => p.1 ≠ name) ++ [(name, lsn)]

/-- One turn of the loop over the items. What is not a name and a number is skipped. -/
def parseTabletLsn (parsed : List (TabletName × Nat)) (item : Bytes) : List (TabletName × Nat) :=
  match cutLast colon item with
  | none => parsed
  | some (name, num) =>
      match Decimal.stoul num with
      | none => parsed
      | some lsn => setLsn parsed name lsn

/-- `TABLET_LSNS=`, up to the next space. -/
def parseTabletLsns (resp : Bytes) : List (TabletName × Nat) :=
  match behind (ascii "TABLET_LSNS=") resp with
  | none => []
  | some rest => (tokens comma (upTo [space] rest)).foldl parseTabletLsn []

/-- `PID=`; 0 if it is not a number that is positive. -/
def parsePid (resp : Bytes) : Nat :=
  match behind (ascii "PID=") resp with
  | none => 0
  | some rest => ((Decimal.stoi rest).getD 0).toNat

/-- What `parse_ping_metadata` finds in the text. -/
def pingInfo (resp : Bytes) : PingInfo where
  lsn := (behind (ascii "LSN=") resp).bind Decimal.stoul
  tabletLsns := parseTabletLsns resp
  pid := parsePid resp

/-! ## Finding the fields -/

/-- Digits are passed over. -/
theorem behind_text {c : UInt8} (hc : ¬ Decimal.IsDigit c) (pat : Bytes) (n : Nat) (s : Bytes) :
    behind (c :: pat) (Decimal.text n ++ s) = behind (c :: pat) s := by
  refine behind_skip s ?_
  rintro x y hxy hy ⟨t, ht⟩
  obtain ⟨b, y, rfl⟩ := List.exists_cons_of_ne_nil hy
  have hmem : b ∈ Decimal.text n := by
    rw [hxy]
    exact List.mem_append_right _ List.mem_cons_self
  have hb : Decimal.IsDigit b := Decimal.isDigit_of_mem_digits hmem
  exact hc ((List.cons.inj ht).1 ▸ hb)

/-- A space ends a number. -/
theorem not_isDigit_of_head {field s : Bytes} {b : UInt8} (hfield : field.head? = some space)
    (h : (field ++ s).head? = some b) : ¬ Decimal.IsDigit b := by
  rw [List.head?_append, hfield] at h
  obtain rfl : space = b := Option.some.inj h
  decide

section Fields

variable {hosted : List (TabletName × Nat)} {pid : Nat}

theorem lsn_pingLine (h : maxLsn hosted < 2 ^ 64) : (pingInfo (pingLine hosted pid)).lsn = some (maxLsn hosted) := by
  have hfront : ascii "+OK LSN=" = ascii "+OK " ++ ascii "LSN=" := by decide +kernel
  rw [pingInfo, pingLine, hfront, List.append_assoc, behind_skip_tails _ (by decide +kernel),
    behind_prefixed (by decide +kernel)]
  exact Decimal.stoul_text_append h fun b hb => not_isDigit_of_head (by decide +kernel) hb

theorem parsePid_pingLine (h : pid < 2 ^ 31) : parsePid (pingLine hosted pid) = pid := by
  have hpat : ascii "PID=" = 80 :: ascii "ID=" := by decide +kernel
  have hfield : ascii " PID=" = ascii " " ++ ascii "PID=" := by decide +kernel
  have hdigits : ∀ n s, behind (ascii "PID=") (Decimal.text n ++ s) = behind (ascii "PID=") s := by
    intro n s
    rw [hpat]
    exact behind_text (by decide) _ n s
  rw [parsePid, pingLine, behind_skip_tails _ (by decide +kernel), hdigits, hfield, List.append_assoc,
    behind_skip_tails _ (by decide +kernel), behind_prefixed (by decide +kernel)]
  dsimp only
  rw [Decimal.stoi_text_append h fun b hb => not_isDigit_of_head (by decide +kernel) hb]
  rfl

theorem behind_tabletLsns (hosted : List (TabletName × Nat)) (pid : Nat) :
    behind (ascii "TABLET_LSNS=") (pingLine hosted pid) = some (tabletLsnsText hosted) := by
  have hpat : ascii "TABLET_LSNS=" = 84 :: ascii "ABLET_LSNS=" := by decide +kernel
  have hfield : ascii " TABLET_LSNS=" = ascii " " ++ ascii "TABLET_LSNS=" := by decide +kernel
  have hdigits : ∀ n s, behind (ascii "TABLET_LSNS=") (Decimal.text n ++ s) = behind (ascii "TABLET_LSNS=") s := by
    intro n s
    rw [hpat]
    exact behind_text (by decide) _ n s
  rw [pingLine, behind_skip_tails _ (by decide +kernel), hdigits, behind_skip_tails _ (by decide +kernel), hdigits,
    behind_skip_tails _ (by decide +kernel), hdigits, hfield, List.append_assoc, behind_skip_tails _ (by decide +kernel),
    behind_prefixed (by decide +kernel)]

end Fields

/-! ## The list of tablets -/

/-- Names that can stand in the list. -/
structure PlainName (name : TabletName) : Prop where
  comma_notMem : comma ∉ name
  colon_notMem : colon ∉ name
  not_blank : ∀ b ∈ name, ¬ Decimal.IsBlank b

/-- The text for one tablet. -/
def itemText (h : TabletName × Nat) : Bytes := h.1 ++ [colon] ++ Decimal.text h.2

theorem itemText_ne_nil (h : TabletName × Nat) : itemText h ≠ [] := by simp [itemText]

theorem tabletLsnsText_eq (hosted : List (TabletName × Nat)) :
    tabletLsnsText hosted = [comma].intercalate (hosted.map itemText) :=
  Csv.foldl_separated itemText_ne_nil hosted

theorem notMem_itemText {h : TabletName × Nat} (hplain : PlainName h.1) {b : UInt8} (hb : b = comma ∨ b = space) :
    b ∉ itemText h := by
  have hdigits : ¬ Decimal.IsDigit b := by
    rcases hb with rfl | rfl
    · decide
    · decide
  have hcolon : b ≠ colon := by
    rcases hb with rfl | rfl
    · decide
    · decide
  have hname : b ∉ h.1 := by
    rcases hb with rfl | rfl
    · exact hplain.comma_notMem
    · exact fun hmem => hplain.not_blank _ hmem (by decide)
  simp only [itemText, List.mem_append, List.mem_singleton, not_or]
  exact ⟨⟨hname, hcolon⟩, fun hmem => hdigits (Decimal.isDigit_of_mem_digits hmem)⟩

theorem cutLast_append {c : UInt8} {before after : Bytes} (h : c ∉ after) :
    cutLast c (before ++ [c] ++ after) = some (before, after) := by
  have hrev : (before ++ [c] ++ after).reverse = after.reverse ++ c :: before.reverse := by simp
  rw [cutLast, hrev, cut_char _ (by simpa using h)]
  simp

theorem parseTabletLsn_itemText {h : TabletName × Nat} (hlsn : h.2 < 2 ^ 64) (parsed : List (TabletName × Nat)) :
    parseTabletLsn parsed (itemText h) = setLsn parsed h.1 h.2 := by
  have hcolon : ¬ Decimal.IsDigit colon := by decide
  have hdigits : colon ∉ Decimal.text h.2 := fun hmem => hcolon (Decimal.isDigit_of_mem_digits hmem)
  rw [parseTabletLsn, itemText, cutLast_append hdigits]
  dsimp only
  rw [Decimal.stoul_text hlsn]

/-- Different names are kept in their order. -/
theorem foldl_setLsn {parsed hosted : List (TabletName × Nat)} (h : ((parsed ++ hosted).map Prod.fst).Nodup) :
    hosted.foldl (fun parsed h => setLsn parsed h.1 h.2) parsed = parsed ++ hosted := by
  induction hosted generalizing parsed with
  | nil => exact (List.append_nil parsed).symm
  | cons x hosted ih =>
      rw [List.map_append] at h
      have hnew : ∀ p ∈ parsed, p.1 ≠ x.1 := fun p hp =>
        (List.nodup_append.mp h).2.2 _ (List.mem_map_of_mem hp) _ (List.mem_map_of_mem List.mem_cons_self)
      have hset : setLsn parsed x.1 x.2 = parsed ++ [x] := by
        rw [setLsn, List.filter_eq_self.mpr fun p hp => by simpa using hnew p hp]
      rw [List.foldl_cons, hset, ih (by simpa using h), List.append_assoc]
      rfl

theorem parseTabletLsns_pingLine {hosted : List (TabletName × Nat)} (hnames : (hosted.map Prod.fst).Nodup)
    (hplain : ∀ h ∈ hosted, PlainName h.1) (hlsn : ∀ h ∈ hosted, h.2 < 2 ^ 64) (pid : Nat) :
    parseTabletLsns (pingLine hosted pid) = hosted := by
  have hitems : ∀ item ∈ hosted.map itemText, item ≠ [] ∧ comma ∉ item := by
    intro item hitem
    obtain ⟨h, hh, rfl⟩ := List.mem_map.mp hitem
    exact ⟨itemText_ne_nil h, notMem_itemText (hplain h hh) (.inl rfl)⟩
  have hspace : space ∉ tabletLsnsText hosted := by
    rw [tabletLsnsText_eq]
    intro hmem
    rcases Csv.mem_of_mem_join hmem with hcomma | ⟨item, hitem, hmem⟩
    · exact absurd hcomma (by decide)
    · obtain ⟨h, hh, rfl⟩ := List.mem_map.mp hitem
      exact notMem_itemText (hplain h hh) (.inr rfl) hmem
  have hparse : (hosted.map itemText).foldl parseTabletLsn [] =
      hosted.foldl (fun parsed h => setLsn parsed h.1 h.2) [] := by
    rw [List.foldl_map]
    exact List.foldl_ext _ _ _ fun parsed h hh => parseTabletLsn_itemText (hlsn h hh) parsed
  rw [parseTabletLsns, behind_tabletLsns]
  dsimp only
  have hall : hosted.foldl (fun parsed h => setLsn parsed h.1 h.2) [] = [] ++ hosted := foldl_setLsn hnames
  rw [ upTo_of_not_infix (List.cons_ne_nil _ _) (not_infix_of_notMem hspace), tabletLsnsText_eq,
    tokens_intercalate hitems, hparse, hall, List.nil_append]

/-! ## Codec -/

/-- The number in front is the largest. -/
theorem maxLsn_spec (hosted : List (TabletName × Nat)) :
    (∀ h ∈ hosted, h.2 ≤ maxLsn hosted) ∧ (hosted ≠ [] → ∃ h ∈ hosted, h.2 = maxLsn hosted) := by
  have hgo : ∀ (l : List (TabletName × Nat)) (m : Nat),
      m ≤ l.foldl (fun m h => max m h.2) m ∧ (∀ h ∈ l, h.2 ≤ l.foldl (fun m h => max m h.2) m) ∧
        (l.foldl (fun m h => max m h.2) m = m ∨ ∃ h ∈ l, h.2 = l.foldl (fun m h => max m h.2) m) := by
    intro l
    induction l with
    | nil => exact fun m => ⟨Nat.le_refl m, nofun, .inl rfl⟩
    | cons x l ih =>
        intro m
        obtain ⟨hle, hall, hwhich⟩ := ih (max m x.2)
        rw [List.foldl_cons]
        refine ⟨(Nat.le_max_left m x.2).trans hle, ?_, ?_⟩
        · rw [List.forall_mem_cons]
          exact ⟨(Nat.le_max_right m x.2).trans hle, hall⟩
        · rcases hwhich with heq | ⟨h, hh, heq⟩
          · rw [heq]
            rcases Nat.le_total m x.2 with hmx | hmx
            · rw [Nat.max_eq_right hmx]
              exact .inr ⟨x, List.mem_cons_self, rfl⟩
            · rw [Nat.max_eq_left hmx]
              exact .inl rfl
          · exact .inr ⟨h, List.mem_cons_of_mem _ hh, heq⟩
  obtain ⟨-, hall, hwhich⟩ := hgo hosted 0
  refine ⟨hall, fun hne => ?_⟩
  rcases hwhich with heq | hex
  · obtain ⟨x, l, rfl⟩ := List.exists_cons_of_ne_nil hne
    refine ⟨x, List.mem_cons_self, ?_⟩
    have hx := hall x List.mem_cons_self
    rw [heq] at hx
    exact (Nat.le_zero.mp hx).trans heq.symm
  · exact hex

theorem lf_notMem_pingLine {hosted : List (TabletName × Nat)} (hplain : ∀ h ∈ hosted, PlainName h.1) (pid : Nat) :
    lf ∉ pingLine hosted pid := by
  have hdigits : ∀ n, lf ∉ Decimal.text n := fun n hmem =>
    absurd (Decimal.isDigit_of_mem_digits hmem) (by decide)
  have hlist : lf ∉ tabletLsnsText hosted := by
    rw [tabletLsnsText_eq]
    intro hmem
    rcases Csv.mem_of_mem_join hmem with hcomma | ⟨item, hitem, hmem⟩
    · exact absurd hcomma (by decide)
    · obtain ⟨h, hh, rfl⟩ := List.mem_map.mp hitem
      simp only [itemText, List.mem_append, List.mem_singleton] at hmem
      rcases hmem with (hmem | hmem) | hmem
      · exact (hplain h hh).not_blank _ hmem (by decide)
      · exact absurd hmem (by decide)
      · exact hdigits _ hmem
  simp only [pingLine, List.mem_append, not_or]
  exact ⟨by decide +kernel, hdigits _, by decide +kernel, hdigits _, by decide +kernel, hdigits _, by decide +kernel,
    hlist⟩

/--
**What the node says is what the coordinator knows.**

The line is read whole if it is no longer than the coordinator allows, and whatever the
entry held before, it then has the largest LSN, the LSNs of the tablets and the process id
that the node has written, whatever the tablets are called.
-/
theorem parsePingMetadata_pingLine {hosted : List (TabletName × Nat)} {pid : Nat} (hne : hosted ≠ [])
    (hnames : (hosted.map Prod.fst).Nodup) (hplain : ∀ h ∈ hosted, PlainName h.1)
    (hlsn : ∀ h ∈ hosted, h.2 < 2 ^ 64) (hpos : 0 < pid) (hpid : pid < 2 ^ 31) :
    ((pingLine hosted pid).length < 8192 →
        readLine 8192 (pingLine hosted pid ++ crlf) = some (pingLine hosted pid, [])) ∧
      (∀ h ∈ hosted, h.2 ≤ maxLsn hosted) ∧ (∃ h ∈ hosted, h.2 = maxLsn hosted) ∧
      ∀ node : StorageNode, node.parsePingMetadata (pingInfo (pingLine hosted pid)) =
        { node with lsn := maxLsn hosted, tabletLsns := hosted, processId := pid } := by
  obtain ⟨hmax, hlargest⟩ := maxLsn_spec hosted
  obtain ⟨h, hh, heq⟩ := hlargest hne
  have hbound : maxLsn hosted < 2 ^ 64 := heq ▸ hlsn h hh
  refine ⟨fun hlen => ?_, hmax, ⟨h, hh, heq⟩, fun node => ?_⟩
  · have hread := readLine_crlf (lf_notMem_pingLine hplain pid) hlen []
    rwa [List.append_nil] at hread
  · have hinfo : pingInfo (pingLine hosted pid) = ⟨some (maxLsn hosted), hosted, pid⟩ := by
      have hlsns : (behind (ascii "LSN=") (pingLine hosted pid)).bind Decimal.stoul = some (maxLsn hosted) :=
        lsn_pingLine hbound
      rw [pingInfo, hlsns, parseTabletLsns_pingLine hnames hplain hlsn pid, parsePid_pingLine hpid]
    rw [hinfo, StorageNode.parsePingMetadata, if_neg hne, if_pos hpos]
    rfl

/-- Tablets that are called like fields. -/
theorem parsePingMetadata_pingLine_lookalikes :
    StorageNode.parsePingMetadata { id := ascii "kv1", host := "localhost", port := 1, processId := 6 }
        (pingInfo (pingLine [(ascii "LSN=9", 3), (ascii "PID=8", 5)] 7)) =
      { id := ascii "kv1", host := "localhost", port := 1, lsn := 5
        tabletLsns := [(ascii "LSN=9", 3), (ascii "PID=8", 5)], processId := 7 } := by
  have hplain : ∀ h ∈ [(ascii "LSN=9", 3), (ascii "PID=8", 5)], PlainName h.1 := by
    intro h hh
    rcases List.mem_cons.mp hh with rfl | hh
    · exact ⟨by decide +kernel, by decide +kernel, by decide +kernel⟩
    · rw [List.mem_singleton.mp hh]
      exact ⟨by decide +kernel, by decide +kernel, by decide +kernel⟩
  exact (parsePingMetadata_pingLine (List.cons_ne_nil _ _) (by decide +kernel) hplain (by decide +kernel) (by decide)
    (by decide)).2.2.2 _

end NCloud.Coordinator.Ping
