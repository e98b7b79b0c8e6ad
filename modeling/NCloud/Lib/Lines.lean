import NCloud.Lib.Stream

/-!
# Ways to tell lines

Some readers end a line at a carriage return and a line feed only, some at any line feed, and
some at either byte. What a text is to all of them is said here once: `LineEnds` is a way to
tell lines, and a text that is one line stays so when plain text is put around it.
-/

namespace Wire

/-- A way to tell lines. The last of the lines is what follows the last end. -/
structure LineEnds where
  lines : Bytes → List Bytes
  /-- What comes behind a line end does not depend on what comes before it. -/
  lines_append (p rest : Bytes) : ∃ front, lines (p ++ (crlf ++ rest)) = front ++ lines rest
  lines_cons {p : Bytes} (rest : Bytes) : lines p = [p] → p.getLast? ≠ some cr →
    lines (p ++ (crlf ++ rest)) = p :: lines rest
  lines_of_mem {s l : Bytes} : l ∈ lines s → lines l = [l]
  lines_plain {s : Bytes} : cr ∉ s → lf ∉ s → lines s = [s]
  lines_infix {s t : Bytes} : lines s = [s] → t <:+: s → lines t = [t]
  lines_join {a b : Bytes} : lines a = [a] → lines b = [b] → a.getLast? ≠ some cr ∨ b.head? ≠ some lf →
    lines (a ++ b) = [a ++ b]

namespace LineEnds

variable (r : LineEnds)

/-- A text without a line end in it. -/
def OneLine (s : Bytes) : Prop := r.lines s = [s]

instance (s : Bytes) : Decidable (r.OneLine s) := inferInstanceAs (Decidable (_ = _))

/-- A text that a line end can be put behind. -/
structure Closed (p : Bytes) : Prop where
  oneLine : r.OneLine p
  last : p.getLast? ≠ some cr

variable {r}

theorem closed_of_plain {s : Bytes} (hcr : cr ∉ s) (hlf : lf ∉ s) : r.Closed s :=
  ⟨r.lines_plain hcr hlf, fun hlast => hcr (List.mem_of_getLast? hlast)⟩

/-- Plain text around a text. -/
theorem oneLine_wrap {a s b : Bytes} (ha : cr ∉ a ∧ lf ∉ a) (hb : cr ∉ b ∧ lf ∉ b) (hs : r.OneLine s) :
    r.OneLine (a ++ s ++ b) := by
  have hfront : r.lines (a ++ s) = [a ++ s] :=
    r.lines_join (r.lines_plain ha.1 ha.2) hs (.inl fun hlast => ha.1 (List.mem_of_getLast? hlast))
  exact r.lines_join hfront (r.lines_plain hb.1 hb.2) (.inr fun hhead => hb.2 (List.mem_of_head? hhead))

theorem oneLine_of_wrap {a s b : Bytes} (h : r.OneLine (a ++ s ++ b)) : r.OneLine s :=
  r.lines_infix h ⟨a, b, rfl⟩

theorem closed_wrap {a s b : Bytes} (ha : cr ∉ a ∧ lf ∉ a) (hb : cr ∉ b ∧ lf ∉ b) (hne : b ≠ [])
    (hs : r.OneLine s) : r.Closed (a ++ s ++ b) := by
  refine ⟨oneLine_wrap ha hb hs, fun hlast => ?_⟩
  rw [List.getLast?_append_of_ne_nil _ hne] at hlast
  exact hb.1 (List.mem_of_getLast? hlast)

/-- **What is written line by line is read line by line.** -/
theorem lines_flatMap {ps : List Bytes} (h : ∀ p ∈ ps, r.Closed p) (rest : Bytes) :
    r.lines (ps.flatMap (fun p => p ++ crlf) ++ rest) = ps ++ r.lines rest := by
  induction ps with
  | nil => rfl
  | cons p ps ih =>
      rw [List.forall_mem_cons] at h
      rw [List.flatMap_cons, List.append_assoc, List.append_assoc, r.lines_cons _ h.1.oneLine h.1.last, ih h.2,
        List.cons_append]

/-- Wherever it stands in the text. -/
theorem infix_lines_flatMap {qs ps : List Bytes} (h : ∀ p ∈ ps, r.Closed p) (hqs : qs ≠ []) (rest : Bytes) :
    ps <:+: r.lines (qs.flatMap (fun p => p ++ crlf) ++ (ps.flatMap (fun p => p ++ crlf) ++ rest)) := by
  obtain ⟨qs, q, rfl⟩ := List.eq_nil_or_concat' qs |>.resolve_left hqs
  rw [List.flatMap_append, List.flatMap_singleton, List.append_assoc, List.append_assoc, ← List.append_assoc]
  obtain ⟨front, hfront⟩ :=
    r.lines_append (qs.flatMap (fun p => p ++ crlf) ++ q) (ps.flatMap (fun p => p ++ crlf) ++ rest)
  rw [hfront, lines_flatMap h]
  exact ⟨front, r.lines rest, by rw [List.append_assoc]⟩

end LineEnds

/-! ## Both bytes -/

/-- A line is a text in which the two do not follow each other. -/
theorem isLine_iff {s : Bytes} : IsLine s ↔ ¬ crlf <:+: s := by
  constructor
  · rintro h ⟨a, b, rfl⟩
    rw [IsLine, List.append_assoc, splitCrlf_append] at h
    have hlen := congrArg List.length h
    have ha := List.length_pos_iff.mpr (splitCrlfFrom_ne_nil [] a)
    have hb := List.length_pos_iff.mpr (splitCrlfFrom_ne_nil [] b)
    rw [List.length_append, List.length_singleton, splitCrlf, splitCrlf] at hlen
    omega
  · have hfrom : ∀ line, ¬ crlf <:+: line ++ s → splitCrlfFrom line s = [line ++ s] := by
      induction s with
      | nil =>
          intro line _
          rw [splitCrlfFrom, List.append_nil]
      | cons b s ih =>
          intro line hno
          rw [splitCrlfFrom]
          split
          · rename_i hend
            obtain ⟨rfl, hlast⟩ := hend
            obtain ⟨front, rfl⟩ := List.getLast?_eq_some_iff.mp hlast
            exact absurd ⟨front, s, by simp [crlf]⟩ hno
          · have hassoc : line ++ b :: s = line ++ [b] ++ s := by
              rw [List.append_assoc, List.singleton_append]
            rw [hassoc] at hno ⊢
            exact ih _ hno
    intro hno
    exact hfrom [] hno

/-- They can meet where two texts are put together. -/
theorem crlf_infix_append {a b : Bytes} (h : crlf <:+: a ++ b) :
    crlf <:+: a ∨ crlf <:+: b ∨ a.getLast? = some cr ∧ b.head? = some lf := by
  induction a with
  | nil => exact .inr (.inl h)
  | cons c a ih =>
      rw [List.cons_append, List.infix_cons_iff] at h
      rcases h with hpre | h
      · -- it begins with the first byte, so it ends with the second, wherever that is
        obtain ⟨rfl, hnext⟩ := List.cons_prefix_cons.mp hpre
        cases a with
        | nil =>
            obtain ⟨t, rfl⟩ := hnext
            exact .inr (.inr ⟨rfl, rfl⟩)
        | cons d a =>
            obtain ⟨rfl, -⟩ := List.cons_prefix_cons.mp hnext
            exact .inl ⟨[], a, rfl⟩
      · rcases ih h with h | h | ⟨hlast, hhead⟩
        · exact .inl (List.infix_cons h)
        · exact .inr (.inl h)
        · refine .inr (.inr ⟨?_, hhead⟩)
          rw [List.getLast?_cons, hlast]
          rfl

/-- A line ends at a carriage return and a line feed. -/
def crlfEnds : LineEnds where
  lines := splitCrlf
  lines_append p rest := ⟨splitCrlf p, splitCrlf_append p rest⟩
  lines_cons rest hp _ := by rw [splitCrlf_append, hp, List.singleton_append]
  lines_of_mem h := isLine_of_mem_splitCrlf h
  lines_plain _ hlf := isLine_of_notMem hlf
  lines_infix hs ht := isLine_iff.mpr fun hin => isLine_iff.mp hs (hin.trans ht)
  lines_join ha hb hmeet := isLine_iff.mpr fun hin => by
    rcases crlf_infix_append hin with hin | hin | ⟨hlast, hhead⟩
    · exact isLine_iff.mp ha hin
    · exact isLine_iff.mp hb hin
    · rcases hmeet with hmeet | hmeet
      · exact hmeet hlast
      · exact hmeet hhead

/-! ## The line feed -/

/-- The lines of a text of which `line` has been read; a carriage return in front of the end
belongs to the end. -/
def splitLfFrom (line : Bytes) : Bytes → List Bytes
  | [] => [line]
  | b :: rest => if b = lf then dropCr line :: splitLfFrom [] rest else splitLfFrom (line ++ [b]) rest

/-- The lines of a text. -/
def splitLf (s : Bytes) : List Bytes := splitLfFrom [] s

theorem splitLfFrom_of_notMem {p : Bytes} (hlf : lf ∉ p) (line rest : Bytes) :
    splitLfFrom line (p ++ rest) = splitLfFrom (line ++ p) rest := by
  induction p generalizing line with
  | nil => rw [List.nil_append, List.append_nil]
  | cons b p ih =>
      rw [List.mem_cons, not_or] at hlf
      rw [List.cons_append, splitLfFrom, if_neg (Ne.symm hlf.1), ih hlf.2, List.append_assoc, List.singleton_append]

theorem splitLfFrom_append (line p rest : Bytes) :
    ∃ front, splitLfFrom line (p ++ (lf :: rest)) = front ++ splitLf rest := by
  induction p generalizing line with
  | nil => exact ⟨[dropCr line], by rw [List.nil_append, splitLfFrom, if_pos rfl]; rfl⟩
  | cons b p ih =>
      rw [List.cons_append, splitLfFrom]
      split
      · obtain ⟨front, hfront⟩ := ih []
        exact ⟨dropCr line :: front, by rw [hfront, List.cons_append]⟩
      · exact ih _

theorem mem_of_mem_splitLfFrom {line s l : Bytes} (h : l ∈ splitLfFrom line s) {b : UInt8} (hb : b ∈ l) :
    b ∈ line ++ s := by
  have hdrop : ∀ {line}, b ∈ dropCr line → b ∈ line := by
    intro line hmem
    rw [dropCr] at hmem
    split at hmem
    · exact List.dropLast_subset _ hmem
    · exact hmem
  induction s generalizing line with
  | nil =>
      obtain rfl := List.mem_singleton.mp h
      exact List.mem_append_left _ hb
  | cons c s ih =>
      rw [splitLfFrom] at h
      split at h
      · rcases List.mem_cons.mp h with rfl | h
        · exact List.mem_append_left _ (hdrop hb)
        · exact List.mem_append_right _ (List.mem_cons_of_mem _ (ih h))
      · have hmem := ih h
        rwa [List.append_assoc, List.singleton_append] at hmem

theorem lf_notMem_of_mem_splitLfFrom {line s l : Bytes} (hline : lf ∉ line) (h : l ∈ splitLfFrom line s) : lf ∉ l := by
  induction s generalizing line with
  | nil =>
      obtain rfl := List.mem_singleton.mp h
      exact hline
  | cons c s ih =>
      rw [splitLfFrom] at h
      split at h
      · rcases List.mem_cons.mp h with rfl | h
        · rw [dropCr]
          split
          · exact fun hmem => hline ((List.dropLast_subset _ hmem))
          · exact hline
        · exact ih List.not_mem_nil h
      · rename_i hne
        refine ih ?_ h
        rw [List.mem_append, List.mem_singleton, not_or]
        exact ⟨hline, Ne.symm hne⟩

theorem splitLf_eq_iff {s : Bytes} : splitLf s = [s] ↔ lf ∉ s := by
  constructor
  · intro h
    have hmem : s ∈ splitLfFrom [] s := by
      rw [← splitLf, h]
      exact List.mem_singleton_self s
    exact lf_notMem_of_mem_splitLfFrom List.not_mem_nil hmem
  · intro h
    have hall := splitLfFrom_of_notMem h [] []
    rw [List.append_nil, List.nil_append] at hall
    exact hall

/-- A line ends at a line feed. -/
def lfEnds : LineEnds where
  lines := splitLf
  lines_append p rest := by
    obtain ⟨front, hfront⟩ := splitLfFrom_append [] (p ++ [cr]) rest
    exact ⟨front, by rw [← hfront, List.append_assoc]; rfl⟩
  lines_cons {p} rest hp hlast := by
    have hlf : lf ∉ p ++ [cr] := by
      rw [List.mem_append, List.mem_singleton, not_or]
      exact ⟨splitLf_eq_iff.mp hp, by decide⟩
    have hsplit := splitLfFrom_of_notMem hlf [] (lf :: rest)
    rw [List.append_assoc, splitLfFrom, if_pos rfl, List.nil_append, dropCr_append] at hsplit
    exact hsplit
  lines_of_mem h := splitLf_eq_iff.mpr (lf_notMem_of_mem_splitLfFrom List.not_mem_nil h)
  lines_plain _ hlf := splitLf_eq_iff.mpr hlf
  lines_infix hs ht := splitLf_eq_iff.mpr fun hmem => splitLf_eq_iff.mp hs (ht.subset hmem)
  lines_join ha hb _ := splitLf_eq_iff.mpr fun hmem => by
    rcases List.mem_append.mp hmem with hmem | hmem
    · exact splitLf_eq_iff.mp ha hmem
    · exact splitLf_eq_iff.mp hb hmem

/-! ## Either byte -/

/-- One byte for every line end. -/
def unifyBreaks : Bytes → Bytes
  | [] => []
  | [b] => [if b = cr then lf else b]
  | b :: c :: rest =>
      if b = cr then (if c = lf then lf :: unifyBreaks rest else lf :: unifyBreaks (c :: rest))
      else b :: unifyBreaks (c :: rest)

theorem unifyBreaks_append (p rest : Bytes) :
    unifyBreaks (p ++ (crlf ++ rest)) = unifyBreaks p ++ lf :: unifyBreaks rest := by
  induction p using unifyBreaks.induct with
  | case1 =>
      have hend : unifyBreaks (cr :: lf :: rest) = lf :: unifyBreaks rest := by
        rw [unifyBreaks, if_pos rfl, if_pos rfl]
      exact hend
  | case2 b =>
      -- a carriage return here stays alone: what follows begins with another
      have hend : unifyBreaks (cr :: lf :: rest) = lf :: unifyBreaks rest := by
        rw [unifyBreaks, if_pos rfl, if_pos rfl]
      have hcr : ¬ cr = lf := by decide
      have hone : unifyBreaks (b :: cr :: lf :: rest) = [if b = cr then lf else b] ++ lf :: unifyBreaks rest := by
        rw [unifyBreaks, if_neg hcr, hend]
        split
        · rfl
        · rfl
      exact hone
  | case3 rest' ih =>
      rw [List.cons_append, List.cons_append, unifyBreaks, if_pos rfl, if_pos rfl, ih, unifyBreaks, if_pos rfl, if_pos rfl,
        List.cons_append]
  | case4 c rest' hne ih =>
      rw [List.cons_append] at ih
      rw [List.cons_append, List.cons_append, unifyBreaks, if_pos rfl, if_neg hne, ih, unifyBreaks, if_pos rfl,
        if_neg hne, List.cons_append]
  | case5 b c rest' hne ih =>
      rw [List.cons_append] at ih
      rw [List.cons_append, List.cons_append, unifyBreaks, if_neg hne, ih, unifyBreaks, if_neg hne, List.cons_append]

theorem cr_notMem_unifyBreaks (s : Bytes) : cr ∉ unifyBreaks s := by
  have hlf : ¬ cr = lf := by decide
  induction s using unifyBreaks.induct with
  | case1 => exact List.not_mem_nil
  | case2 b =>
      rw [unifyBreaks, List.mem_singleton]
      split
      · exact hlf
      · exact fun h => absurd h.symm ‹_›
  | case3 rest ih =>
      rw [unifyBreaks, if_pos rfl, if_pos rfl, List.mem_cons, not_or]
      exact ⟨hlf, ih⟩
  | case4 c rest hne ih =>
      rw [unifyBreaks, if_pos rfl, if_neg hne, List.mem_cons, not_or]
      exact ⟨hlf, ih⟩
  | case5 b c rest hne ih =>
      rw [unifyBreaks, if_neg hne, List.mem_cons, not_or]
      exact ⟨Ne.symm hne, ih⟩

theorem unifyBreaks_of_notMem {s : Bytes} (h : cr ∉ s) : unifyBreaks s = s := by
  induction s using unifyBreaks.induct with
  | case1 => rfl
  | case2 b =>
      rw [unifyBreaks, if_neg]
      rintro rfl
      exact h List.mem_cons_self
  | case3 rest ih => exact absurd List.mem_cons_self h
  | case4 c rest hne ih => exact absurd List.mem_cons_self h
  | case5 b c rest hne ih => rw [unifyBreaks, if_neg hne, ih (fun hmem => h (List.mem_cons_of_mem _ hmem))]

/-- The lines, wherever a break is. -/
def splitBreaks (s : Bytes) : List Bytes := splitLf (unifyBreaks s)

theorem notMem_of_mem_splitBreaks {s l : Bytes} (h : l ∈ splitBreaks s) : cr ∉ l ∧ lf ∉ l := by
  refine ⟨fun hmem => ?_, lf_notMem_of_mem_splitLfFrom List.not_mem_nil h⟩
  have hall := mem_of_mem_splitLfFrom h hmem
  exact cr_notMem_unifyBreaks s hall

theorem splitBreaks_eq_iff {s : Bytes} : splitBreaks s = [s] ↔ cr ∉ s ∧ lf ∉ s := by
  constructor
  · intro h
    have hmem : s ∈ splitBreaks s := by
      rw [h]
      exact List.mem_singleton_self s
    exact notMem_of_mem_splitBreaks hmem
  · rintro ⟨hcr, hlf⟩
    rw [splitBreaks, unifyBreaks_of_notMem hcr]
    exact splitLf_eq_iff.mpr hlf

/-- A line ends at a carriage return, at a line feed, and at the two together. -/
def breakEnds : LineEnds where
  lines := splitBreaks
  lines_append p rest := by
    obtain ⟨front, hfront⟩ := splitLfFrom_append [] (unifyBreaks p) (unifyBreaks rest)
    exact ⟨front, by rw [splitBreaks, unifyBreaks_append]; exact hfront⟩
  lines_cons {p} rest hp _ := by
    obtain ⟨hcr, hlf⟩ := splitBreaks_eq_iff.mp hp
    have hsplit := splitLfFrom_of_notMem hlf [] (lf :: unifyBreaks rest)
    rw [splitLfFrom, if_pos rfl, List.nil_append, dropCr_of_notMem hcr] at hsplit
    rw [splitBreaks, unifyBreaks_append, unifyBreaks_of_notMem hcr]
    exact hsplit
  lines_of_mem h := splitBreaks_eq_iff.mpr (notMem_of_mem_splitBreaks h)
  lines_plain hcr hlf := splitBreaks_eq_iff.mpr ⟨hcr, hlf⟩
  lines_infix hs ht := splitBreaks_eq_iff.mpr ⟨fun hmem => (splitBreaks_eq_iff.mp hs).1 (ht.subset hmem),
    fun hmem => (splitBreaks_eq_iff.mp hs).2 (ht.subset hmem)⟩
  lines_join {a b} ha hb _ := by
    obtain ⟨hcra, hlfa⟩ := splitBreaks_eq_iff.mp ha
    obtain ⟨hcrb, hlfb⟩ := splitBreaks_eq_iff.mp hb
    refine splitBreaks_eq_iff.mpr ⟨?_, ?_⟩
    · rw [List.mem_append, not_or]
      exact ⟨hcra, hcrb⟩
    · rw [List.mem_append, not_or]
      exact ⟨hlfa, hlfb⟩

end Wire
