import NCloud.Lib.Reader
import Mathlib.Data.List.Infix

/-!
# Searching for a substring

`cut pat s` is `s.find(pat)` with what the callers make of the position it returns: the
text before the first occurrence and the text after it. The rules say where the first
occurrence in a concatenation is; a text that cannot be the beginning of an occurrence is
skipped.
-/

namespace Wire

variable {α : Type}

/-! ## Where an occurrence can begin -/

/-- An occurrence that begins with a character and has it nowhere else does not begin
inside a text that has no occurrence, however this goes on with another one. -/
theorem not_prefix_of_head {c : α} {pat a rest x y : List α} (hc : c ∉ pat) (h : ¬ (c :: pat) <:+: a)
    (ha : a = x ++ y) (hy : y ≠ []) : ¬ (c :: pat) <+: y ++ ((c :: pat) ++ rest) := by
  rintro ⟨t, ht⟩
  -- either it ends inside the text, or the second one begins inside it
  rcases List.append_eq_append_iff.mp ht with ⟨u, hu, -⟩ | ⟨u, hu, hu'⟩
  · refine h ⟨x, u, ?_⟩
    rw [ha, hu, List.append_assoc]
  · cases u with
    | nil =>
        rw [List.append_nil] at hu
        refine h ⟨x, [], ?_⟩
        rw [List.append_nil, ha, hu]
    | cons d u =>
        obtain ⟨b, y, rfl⟩ := List.exists_cons_of_ne_nil hy
        obtain ⟨-, hpat⟩ := List.cons.inj (hu.trans (List.cons_append ..))
        rw [List.cons_append] at hu'
        obtain ⟨rfl, -⟩ := List.cons.inj hu'
        exact hc (hpat ▸ List.mem_append_right y List.mem_cons_self)

/-- A character that is not in a text does not straddle. -/
theorem not_prefix_of_notMem {c : α} {pat y s : List α} (hc : c ∉ pat) (hlen : y.length < pat.length) :
    ¬ pat <+: y ++ c :: s := by
  rintro ⟨t, ht⟩
  rcases List.append_eq_append_iff.mp ht with ⟨u, hu, -⟩ | ⟨u, hu, hu'⟩
  · rw [hu, List.length_append] at hlen
    omega
  · cases u with
    | nil =>
        rw [List.append_nil] at hu
        rw [hu] at hlen
        exact Nat.lt_irrefl _ hlen
    | cons d u =>
        rw [List.cons_append] at hu'
        obtain ⟨rfl, -⟩ := List.cons.inj hu'
        exact hc (hu ▸ List.mem_append_right y List.mem_cons_self)

theorem not_infix_of_notMem {c : α} {a : List α} (h : c ∉ a) : ¬ [c] <:+: a :=
  fun hmid => h (hmid.subset List.mem_cons_self)

/-- **A text that ends with a character**, looked for in front of one that has none before
its own: it is there if the text in front ends with the rest of it. -/
theorem prefix_ends_iff {q : α} {w y s : List α} (hw : q ∉ w) (hy : q ∉ y) :
    w ++ [q] <+: y ++ q :: s ↔ y = w := by
  constructor
  · rintro ⟨t, ht⟩
    rw [List.append_assoc, List.singleton_append] at ht
    rcases List.append_eq_append_iff.mp ht with ⟨u, hu, hu'⟩ | ⟨u, hu, hu'⟩
    · cases u with
      | nil => rwa [List.append_nil] at hu
      | cons d u =>
          rw [List.cons_append] at hu'
          obtain ⟨rfl, -⟩ := List.cons.inj hu'
          exact absurd (hu ▸ List.mem_append_right w List.mem_cons_self) hy
    · cases u with
      | nil =>
          rw [List.append_nil] at hu
          exact hu.symm
      | cons d u =>
          rw [List.cons_append] at hu'
          obtain ⟨rfl, -⟩ := List.cons.inj hu'
          exact absurd (hu ▸ List.mem_append_right y List.mem_cons_self) hw
  · rintro rfl
    refine ⟨s, ?_⟩
    rw [List.append_assoc, List.singleton_append]

/-! ## The first one -/

variable [DecidableEq α]

/-- `s.find(pat)`. -/
def cut (pat : List α) : List α → Option (List α × List α)
  | [] => if pat = [] then some ([], []) else none
  | b :: s =>
      if pat.isPrefixOf (b :: s) then some ([], (b :: s).drop pat.length)
      else (cut pat s).map (fun (before, after) => (b :: before, after))

/-- The text up to an occurrence, or to the end. -/
def upTo (pat s : List α) : List α :=
  match cut pat s with
  | some (before, _) => before
  | none => s

/-- The text behind an occurrence. -/
def behind (pat s : List α) : Option (List α) := (cut pat s).map Prod.snd

/-- What comes before is skipped, up to where an occurrence might begin. -/
theorem cut_skip {pat a : List α} (s : List α) (h : ∀ x y, a = x ++ y → y ≠ [] → ¬ pat <+: y ++ s) :
    cut pat (a ++ s) = (cut pat s).map (fun (before, after) => (a ++ before, after)) := by
  induction a with
  | nil =>
      rw [List.nil_append]
      cases cut pat s with
      | none => rfl
      | some r => rfl
  | cons b a ih =>
      have hno : ¬ pat.isPrefixOf (b :: (a ++ s)) = true := by
        rw [List.isPrefixOf_iff_prefix]
        exact h [] (b :: a) rfl (List.cons_ne_nil b a)
      have ih := ih (fun x y heq hy => h (b :: x) y (by rw [heq, List.cons_append]) hy)
      rw [List.cons_append, cut, if_neg hno, ih, Option.map_map]
      rfl

/-- The same for a text that is known. -/
theorem cut_skip_tails {pat a : List α} (s : List α) (h : ∀ y ∈ a.tails, y ≠ [] → ¬ y.take pat.length <+: pat) :
    cut pat (a ++ s) = (cut pat s).map (fun (before, after) => (a ++ before, after)) := by
  refine cut_skip s ?_
  rintro x y rfl hy hpre
  refine h y ((List.mem_tails _ _).mpr (List.suffix_append x y)) hy ?_
  have htake : y.take pat.length <+: y ++ s := (List.take_prefix _ y).trans (List.prefix_append y s)
  exact List.prefix_of_prefix_length_le htake hpre (List.length_take_le _ _)

theorem cut_prefixed {pat : List α} (hne : pat ≠ []) (rest : List α) : cut pat (pat ++ rest) = some ([], rest) := by
  obtain ⟨b, pat', rfl⟩ := List.exists_cons_of_ne_nil hne
  have hyes : (b :: pat').isPrefixOf (b :: (pat' ++ rest)) = true := by
    rw [List.isPrefixOf_iff_prefix]
    exact List.prefix_append (b :: pat') rest
  rw [List.cons_append, cut, if_pos hyes, ← List.cons_append, List.drop_left]

/-- The first occurrence. -/
theorem cut_append {pat a : List α} (hne : pat ≠ []) (rest : List α)
    (h : ∀ x y, a = x ++ y → y ≠ [] → ¬ pat <+: y ++ (pat ++ rest)) :
    cut pat (a ++ (pat ++ rest)) = some (a, rest) := by
  rw [cut_skip _ h, cut_prefixed hne, Option.map_some]
  dsimp only
  rw [List.append_nil]

/-- **Nothing is found where there is nothing.** -/
theorem cut_eq_none {pat s : List α} (hne : pat ≠ []) (h : ¬ pat <:+: s) : cut pat s = none := by
  have hskip : cut pat (s ++ []) = (cut pat []).map (fun (before, after) => (s ++ before, after)) := by
    refine cut_skip [] ?_
    rintro x y rfl - hpre
    rw [List.append_nil] at hpre
    exact h (hpre.isInfix.trans (List.suffix_append x y).isInfix)
  rw [List.append_nil] at hskip
  rw [hskip, cut, if_neg hne, Option.map_none]

/-- And where nothing is found there is nothing. -/
theorem not_infix_of_cut {pat s : List α} (h : cut pat s = none) : ¬ pat <:+: s := by
  induction s with
  | nil =>
      intro hin
      rw [cut, if_pos (List.infix_nil.mp hin)] at h
      exact absurd h (by simp)
  | cons b s ih =>
      rw [cut] at h
      split at h
      · exact absurd h (by simp)
      · rename_i hpre
        rw [List.isPrefixOf_iff_prefix] at hpre
        intro hin
        rcases List.infix_cons_iff.mp hin with hpre' | hin
        · exact hpre hpre'
        · exact ih (Option.map_eq_none_iff.mp h) hin

/-- What is found is there. -/
theorem eq_of_cut {pat s before after : List α} (h : cut pat s = some (before, after)) :
    s = before ++ (pat ++ after) := by
  induction s generalizing before with
  | nil =>
      rw [cut] at h
      split at h
      · rename_i hpat
        obtain ⟨rfl, rfl⟩ := Prod.mk.inj (Option.some.inj h)
        rw [hpat]
        rfl
      · exact absurd h (by simp)
  | cons b s ih =>
      rw [cut] at h
      split at h
      · rename_i hpre
        obtain ⟨rfl, rfl⟩ := Prod.mk.inj (Option.some.inj h)
        rw [List.isPrefixOf_iff_prefix] at hpre
        obtain ⟨t, ht⟩ := hpre
        rw [← ht, List.drop_left]
        rfl
      · obtain ⟨⟨x, y⟩, hcut, heq⟩ := Option.map_eq_some_iff.mp h
        obtain ⟨rfl, rfl⟩ := Prod.mk.inj heq
        rw [ih hcut]
        rfl

/-- **The first occurrence** of such a text. -/
theorem cut_append_head {c : α} {pat a : List α} (rest : List α) (hc : c ∉ pat) (h : ¬ (c :: pat) <:+: a) :
    cut (c :: pat) (a ++ ((c :: pat) ++ rest)) = some (a, rest) :=
  cut_append (List.cons_ne_nil c pat) rest (fun _ _ ha hy => not_prefix_of_head hc h ha hy)

/-- **An occurrence lies on one side** of a character that it does not contain. -/
theorem cut_append_notMem {c : α} {pat : List α} (a s : List α) (hne : pat ≠ []) (hc : c ∉ pat) :
    cut pat (a ++ c :: s) =
      match cut pat a with
      | some (before, after) => some (before, after ++ c :: s)
      | none => (cut pat s).map (fun (before, after) => (a ++ c :: before, after)) := by
  induction a with
  | nil =>
      have hno : ¬ pat.isPrefixOf (c :: s) = true := by
        rw [List.isPrefixOf_iff_prefix]
        exact not_prefix_of_notMem (y := []) hc (List.length_pos_of_ne_nil hne)
      have hnil : cut pat [] = none := if_neg hne
      rw [List.nil_append, hnil]
      exact if_neg hno
  | cons b a ih =>
      rw [List.cons_append, cut, cut]
      by_cases hpre : pat <+: b :: a
      · obtain ⟨t, ht⟩ := hpre
        have h₁ : pat.isPrefixOf (b :: (a ++ c :: s)) = true := by
          rw [List.isPrefixOf_iff_prefix, ← List.cons_append, ← ht, List.append_assoc]
          exact List.prefix_append pat _
        have h₂ : pat.isPrefixOf (b :: a) = true := by
          rw [List.isPrefixOf_iff_prefix, ← ht]
          exact List.prefix_append pat t
        rw [if_pos h₁, if_pos h₂, ← List.cons_append, ← ht, List.append_assoc, List.drop_left, List.drop_left]
      · have h₁ : ¬ pat.isPrefixOf (b :: (a ++ c :: s)) = true := by
          rw [List.isPrefixOf_iff_prefix]
          intro hlong
          by_cases hlen : (b :: a).length < pat.length
          · exact not_prefix_of_notMem hc hlen hlong
          · exact hpre (List.prefix_of_prefix_length_le hlong (List.prefix_append (b :: a) (c :: s)) (Nat.not_lt.mp hlen))
        have h₂ : ¬ pat.isPrefixOf (b :: a) = true := by rwa [List.isPrefixOf_iff_prefix]
        rw [if_neg h₁, if_neg h₂, ih]
        cases cut pat a with
        | none =>
            rw [Option.map_none, Option.map_map]
            rfl
        | some r => rfl

/-! ## What is behind it -/

theorem behind_skip {pat a : List α} (s : List α) (h : ∀ x y, a = x ++ y → y ≠ [] → ¬ pat <+: y ++ s) :
    behind pat (a ++ s) = behind pat s := by
  rw [behind, behind, cut_skip s h, Option.map_map]
  rfl

theorem behind_skip_tails {pat a : List α} (s : List α)
    (h : ∀ y ∈ a.tails, y ≠ [] → ¬ y.take pat.length <+: pat) : behind pat (a ++ s) = behind pat s := by
  rw [behind, behind, cut_skip_tails s h, Option.map_map]
  rfl

theorem behind_prefixed {pat : List α} (hne : pat ≠ []) (rest : List α) : behind pat (pat ++ rest) = some rest := by
  rw [behind, cut_prefixed hne, Option.map_some]

theorem behind_append {pat a : List α} (hne : pat ≠ []) (rest : List α)
    (h : ∀ x y, a = x ++ y → y ≠ [] → ¬ pat <+: y ++ (pat ++ rest)) :
    behind pat (a ++ (pat ++ rest)) = some rest := by
  rw [behind, cut_append hne rest h, Option.map_some]

theorem behind_append_notMem {c : α} {pat : List α} (a s : List α) (hne : pat ≠ []) (hc : c ∉ pat) :
    behind pat (a ++ c :: s) = ((behind pat a).map (· ++ c :: s)).or (behind pat s) := by
  rw [behind, behind, behind, cut_append_notMem a s hne hc]
  cases cut pat a with
  | none =>
      dsimp only
      rw [Option.map_map]
      rfl
  | some r => rfl

theorem suffix_of_behind {pat s after : List α} (h : behind pat s = some after) : after <:+ s := by
  obtain ⟨⟨x, y⟩, hcut, rfl⟩ := Option.map_eq_some_iff.mp h
  refine ⟨x ++ pat, ?_⟩
  rw [eq_of_cut hcut, List.append_assoc]

/-! ## One character -/

theorem cut_char {c : α} {a : List α} (rest : List α) (h : c ∉ a) : cut [c] (a ++ c :: rest) = some (a, rest) :=
  cut_append_head rest (by simp) (not_infix_of_notMem h)

theorem upTo_char {c : α} {a : List α} (rest : List α) (h : c ∉ a) : upTo [c] (a ++ c :: rest) = a := by
  rw [upTo, cut_char rest h]

theorem upTo_of_not_infix {pat s : List α} (hne : pat ≠ []) (h : ¬ pat <:+: s) : upTo pat s = s := by
  rw [upTo, cut_eq_none hne h]

/-- What comes before the first occurrence has none. -/
theorem notMem_of_cut_char {c : α} {s before after : List α} (h : cut [c] s = some (before, after)) :
    c ∉ before := by
  induction s generalizing before with
  | nil => exact absurd h (by simp [cut])
  | cons b s ih =>
      rw [cut] at h
      split at h
      · obtain ⟨rfl, -⟩ := Prod.mk.inj (Option.some.inj h)
        exact List.not_mem_nil
      · rename_i hpre
        obtain ⟨⟨x, y⟩, hcut, heq⟩ := Option.map_eq_some_iff.mp h
        obtain ⟨rfl, rfl⟩ := Prod.mk.inj heq
        have hb : c ≠ b := by
          rintro rfl
          exact hpre (by simp)
        rw [List.mem_cons, not_or]
        exact ⟨hb, ih hcut⟩

end Wire
