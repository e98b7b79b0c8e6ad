import Mathlib.Data.List.Basic

/-!
# Lists in one string

A list kept as one string with a separator between its items. Reading drops empty
items, so a string with stray separators still spells a list, but reading back what was
written needs items that are not empty and do not contain the separator (`Clean`).
-/

namespace Csv

variable {α : Type} [DecidableEq α]

/-- The items a string spells. -/
def fields (sep : α) (s : List α) : List (List α) := (s.splitOn sep).filter (fun t => t ≠ [])

omit [DecidableEq α] in
/-- The string for a list of items. -/
def join (sep : α) (items : List (List α)) : List α := [sep].intercalate items

omit [DecidableEq α] in
/-- Items that survive being written down. -/
structure Clean (sep : α) (item : List α) : Prop where
  ne_nil : item ≠ []
  notMem : sep ∉ item

variable {sep : α}

@[simp] theorem fields_nil : fields sep [] = [] := rfl

/-- The pieces between separators contain none. -/
theorem notMem_of_mem_splitOn {s t : List α} (h : t ∈ s.splitOn sep) : sep ∉ t := by
  induction s generalizing t with
  | nil =>
      rw [List.splitOn_nil] at h
      obtain rfl := List.mem_singleton.mp h
      exact List.not_mem_nil
  | cons x s ih =>
      rw [List.splitOn_cons_eq_if_modifyHead] at h
      split at h
      · rcases List.mem_cons.mp h with rfl | h
        · exact List.not_mem_nil
        · exact ih h
      · rename_i hx
        -- the head piece grows by `x`, the others stay
        cases hs : s.splitOn sep with
        | nil => exact absurd hs (List.splitOn_ne_nil _ _)
        | cons u us =>
            rw [hs] at h
            rcases List.mem_cons.mp h with rfl | h
            · have hu : sep ∉ u := ih (by rw [hs]; exact List.mem_cons_self)
              intro hmem
              rcases List.mem_cons.mp hmem with heq | hmem
              · exact hx (by simp [heq])
              · exact hu hmem
            · exact ih (by rw [hs]; exact List.mem_cons_of_mem _ h)

theorem clean_of_mem_fields {s item : List α} (h : item ∈ fields sep s) : Clean sep item := by
  obtain ⟨hmem, hne⟩ := List.mem_filter.mp h
  exact ⟨by simpa using hne, notMem_of_mem_splitOn hmem⟩

/-- **Reading back.** -/
theorem fields_join {items : List (List α)} (h : ∀ item ∈ items, Clean sep item) :
    fields sep (join sep items) = items := by
  cases items with
  | nil => rfl
  | cons item rest =>
      rw [fields, join, List.splitOn_intercalate sep (fun l hl => (h l hl).notMem) (by simp)]
      exact List.filter_eq_self.mpr (fun l hl => by simpa using (h l hl).ne_nil)

/-! ## Concatenation -/

theorem splitOn_append_sep (a b : List α) : (a ++ sep :: b).splitOn sep = a.splitOn sep ++ b.splitOn sep := by
  induction a with
  | nil =>
      rw [List.nil_append, List.splitOn_cons_eq_if_modifyHead, List.splitOn_nil]
      simp
  | cons x a ih =>
      rw [List.cons_append, List.splitOn_cons_eq_if_modifyHead, List.splitOn_cons_eq_if_modifyHead, ih]
      split
      · rfl
      · cases ha : a.splitOn sep with
        | nil => exact absurd ha (List.splitOn_ne_nil _ _)
        | cons u us => rfl

/-- **A separator separates.** -/
theorem fields_append_sep (a b : List α) : fields sep (a ++ sep :: b) = fields sep a ++ fields sep b := by
  rw [fields, fields, fields, splitOn_append_sep, List.filter_append]

theorem fields_cons_sep (b : List α) : fields sep (sep :: b) = fields sep b := fields_append_sep [] b

/-- One item. -/
theorem fields_of_clean {item : List α} (h : Clean sep item) : fields sep item = [item] := by
  have hone : fields sep (join sep [item]) = [item] := fields_join (fun i hi => List.mem_singleton.mp hi ▸ h)
  rwa [join, List.intercalate_singleton] at hone

/-! ## Writing item after item -/

omit [DecidableEq α] in
theorem intercalate_cons (sep x : List α) (xs : List (List α)) :
    sep.intercalate (x :: xs) = x ++ xs.flatMap (sep ++ ·) := by
  induction xs generalizing x with
  | nil => rw [List.intercalate_singleton, List.flatMap_nil, List.append_nil]
  | cons y xs ih => rw [List.intercalate_cons_cons, ih, List.flatMap_cons, List.append_assoc, List.append_assoc]

omit [DecidableEq α] in
theorem mem_of_mem_join {items : List (List α)} {b : α} (h : b ∈ join sep items) : b = sep ∨ ∃ item ∈ items, b ∈ item := by
  cases items with
  | nil => exact absurd h List.not_mem_nil
  | cons item items =>
      rw [join, intercalate_cons, List.mem_append, List.mem_flatMap] at h
      rcases h with h | ⟨item', hitem', h⟩
      · exact .inr ⟨item, List.mem_cons_self, h⟩
      · rcases List.mem_cons.mp h with h | h
        · exact .inl h
        · exact .inr ⟨item', List.mem_cons_of_mem _ hitem', h⟩

omit [DecidableEq α] in
/-- A loop that writes a separator unless it has written nothing yet. -/
theorem foldl_separated {β : Type} {text : β → List α} (hne : ∀ x, text x ≠ []) (xs : List β) :
    xs.foldl (fun out x => (if out = [] then out else out ++ [sep]) ++ text x) [] = join sep (xs.map text) := by
  have hgo : ∀ (xs : List β) (out : List α), out ≠ [] →
      xs.foldl (fun out x => (if out = [] then out else out ++ [sep]) ++ text x) out =
        out ++ (xs.map text).flatMap ([sep] ++ ·) := by
    intro xs
    induction xs with
    | nil => exact fun out _ => (List.append_nil out).symm
    | cons x xs ih =>
        intro out hout
        rw [List.foldl_cons, if_neg hout, ih _ (by simp), List.map_cons, List.flatMap_cons]
        simp only [List.append_assoc]
  cases xs with
  | nil => rfl
  | cons x xs =>
      rw [List.foldl_cons, if_pos rfl, List.nil_append, hgo xs _ (hne x), List.map_cons, join, intercalate_cons]

end Csv
