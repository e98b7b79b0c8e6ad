import Mathlib.Data.List.Dedup
import Mathlib.Data.List.DropRight

/-!
# Bounded histories

Two ways to remember at most `n` of the items that come along. One moves an item to the
front whenever it comes, and forgets at the other end what has not come for longest. The
other leaves an item where it is as long as it has not been forgotten.
-/

namespace Recent

variable {α : Type} [DecidableEq α]

/-- The last `n` different items, most recent first. -/
def recent (n : Nat) (xs : List α) : List α := xs.dedup.reverse.take n

/-- One more item, in the order of first appearance. -/
def keep (n : Nat) (l : List α) (x : α) : List α := if x ∈ l then l else (l ++ [x]).rtake n

/-- The last `n` items in the order in which they appeared; one that is still there does not
appear again. -/
def retained (n : Nat) (xs : List α) : List α := xs.foldl (keep n) []

variable {n : Nat} {l xs : List α} {x : α}

/-! ## Moving to the front -/

section Erase

variable [BEq α] [LawfulBEq α]

theorem dedup_concat (xs : List α) (x : α) : (xs ++ [x]).dedup = xs.dedup.erase x ++ [x] := by
  induction xs with
  | nil => rfl
  | cons y xs ih =>
      rw [List.cons_append]
      by_cases hy : y ∈ xs
      · rw [List.dedup_cons_of_mem (List.mem_append_left _ hy), ih, List.dedup_cons_of_mem hy]
      · rw [List.dedup_cons_of_notMem hy]
        by_cases hx : y = x
        · subst hx
          rw [List.dedup_cons_of_mem (List.mem_append_right _ (List.mem_singleton_self y)), ih, List.erase_cons_head,
            List.erase_of_not_mem fun h => hy (List.mem_dedup.mp h)]
        · have hnew : y ∉ xs ++ [x] := by
            rw [List.mem_append, List.mem_singleton, not_or]
            exact ⟨hy, hx⟩
          rw [List.dedup_cons_of_notMem hnew, ih, List.erase_cons_tail (by simpa using hx), List.cons_append]

/-- What is cut off first makes no difference. -/
theorem take_erase_take (m : Nat) (l : List α) (x : α) :
    ((l.take (m + 1)).erase x).take m = (l.erase x).take m := by
  induction l generalizing m with
  | nil => rfl
  | cons y l ih =>
      rw [List.take_succ_cons]
      by_cases hy : y = x
      · subst hy
        rw [List.erase_cons_head, List.erase_cons_head, List.take_take, Nat.min_self]
      · have hbeq : ¬ (y == x) = true := by simpa using hy
        rw [List.erase_cons_tail hbeq, List.erase_cons_tail hbeq]
        cases m with
        | zero => rfl
        | succ m => rw [List.take_succ_cons, List.take_succ_cons, ih]

/-- **One more item.** -/
theorem recent_concat (n : Nat) (xs : List α) (x : α) :
    recent n (xs ++ [x]) = (x :: (recent n xs).erase x).take n := by
  have hrev : (xs.dedup.erase x).reverse = xs.dedup.reverse.erase x := by
    rw [(List.nodup_dedup xs).erase_eq_filter, (List.nodup_reverse.mpr (List.nodup_dedup xs)).erase_eq_filter,
      List.filter_reverse]
  rw [recent, recent, dedup_concat, List.reverse_append, List.reverse_singleton, List.singleton_append, hrev]
  cases n with
  | zero => rfl
  | succ m => rw [List.take_succ_cons, List.take_succ_cons, take_erase_take]

end Erase

theorem nodup_recent (n : Nat) (xs : List α) : (recent n xs).Nodup :=
  (List.nodup_reverse.mpr (List.nodup_dedup xs)).sublist (List.take_sublist _ _)

/-! ## Staying in place -/

theorem retained_concat (n : Nat) (xs : List α) (x : α) : retained n (xs ++ [x]) = keep n (retained n xs) x :=
  List.foldl_append ..

theorem mem_keep (hn : 0 < n) (l : List α) (x : α) : x ∈ keep n l x := by
  obtain ⟨m, rfl⟩ : ∃ m, n = m + 1 := ⟨n - 1, by omega⟩
  rw [keep]
  split
  · assumption
  · rw [List.rtake_concat_succ]
    exact List.mem_append_right _ (List.mem_singleton_self x)

theorem nodup_keep (h : l.Nodup) : (keep n l x).Nodup := by
  rw [keep]
  split
  · exact h
  · rename_i hx
    have hnew : (l ++ [x]).Nodup := List.nodup_append.mpr ⟨h, List.nodup_singleton x, fun a ha b hb hab => by
      rw [List.mem_singleton.mp hb] at hab
      exact hx (hab ▸ ha)⟩
    exact hnew.sublist (List.drop_sublist _ _)

theorem nodup_retained (n : Nat) (xs : List α) : (retained n xs).Nodup := by
  induction xs using List.reverseRecOn with
  | nil => exact List.nodup_nil
  | append_singleton xs x ih =>
      rw [retained_concat]
      exact nodup_keep ih

end Recent
