import Mathlib.Data.List.Basic

/-!
# Intervals that follow one another

Half-open intervals of a linear order, the upper end missing where there is none. If each
starts where the one before it ends, they split what lies between the first start and the
last end: every point there is in one of them and in no other.
-/

namespace Intervals

/-- From `lo` on, up to `hi` if there is one. -/
structure HalfOpen (α : Type) where
  lo : α
  hi : Option α

variable {α : Type} [LE α] [LT α]

/-- Below an upper end that may be missing. -/
def Below (x : α) : Option α → Prop
  | none => True
  | some h => x < h

instance [DecidableLT α] (x : α) (hi : Option α) : Decidable (Below x hi) :=
  match hi with
  | none => inferInstanceAs (Decidable True)
  | some h => inferInstanceAs (Decidable (x < h))

/-- The points of an interval. -/
def HalfOpen.Has (i : HalfOpen α) (x : α) : Prop := i.lo ≤ x ∧ Below x i.hi

instance [DecidableLE α] [DecidableLT α] (i : HalfOpen α) (x : α) : Decidable (i.Has x) :=
  inferInstanceAs (Decidable (_ ∧ _))

/-- Intervals from `lo` up to `hi`, none of them empty, each starting where the one before
it ends. -/
inductive Adjoining : α → List (HalfOpen α) → Option α → Prop where
  | last {lo : α} {hi : Option α} : Below lo hi → Adjoining lo [⟨lo, hi⟩] hi
  | cons {lo mid : α} {hi : Option α} {l : List (HalfOpen α)} :
      lo < mid → Adjoining mid l hi → Adjoining lo (⟨lo, some mid⟩ :: l) hi

variable [DecidableLE α] [DecidableLT α]

/-- How many of the intervals a point is in. -/
def hits (x : α) (l : List (HalfOpen α)) : Nat := l.countP (fun i => decide (i.Has x))

theorem hits_cons_of_has {x : α} {i : HalfOpen α} (h : i.Has x) (l : List (HalfOpen α)) :
    hits x (i :: l) = hits x l + 1 :=
  List.countP_cons_of_pos (decide_eq_true h)

theorem hits_cons_of_not {x : α} {i : HalfOpen α} (h : ¬ i.Has x) (l : List (HalfOpen α)) :
    hits x (i :: l) = hits x l :=
  List.countP_cons_of_neg (by rw [decide_eq_true_eq]; exact h)

variable [Std.IsLinearOrder α] [Std.LawfulOrderLT α] {x lo : α} {hi : Option α} {l : List (HalfOpen α)}

/-- Nothing starts before the first. -/
theorem Adjoining.hits_eq_zero (h : Adjoining lo l hi) (hx : x < lo) : hits x l = 0 := by
  induction h with
  | last hlo => rw [hits_cons_of_not fun hhas => Std.not_lt_of_ge hhas.1 hx]; rfl
  | cons hlo _ ih =>
      rw [hits_cons_of_not fun hhas => Std.not_lt_of_ge hhas.1 hx]
      exact ih (Std.lt_trans hx hlo)

/-- **A partition.** -/
theorem Adjoining.hits_eq_one (h : Adjoining lo l hi) (hx : lo ≤ x) (hend : Below x hi) : hits x l = 1 := by
  induction h with
  | @last lo hi hlo =>
      have hhas : (HalfOpen.mk lo hi).Has x := ⟨hx, hend⟩
      rw [hits_cons_of_has hhas]
      rfl
  | @cons lo mid hi l hlo hrest ih =>
      by_cases hmid : x < mid
      -- in the first, and the others start later
      · have hhas : (HalfOpen.mk lo (some mid)).Has x := ⟨hx, hmid⟩
        rw [hits_cons_of_has hhas, hrest.hits_eq_zero hmid]
      · have hnot : ¬ (HalfOpen.mk lo (some mid)).Has x := fun hhas => hmid hhas.2
        rw [hits_cons_of_not hnot]
        exact ih (Std.not_lt.mp hmid) hend

end Intervals
