import Mathlib.Data.List.Basic

/-!
# Cutting a list into pieces

Pieces of one size, the last one as long as what is left. Put together they are the list
again; if some of them have been lost they are not, because no piece is empty.
-/

namespace Pieces

variable {α β : Type}

/-- How many pieces of this size `n` elements make. -/
def count (size n : Nat) : Nat := (n + size - 1) / size

/-- The pieces. -/
def cut (size : Nat) (data : List α) : List (List α) :=
  (List.range (count size data.length)).map (fun i => (data.drop (i * size)).take size)

theorem length_cut (size : Nat) (data : List α) : (cut size data).length = count size data.length := by
  rw [cut, List.length_map, List.length_range]

/-- The first `n` pieces. -/
theorem flatten_range (size n : Nat) (data : List α) :
    ((List.range n).map (fun i => (data.drop (i * size)).take size)).flatten = data.take (n * size) := by
  induction n with
  | zero => rw [Nat.zero_mul]; rfl
  | succ n ih =>
      rw [List.range_succ, List.map_append, List.flatten_append, ih, Nat.succ_mul, List.take_add]
      exact congrArg (data.take (n * size) ++ ·) (List.append_nil _)

variable {size : Nat}

/-- So many pieces are enough, and the last one is not empty. -/
theorem count_bounds (hsize : 0 < size) (n : Nat) : n ≤ count size n * size ∧ ∀ i, i < count size n → i * size < n := by
  have hmod := Nat.div_add_mod (n + size - 1) size
  have hlt := Nat.mod_lt (n + size - 1) hsize
  have hcount : size * count size n + (n + size - 1) % size = n + size - 1 := hmod
  refine ⟨?_, fun i hi => ?_⟩
  · rw [Nat.mul_comm]
    omega
  · have hle : size * (i + 1) ≤ size * count size n := Nat.mul_le_mul_left size hi
    rw [Nat.mul_succ, Nat.mul_comm size i] at hle
    omega

/-- **Nothing is lost.** -/
theorem flatten_cut (hsize : 0 < size) (data : List α) : (cut size data).flatten = data := by
  rw [cut, flatten_range]
  exact List.take_of_length_le (count_bounds hsize data.length).1

theorem ne_nil_of_mem_cut (hsize : 0 < size) {data piece : List α} (h : piece ∈ cut size data) : piece ≠ [] := by
  obtain ⟨i, hi, rfl⟩ := List.mem_map.mp h
  have hlt := (count_bounds hsize data.length).2 i (List.mem_range.mp hi)
  intro hnil
  have hlen := congrArg List.length hnil
  rw [List.length_take, List.length_drop, List.length_nil] at hlen
  omega

/-! ## Lost pieces -/

theorem length_flatten_le {f g : β → List α} {l : List β} (hg : ∀ x ∈ l, g x = f x ∨ g x = []) :
    (l.map g).flatten.length ≤ (l.map f).flatten.length := by
  induction l with
  | nil => exact Nat.le_refl _
  | cons x l ih =>
      have hrest := ih (fun y hy => hg y (List.mem_cons_of_mem _ hy))
      simp only [List.map_cons, List.flatten_cons, List.length_append]
      rcases hg x List.mem_cons_self with hx | hx
      · rw [hx]
        omega
      · rw [hx, List.length_nil]
        omega

/-- **Every lost piece is missed.** -/
theorem flatten_lossy_eq_iff {f g : β → List α} {l : List β} (hg : ∀ x ∈ l, g x = f x ∨ g x = [])
    (hf : ∀ x ∈ l, f x ≠ []) : (l.map g).flatten = (l.map f).flatten ↔ ∀ x ∈ l, g x = f x := by
  refine ⟨fun h => ?_, fun h => by rw [List.map_congr_left h]⟩
  induction l with
  | nil => exact fun x hx => absurd hx List.not_mem_nil
  | cons x l ih =>
      have hgl : ∀ y ∈ l, g y = f y ∨ g y = [] := fun y hy => hg y (List.mem_cons_of_mem _ hy)
      rw [List.map_cons, List.map_cons, List.flatten_cons, List.flatten_cons] at h
      rcases hg x List.mem_cons_self with hx | hx
      · rw [hx] at h
        have hl := ih hgl (fun y hy => hf y (List.mem_cons_of_mem _ hy)) (List.append_cancel_left h)
        intro y hy
        rcases List.mem_cons.mp hy with rfl | hy
        · exact hx
        · exact hl y hy
      · -- what is left is too short
        have hlen := congrArg List.length h
        have hle := length_flatten_le hgl
        have hpos := List.length_pos_iff.mpr (hf x List.mem_cons_self)
        rw [hx, List.nil_append, List.length_append] at hlen
        omega

end Pieces
