import Mathlib.Data.List.TakeWhile

/-!
# Taking turns

A queue in which some members can be served. The first of them is, and goes to the end with
all that were passed over. `serve_prefix` says what this comes to: those who can be served
are served in the order of the queue before anyone is served twice.
-/

namespace RoundRobin

variable {α : Type} (p : α → Bool)

/-- The member that is served, and the queue after that. -/
def serve (l : List α) : Option (α × List α) :=
  match l.dropWhile (fun x => !p x) with
  | [] => none
  | x :: rest => some (x, rest ++ (l.takeWhile (fun x => !p x) ++ [x]))

/-- The members that are served in some turns. -/
def serveMany : Nat → List α → List α
  | 0, _ => []
  | turns + 1, l =>
      match serve p l with
      | none => []
      | some (x, l) => x :: serveMany turns l

variable {p} {l front rest : List α} {x : α}

theorem serve_append (hfront : ∀ y ∈ front, p y = false) (hx : p x = true) :
    serve p (front ++ x :: rest) = some (x, rest ++ (front ++ [x])) := by
  have hskip : ∀ y ∈ front, (!p y) = true := fun y hy => by rw [hfront y hy]; rfl
  have hstop : (!p x) = false := by rw [hx]; rfl
  rw [serve, List.dropWhile_append_of_pos hskip, List.takeWhile_append_of_pos hskip]
  simp only [List.dropWhile_cons, List.takeWhile_cons, hstop, Bool.false_eq_true, if_false, List.append_nil]

/-- Where the first member stands that can be served. -/
theorem exists_first (h : ∃ x ∈ l, p x = true) :
    ∃ front x rest, l = front ++ x :: rest ∧ (∀ y ∈ front, p y = false) ∧ p x = true := by
  induction l with
  | nil => exact absurd h (by simp)
  | cons y l ih =>
      cases hy : p y with
      | true => exact ⟨[], y, l, rfl, nofun, hy⟩
      | false =>
          obtain ⟨x, hx, hp⟩ := h
          have hxl : x ∈ l := (List.mem_cons.mp hx).resolve_left fun heq => by rw [heq, hy] at hp; exact absurd hp nofun
          obtain ⟨front, z, rest, rfl, hfront, hz⟩ := ih ⟨x, hxl, hp⟩
          exact ⟨y :: front, z, rest, rfl, List.forall_mem_cons.mpr ⟨hy, hfront⟩, hz⟩

/-- **The front of the queue is served first**, whoever stands behind it. -/
theorem serve_prefix (l rest : List α) : serveMany p (l.countP p) (l ++ rest) = l.filter p := by
  induction hk : l.countP p generalizing l rest with
  | zero =>
      rw [serveMany, List.filter_eq_nil_iff.mpr (List.countP_eq_zero.mp hk)]
  | succ turns ih =>
      obtain ⟨front, x, l, rfl, hfront, hx⟩ := exists_first (List.countP_pos_iff.mp (by omega : 0 < l.countP p))
      have hnone : front.filter p = [] := List.filter_eq_nil_iff.mpr fun y hy => by rw [hfront y hy]; exact nofun
      have hcount : l.countP p = turns := by
        rw [List.countP_append, List.countP_cons_of_pos hx, List.countP_eq_length_filter, hnone, List.length_nil,
          Nat.zero_add] at hk
        exact Nat.succ.inj hk
      rw [serveMany, List.append_assoc, List.cons_append, serve_append hfront hx]
      dsimp only
      rw [List.append_assoc, ih l _ hcount, List.filter_append, hnone, List.filter_cons_of_pos hx]
      rfl

/-- **As many turns as there are members that can be served.** -/
theorem serveMany_countP (l : List α) : serveMany p (l.countP p) l = l.filter p := by
  have h := serve_prefix (p := p) l []
  rwa [List.append_nil] at h

end RoundRobin
