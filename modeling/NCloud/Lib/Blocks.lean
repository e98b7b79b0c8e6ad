import NCloud.Lib.Pieces

/-!
# Input taken in blocks

A machine that works on blocks of one size and takes its input in portions of any size.
What does not fill a block waits in a buffer. `feed` is that machine one element at a
time, so it does not matter where the input is cut; fed a whole number of blocks it has
worked through them one after the other (`feed_cut`).
-/

namespace Blocks

variable {σ α : Type} (size : Nat) (compress : σ → List α → σ)

/-- One more element. -/
def push (q : σ × List α) (x : α) : σ × List α :=
  if q.2.length + 1 = size then (compress q.1 (q.2 ++ [x]), []) else (q.1, q.2 ++ [x])

/-- A portion of the input. -/
def feed (q : σ × List α) (data : List α) : σ × List α := data.foldl (push size compress) q

variable {size compress} {s : σ} {q : σ × List α} {buf data : List α}

theorem feed_append (q : σ × List α) (data data' : List α) :
    feed size compress q (data ++ data') = feed size compress (feed size compress q data) data' :=
  List.foldl_append

/-- A portion that does not fill the buffer. -/
theorem feed_of_lt (h : buf.length + data.length < size) : feed size compress (s, buf) data = (s, buf ++ data) := by
  induction data generalizing buf with
  | nil => rw [List.append_nil]; rfl
  | cons x data ih =>
      rw [List.length_cons] at h
      have hstep : push size compress (s, buf) x = (s, buf ++ [x]) := by
        rw [push, if_neg (by show buf.length + 1 ≠ size; omega)]
      have hlen : (buf ++ [x]).length + data.length < size := by
        rw [List.length_append, List.length_singleton]
        omega
      rw [feed, List.foldl_cons, hstep]
      exact (ih hlen).trans (by rw [List.append_assoc]; rfl)

/-- A portion that just fills it. -/
theorem feed_of_eq (hne : data ≠ []) (h : buf.length + data.length = size) :
    feed size compress (s, buf) data = (compress s (buf ++ data), []) := by
  obtain ⟨init, x, rfl⟩ : ∃ init x, data = init ++ [x] :=
    ⟨data.dropLast, data.getLast hne, (List.dropLast_append_getLast hne).symm⟩
  rw [List.length_append, List.length_singleton] at h
  have hlast : (buf ++ init).length + 1 = size := by
    rw [List.length_append]
    omega
  have hinit : feed size compress (s, buf) init = (s, buf ++ init) := feed_of_lt (by omega)
  rw [feed_append, hinit]
  show push size compress (s, buf ++ init) x = _
  rw [push, if_pos hlast, List.append_assoc]

/-- Whole blocks. -/
theorem feed_blocks (hsize : 0 < size) {blocks : List (List α)} (h : ∀ b ∈ blocks, b.length = size) (s : σ) :
    feed size compress (s, []) blocks.flatten = (blocks.foldl compress s, []) := by
  induction blocks generalizing s with
  | nil => rfl
  | cons b blocks ih =>
      have hb := h b List.mem_cons_self
      have hne : b ≠ [] := by
        rintro rfl
        rw [List.length_nil] at hb
        omega
      rw [List.flatten_cons, feed_append, feed_of_eq hne (by rw [hb, List.length_nil, Nat.zero_add]),
        ih fun b' hb' => h b' (List.mem_cons_of_mem _ hb')]
      rfl

/-- How much waits in the buffer. -/
theorem length_feed (hbuf : q.2.length < size) (data : List α) :
    (feed size compress q data).2.length = (q.2.length + data.length) % size := by
  induction data generalizing q with
  | nil => exact (Nat.mod_eq_of_lt hbuf).symm
  | cons x data ih =>
      show (feed size compress (push size compress q x) data).2.length = _
      rw [push, List.length_cons]
      split
      · rename_i hfull
        rw [ih (by show 0 < size; omega)]
        show (0 + data.length) % size = _
        have hsum : q.2.length + (data.length + 1) = 0 + data.length + size := by omega
        rw [hsum, Nat.add_mod_right]
      · have hlen : (q.2 ++ [x]).length = q.2.length + 1 := by rw [List.length_append]; rfl
        rw [ih (by show (q.2 ++ [x]).length < size; omega)]
        show ((q.2 ++ [x]).length + data.length) % size = _
        rw [hlen, Nat.add_assoc, Nat.add_comm 1]

theorem length_of_mem_cut (hdvd : size ∣ data.length) {b : List α} (h : b ∈ Pieces.cut size data) :
    b.length = size := by
  obtain ⟨i, hi, rfl⟩ := List.mem_map.mp h
  obtain ⟨n, hn⟩ := hdvd
  rcases Nat.eq_zero_or_pos size with rfl | hsize
  · rw [List.take_zero]; rfl
  · have hlt := (Pieces.count_bounds hsize data.length).2 i (List.mem_range.mp hi)
    have hle : i + 1 ≤ n := by
      rw [hn, Nat.mul_comm] at hlt
      exact Nat.lt_of_mul_lt_mul_left hlt
    have hroom : size * (i + 1) ≤ size * n := Nat.mul_le_mul_left size hle
    rw [Nat.mul_succ, Nat.mul_comm size i] at hroom
    rw [List.length_take, List.length_drop]
    omega

/-- **The input as a whole.** -/
theorem feed_cut (hsize : 0 < size) (hdvd : size ∣ data.length) (s : σ) :
    feed size compress (s, []) data = ((Pieces.cut size data).foldl compress s, []) := by
  have hblocks : feed size compress (s, []) (Pieces.cut size data).flatten = _ :=
    feed_blocks hsize (fun b hb => length_of_mem_cut hdvd hb) s
  rwa [Pieces.flatten_cut hsize] at hblocks

end Blocks
