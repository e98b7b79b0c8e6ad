import NCloud.Lib.Stream

/-!
# Sockets

A program that reads and writes a connection in turn. The other side may stop taking bytes at
any time, and then the next write fails. `Runs` says all at once what a program does: what it
reads and writes if everything is taken, and that otherwise what is taken is the beginning of
that.
-/

namespace Wire

/-- One end of a connection: what is still to be read, how many bytes the other side will
still take (`none`: as many as there are), and what was sent. -/
structure Socket where
  input : Bytes
  room : Option Nat
  sent : Bytes

/-- Something that is done on a connection and may fail. -/
def Talk (α : Type) := Socket → Option α × Socket

namespace Talk

instance : Monad Talk where
  pure a := fun s => (some a, s)
  bind p f := fun s =>
    match p s with
    | (none, s) => (none, s)
    | (some a, s) => f a s

/-- Giving up. -/
def fail {α : Type} : Talk α := fun s => (none, s)

/-- Reading. -/
def recv {α : Type} (p : Reader α) : Talk α := fun s =>
  match p s.input with
  | none => (none, s)
  | some (a, rest) => (some a, { s with input := rest })

/-- Writing, until everything is written or nothing more is taken. -/
def writeAll (data : Bytes) : Talk Unit := fun s =>
  match s.room with
  | none => (some (), { s with sent := s.sent ++ data })
  | some n =>
      if data.length ≤ n then (some (), { s with room := some (n - data.length), sent := s.sent ++ data })
      else (none, { s with room := some 0, sent := s.sent ++ data.take n })

/-! ## What a program does -/

/-- On this input the program returns `r`, leaves `rest` and writes `out`. If not all of that
is taken, it fails. -/
structure Runs {α : Type} (p : Talk α) (input : Bytes) (r : Option α) (rest out : Bytes) : Prop where
  whole : ∀ sent, p ⟨input, none, sent⟩ = (r, ⟨rest, none, sent ++ out⟩)
  fits : ∀ n sent, out.length ≤ n →
    p ⟨input, some n, sent⟩ = (r, ⟨rest, some (n - out.length), sent ++ out⟩)
  short : ∀ n sent, n < out.length →
    (p ⟨input, some n, sent⟩).1 = none ∧ (p ⟨input, some n, sent⟩).2.sent = sent ++ out.take n

variable {α β : Type} {p : Talk α} {f : α → Talk β} {input rest rest' out out' : Bytes} {a : α} {r : Option β}

theorem bind_some {s s' : Socket} (h : p s = (some a, s')) : (p >>= f) s = f a s' := by
  show (match p s with | (none, s) => (none, s) | (some a, s) => f a s) = _
  rw [h]

theorem bind_none {s s' : Socket} (h : p s = (none, s')) : (p >>= f) s = (none, s') := by
  show (match p s with | (none, s) => (none, s) | (some a, s) => f a s) = _
  rw [h]

theorem runs_pure (a : α) (input : Bytes) : Runs (pure a) input (some a) input [] where
  whole sent := by
    rw [List.append_nil]
    rfl
  fits n sent _ := by
    rw [List.append_nil]
    rfl
  short n sent h := absurd h (Nat.not_lt_zero n)

theorem runs_fail (input : Bytes) : Runs (fail : Talk α) input none input [] where
  whole sent := by
    rw [List.append_nil]
    rfl
  fits n sent _ := by
    rw [List.append_nil]
    rfl
  short n sent h := absurd h (Nat.not_lt_zero n)

theorem runs_recv {q : Reader α} (h : q input = some (a, rest)) : Runs (recv q) input (some a) rest [] where
  whole sent := by
    rw [recv, h, List.append_nil]
  fits n sent _ := by
    rw [recv, h, List.append_nil]
    rfl
  short n sent h := absurd h (Nat.not_lt_zero n)

theorem runs_recv_none {q : Reader α} (h : q input = none) : Runs (recv q) input none input [] where
  whole sent := by
    rw [recv, h, List.append_nil]
  fits n sent _ := by
    rw [recv, h, List.append_nil]
    rfl
  short n sent h := absurd h (Nat.not_lt_zero n)

theorem runs_writeAll (data input : Bytes) : Runs (writeAll data) input (some ()) input data where
  whole sent := rfl
  fits n sent h := by
    rw [writeAll]
    exact if_pos h
  short n sent h := by
    rw [writeAll]
    dsimp only
    rw [if_neg (Nat.not_le.mpr h)]
    exact ⟨rfl, rfl⟩

/-- One thing after the other. -/
theorem Runs.bind (h : Runs p input (some a) rest out) (hf : Runs (f a) rest r rest' out') :
    Runs (p >>= f) input r rest' (out ++ out') where
  whole sent := by
    rw [bind_some (h.whole sent), hf.whole, List.append_assoc]
  fits n sent hn := by
    rw [List.length_append] at hn ⊢
    rw [bind_some (h.fits n sent (by omega)), hf.fits _ _ (by omega), List.append_assoc, Nat.sub_sub]
  short n sent hn := by
    rw [List.length_append] at hn
    by_cases hle : out.length ≤ n
    · rw [bind_some (h.fits n sent hle)]
      obtain ⟨hnone, hsent⟩ := hf.short (n - out.length) (sent ++ out) (by omega)
      refine ⟨hnone, ?_⟩
      rw [hsent, List.take_append, List.take_of_length_le hle, List.append_assoc]
    · obtain ⟨hnone, hsent⟩ := h.short n sent (Nat.not_le.mp hle)
      have hp : p ⟨input, some n, sent⟩ = (none, (p ⟨input, some n, sent⟩).2) := Prod.ext hnone rfl
      rw [bind_none hp]
      refine ⟨rfl, ?_⟩
      rw [hsent, List.take_append_of_le_length (Nat.le_of_lt (Nat.not_le.mp hle))]

theorem Runs.bind_none (h : Runs p input none rest out) : Runs (p >>= f) input none rest out where
  whole sent := Talk.bind_none (h.whole sent)
  fits n sent hn := Talk.bind_none (h.fits n sent hn)
  short n sent hn := by
    obtain ⟨hnone, hsent⟩ := h.short n sent hn
    have hp : p ⟨input, some n, sent⟩ = (none, (p ⟨input, some n, sent⟩).2) := Prod.ext hnone rfl
    rw [Talk.bind_none hp]
    exact ⟨rfl, hsent⟩

/-- A program that does nothing but read and write does something. -/
def Steady (p : Talk α) : Prop := ∀ input, ∃ r rest out, Runs p input r rest out

theorem steady_pure (a : α) : Steady (pure a) := fun input => ⟨_, _, _, runs_pure a input⟩

theorem steady_fail : Steady (fail : Talk α) := fun input => ⟨_, _, _, runs_fail input⟩

theorem steady_recv (q : Reader α) : Steady (recv q) := by
  intro input
  cases h : q input with
  | none => exact ⟨_, _, _, runs_recv_none h⟩
  | some res => exact ⟨_, _, _, runs_recv h⟩

theorem steady_writeAll (data : Bytes) : Steady (writeAll data) := fun input => ⟨_, _, _, runs_writeAll data input⟩

theorem Steady.bind (hp : Steady p) (hf : ∀ a, Steady (f a)) : Steady (p >>= f) := by
  intro input
  obtain ⟨r, rest, out, h⟩ := hp input
  cases r with
  | none => exact ⟨_, _, _, h.bind_none⟩
  | some a =>
      obtain ⟨r', rest', out', h'⟩ := hf a rest
      exact ⟨_, _, _, h.bind h'⟩

end Talk

end Wire
