import Mathlib.Data.List.Basic
import Mathlib.Data.Nat.ModEq

/-!
# Byte strings, little-endian words and prefix readers

A reader consumes some front part of a byte string or fails; it never looks
behind what it consumed. Everything a length-prefixed format needs is here: the
words, the raw fields, fixed-count repetition, and the scan that reads records
until one does not parse.

Two properties of a reader carry the proofs above. `Extends` says that success
does not depend on what comes after, so a complete record is still complete when
more bytes follow, and a strict prefix of a record is never a record. `Consumes`
says that success makes progress, which is what makes the scan total.
-/

namespace Wire

/-- A C++ `std::string` or the contents of a file. -/
abbrev Bytes := List UInt8

instance : LawfulBEq Bytes := inferInstance

/-- The bytes are looked at, not all values of a byte. -/
instance (p : UInt8 → Prop) [DecidablePred p] (s : Bytes) : Decidable (∀ b ∈ s, p b) :=
  List.decidableBAll p s

/-- The bytes of a literal. -/
def ascii (s : String) : Bytes := s.toList.map (fun c => UInt8.ofNat c.toNat)

/-! ## Little-endian words -/

/-- The `w` low-order bytes of `n`, least significant first. -/
def leBytes : Nat → Nat → Bytes
  | 0, _ => []
  | w + 1, n => UInt8.ofNat n :: leBytes w (n / 256)

/-- The number a little-endian byte string spells. -/
def ofLe : Bytes → Nat
  | [] => 0
  | b :: bs => b.toNat + 256 * ofLe bs

@[simp] theorem leBytes_length (w n : Nat) : (leBytes w n).length = w := by
  induction w generalizing n with
  | zero => rfl
  | succ w ih => simp [leBytes, ih]

/-- Reading back a written word loses exactly the bits that do not fit. -/
theorem ofLe_leBytes (w n : Nat) : ofLe (leBytes w n) = n % 256 ^ w := by
  induction w generalizing n with
  | zero => simp [leBytes, ofLe, Nat.mod_one]
  | succ w ih =>
      have h8 : (UInt8.ofNat n).toNat = n % 256 := by simp
      rw [leBytes, ofLe, ih, h8, Nat.pow_succ, Nat.mul_comm (256 ^ w) 256, Nat.mod_mul]

theorem ofLe_leBytes_of_lt {w n : Nat} (h : n < 256 ^ w) : ofLe (leBytes w n) = n := by
  rw [ofLe_leBytes, Nat.mod_eq_of_lt h]

theorem ofLe_lt (bs : Bytes) : ofLe bs < 256 ^ bs.length := by
  induction bs with
  | nil => simp [ofLe]
  | cons b bs ih =>
      have hb := b.toNat_lt
      rw [ofLe, List.length_cons, Nat.pow_succ]
      omega

theorem leBytes_inj {w m n : Nat} (hm : m < 256 ^ w) (hn : n < 256 ^ w)
    (h : leBytes w m = leBytes w n) : m = n := by
  rw [← ofLe_leBytes_of_lt hm, ← ofLe_leBytes_of_lt hn, h]

/-! ## Readers -/

/-- Consume a front part of the input and return a value, or fail. -/
def Reader (α : Type) := Bytes → Option (α × Bytes)

namespace Reader

instance : Monad Reader where
  pure a := fun bs => some (a, bs)
  bind p f := fun bs =>
    match p bs with
    | none => none
    | some (a, rest) => f a rest

theorem pure_apply {α : Type} (a : α) (bs : Bytes) : (pure a : Reader α) bs = some (a, bs) := rfl

theorem bind_of_some {α β : Type} {p : Reader α} {f : α → Reader β} {bs rest : Bytes} {a : α}
    (h : p bs = some (a, rest)) : (p >>= f) bs = f a rest := by
  show (match p bs with | none => none | some (a, rest) => f a rest) = _
  rw [h]

theorem bind_of_none {α β : Type} {p : Reader α} {f : α → Reader β} {bs : Bytes}
    (h : p bs = none) : (p >>= f) bs = none := by
  show (match p bs with | none => none | some (a, rest) => f a rest) = _
  rw [h]

/-- A sequenced reader succeeds exactly when both halves do. -/
theorem bind_eq_some {α β : Type} {p : Reader α} {f : α → Reader β} {bs rest : Bytes} {b : β} :
    (p >>= f) bs = some (b, rest) ↔
      ∃ (a : α) (mid : Bytes), p bs = some (a, mid) ∧ f a mid = some (b, rest) := by
  cases h : p bs with
  | none => simp [bind_of_none h]
  | some q =>
      obtain ⟨a, mid⟩ := q
      rw [bind_of_some h]
      constructor
      · intro hf; exact ⟨a, mid, rfl, hf⟩
      · rintro ⟨a', mid', heq, hf⟩
        obtain ⟨rfl, rfl⟩ := Prod.mk.inj (Option.some.inj heq)
        exact hf

/-- The next `n` bytes. -/
def take (n : Nat) : Reader Bytes := fun bs =>
  if n ≤ bs.length then some (bs.take n, bs.drop n) else none

/-- A `w`-byte little-endian word. -/
def word (w : Nat) : Reader Nat := do
  let raw ← take w
  return ofLe raw

/-- One byte. -/
def byte : Reader UInt8
  | [] => none
  | b :: rest => some (b, rest)

theorem byte_cons (b : UInt8) (rest : Bytes) : byte (b :: rest) = some (b, rest) := rfl

/-- Fail unless `b`. -/
def require (b : Bool) : Reader Unit := fun bs => if b then some ((), bs) else none

/-- Run a reader `n` times. -/
def times {α : Type} (p : Reader α) : Nat → Reader (List α)
  | 0 => pure []
  | n + 1 => do
      let a ← p
      let as ← times p n
      return a :: as

theorem take_append (a rest : Bytes) : take a.length (a ++ rest) = some (a, rest) := by
  simp [take]

theorem take_eq_some {n : Nat} {bs a rest : Bytes} (h : take n bs = some (a, rest)) :
    bs = a ++ rest ∧ a.length = n := by
  unfold take at h
  split at h
  · rename_i hn
    obtain ⟨rfl, rfl⟩ := Prod.mk.inj (Option.some.inj h)
    exact ⟨(List.take_append_drop n bs).symm, by simp [hn]⟩
  · exact absurd h (by simp)

theorem require_true (bs : Bytes) : require true bs = some ((), bs) := rfl

theorem word_append (w n : Nat) (rest : Bytes) :
    word w (leBytes w n ++ rest) = some (n % 256 ^ w, rest) := by
  have h : take w (leBytes w n ++ rest) = some (leBytes w n, rest) := by
    have := take_append (leBytes w n) rest
    rwa [leBytes_length] at this
  rw [word, bind_of_some h, pure_apply, ofLe_leBytes]

theorem word_append_of_lt {w n : Nat} (h : n < 256 ^ w) (rest : Bytes) :
    word w (leBytes w n ++ rest) = some (n, rest) := by
  rw [word_append, Nat.mod_eq_of_lt h]

theorem word_lt {w n : Nat} {bs rest : Bytes} (h : word w bs = some (n, rest)) :
    n < 256 ^ w := by
  obtain ⟨raw, mid, ht, hp⟩ := bind_eq_some.mp h
  obtain ⟨rfl, -⟩ := Prod.mk.inj (Option.some.inj hp)
  obtain ⟨-, hlen⟩ := take_eq_some ht
  exact hlen ▸ ofLe_lt raw

theorem times_length {α : Type} {p : Reader α} {n : Nat} {bs rest : Bytes} {as : List α}
    (h : times p n bs = some (as, rest)) : as.length = n := by
  induction n generalizing bs rest as with
  | zero =>
      obtain ⟨rfl, -⟩ := Prod.mk.inj (Option.some.inj h)
      rfl
  | succ n ih =>
      obtain ⟨a, mid, -, h2⟩ := bind_eq_some.mp h
      obtain ⟨as', mid', h3, h4⟩ := bind_eq_some.mp h2
      obtain ⟨rfl, -⟩ := Prod.mk.inj (Option.some.inj h4)
      simp [ih h3]

/-- Everything a repetition returns came out of the repeated reader. -/
theorem times_forall {α : Type} {p : Reader α} {P : α → Prop}
    (hp : ∀ bs a rest, p bs = some (a, rest) → P a) {n : Nat} {bs rest : Bytes} {as : List α}
    (h : times p n bs = some (as, rest)) : ∀ a ∈ as, P a := by
  induction n generalizing bs rest as with
  | zero =>
      obtain ⟨rfl, -⟩ := Prod.mk.inj (Option.some.inj h)
      simp
  | succ n ih =>
      obtain ⟨a, mid, h1, h2⟩ := bind_eq_some.mp h
      obtain ⟨as', mid', h3, h4⟩ := bind_eq_some.mp h2
      obtain ⟨rfl, -⟩ := Prod.mk.inj (Option.some.inj h4)
      intro x hx
      rcases List.mem_cons.mp hx with rfl | hx
      · exact hp _ _ _ h1
      · exact ih h3 x hx

/-- Repetition inverts concatenation when one element does. -/
theorem times_flatMap {α : Type} {p : Reader α} {enc : α → Bytes} {as : List α}
    (hp : ∀ a ∈ as, ∀ rest, p (enc a ++ rest) = some (a, rest)) (rest : Bytes) :
    times p as.length (as.flatMap enc ++ rest) = some (as, rest) := by
  induction as with
  | nil => rfl
  | cons a as ih =>
      have h1 : p ((a :: as).flatMap enc ++ rest) = some (a, as.flatMap enc ++ rest) := by
        rw [List.flatMap_cons, List.append_assoc]
        exact hp a List.mem_cons_self _
      have h2 := ih (fun b hb => hp b (List.mem_cons_of_mem _ hb))
      rw [List.length_cons, times, bind_of_some h1, bind_of_some h2, pure_apply]

/-! ## Success does not depend on what follows -/

/-- A successful read succeeds the same way when more bytes follow. -/
def Extends {α : Type} (p : Reader α) : Prop :=
  ∀ (bs : Bytes) (a : α) (rest more : Bytes),
    p bs = some (a, rest) → p (bs ++ more) = some (a, rest ++ more)

/-- A successful read takes a front part of the input, and takes it in front of
anything else as well. -/
def Cuts {α : Type} (p : Reader α) : Prop :=
  ∀ (bs : Bytes) (a : α) (rest : Bytes), p bs = some (a, rest) →
    ∃ used, bs = used ++ rest ∧ ∀ more, p (used ++ more) = some (a, more)

theorem Cuts.extends {α : Type} {p : Reader α} (hp : Cuts p) : Extends p := by
  intro bs a rest more h
  obtain ⟨used, rfl, hused⟩ := hp bs a rest h
  rw [List.append_assoc]
  exact hused (rest ++ more)

theorem cuts_pure {α : Type} (a : α) : Cuts (pure a : Reader α) := by
  intro bs a' rest h
  obtain ⟨rfl, rfl⟩ := Prod.mk.inj (Option.some.inj h)
  exact ⟨[], rfl, fun more => rfl⟩

theorem cuts_bind {α β : Type} {p : Reader α} {f : α → Reader β} (hp : Cuts p)
    (hf : ∀ a, Cuts (f a)) : Cuts (p >>= f) := by
  intro bs b rest h
  obtain ⟨a, mid, h1, h2⟩ := bind_eq_some.mp h
  obtain ⟨used₁, rfl, hused₁⟩ := hp bs a mid h1
  obtain ⟨used₂, rfl, hused₂⟩ := hf a mid b rest h2
  refine ⟨used₁ ++ used₂, (List.append_assoc _ _ _).symm, fun more => ?_⟩
  rw [List.append_assoc, bind_of_some (hused₁ (used₂ ++ more))]
  exact hused₂ more

theorem cuts_take (n : Nat) : Cuts (take n) := by
  intro bs a rest h
  obtain ⟨rfl, rfl⟩ := take_eq_some h
  exact ⟨a, rfl, take_append a⟩

theorem cuts_word (w : Nat) : Cuts (word w) :=
  cuts_bind (cuts_take w) (fun _ => cuts_pure _)

theorem cuts_byte : Cuts byte := by
  intro bs a rest h
  cases bs with
  | nil => exact absurd h (by simp [byte])
  | cons b bs =>
      obtain ⟨rfl, rfl⟩ := Prod.mk.inj (Option.some.inj h)
      exact ⟨[b], rfl, byte_cons b⟩

theorem cuts_require (b : Bool) : Cuts (require b) := by
  intro bs a rest h
  cases b with
  | false => exact absurd h (by simp [require])
  | true =>
      obtain ⟨-, rfl⟩ := Prod.mk.inj (Option.some.inj h)
      exact ⟨[], rfl, require_true⟩

theorem cuts_times {α : Type} {p : Reader α} (hp : Cuts p) (n : Nat) : Cuts (times p n) := by
  induction n with
  | zero => exact cuts_pure _
  | succ n ih => exact cuts_bind hp fun a => cuts_bind ih fun as => cuts_pure _

/-- **A strict prefix of a record is not a record.** -/
theorem none_of_strict_prefix {α : Type} {p : Reader α} (hp : Extends p) {a : α}
    {front back : Bytes} (hb : back ≠ []) (h : p (front ++ back) = some (a, [])) :
    p front = none := by
  cases hq : p front with
  | none => rfl
  | some q =>
      exfalso
      obtain ⟨a', rest⟩ := q
      have := hp front a' rest back hq
      rw [h] at this
      have hnil : ([] : Bytes) = rest ++ back := (Prod.mk.inj (Option.some.inj this)).2
      exact hb (List.append_eq_nil_iff.mp hnil.symm).2

/-- **Where a prefix starts to parse**: as soon as it holds the part that is read. -/
theorem eq_none_iff_of_isPrefix {α : Type} {p : Reader α} (hp : Cuts p) {a : α} {bs front rest : Bytes}
    (h : p bs = some (a, rest)) (hfront : front <+: bs) :
    p front = none ↔ front.length < bs.length - rest.length := by
  obtain ⟨used, rfl, hused⟩ := hp bs a rest h
  rw [List.length_append, Nat.add_sub_cancel]
  constructor
  · intro hnone
    by_contra hlt
    obtain ⟨more, rfl⟩ := List.prefix_of_prefix_length_le (List.prefix_append used rest) hfront
      (by omega)
    exact absurd (hused more) (by rw [hnone]; simp)
  · intro hlt
    obtain ⟨back, rfl⟩ := List.prefix_of_prefix_length_le hfront (List.prefix_append used rest)
      (by omega)
    have hback : back ≠ [] := by
      rintro rfl
      rw [List.append_nil] at hlt
      exact Nat.lt_irrefl _ hlt
    have hwhole := hused []
    rw [List.append_nil] at hwhole
    exact none_of_strict_prefix hp.extends hback hwhole

/-! ## Reading records until one does not parse -/

/-- A successful read makes progress. -/
def Consumes {α : Type} (p : Reader α) : Prop :=
  ∀ (bs : Bytes) (a : α) (rest : Bytes), p bs = some (a, rest) → rest.length < bs.length

/-- A successful read does not lengthen the input. -/
def Shrinks {α : Type} (p : Reader α) : Prop :=
  ∀ (bs : Bytes) (a : α) (rest : Bytes), p bs = some (a, rest) → rest.length ≤ bs.length

theorem Cuts.shrinks {α : Type} {p : Reader α} (hp : Cuts p) : Shrinks p := by
  intro bs a rest h
  obtain ⟨used, rfl, -⟩ := hp bs a rest h
  simp

/-- A reader that starts with a non-empty word makes progress. -/
theorem consumes_word_bind {β : Type} {w : Nat} {f : Nat → Reader β}
    (hf : ∀ n, Shrinks (f n)) : Consumes (word (w + 1) >>= f) := by
  intro bs b rest h
  obtain ⟨n, mid, h1, h2⟩ := bind_eq_some.mp h
  obtain ⟨raw, mid', h3, h4⟩ := bind_eq_some.mp h1
  obtain ⟨-, rfl⟩ := Prod.mk.inj (Option.some.inj h4)
  obtain ⟨rfl, hlen⟩ := take_eq_some h3
  have := hf n mid' b rest h2
  rw [List.length_append]
  omega

/-- The scan, with the input length as its fuel. -/
def scanAux {α : Type} (p : Reader α) : Nat → Bytes → List α × Bytes
  | 0, bs => ([], bs)
  | fuel + 1, bs =>
      match p bs with
      | none => ([], bs)
      | some (a, rest) => (a :: (scanAux p fuel rest).1, (scanAux p fuel rest).2)

/-- Every record at the front of the input, and what is left where the first one fails. -/
def scan {α : Type} (p : Reader α) (bs : Bytes) : List α × Bytes := scanAux p bs.length bs

/-- Any fuel at least the input length gives the same scan. -/
theorem scanAux_eq_scan {α : Type} {p : Reader α} (hc : Consumes p) {fuel : Nat} {bs : Bytes}
    (h : bs.length ≤ fuel) : scanAux p fuel bs = scan p bs := by
  -- both sides take the same branch; the fuels only have to cover the rest
  have key : ∀ (f g : Nat) (bs : Bytes), bs.length ≤ f → bs.length ≤ g →
      scanAux p f bs = scanAux p g bs := by
    intro f
    induction f with
    | zero =>
        intro g bs hf hg
        have hbs : bs = [] := List.length_eq_zero_iff.mp (by omega)
        cases g with
        | zero => rfl
        | succ g =>
            have hnone : p bs = none := by
              cases hp : p bs with
              | none => rfl
              | some q =>
                  obtain ⟨a, rest⟩ := q
                  have := hc bs a rest hp
                  rw [hbs] at this
                  exact absurd this (by simp)
            simp [scanAux, hnone]
    | succ f ih =>
        intro g bs hf hg
        cases hp : p bs with
        | none => cases g <;> simp [scanAux, hp]
        | some q =>
            obtain ⟨a, rest⟩ := q
            have hlt := hc bs a rest hp
            cases g with
            | zero => omega
            | succ g => simp [scanAux, hp, ih g rest (by omega) (by omega)]
  exact key fuel bs.length bs h (Nat.le_refl _)

theorem scan_of_none {α : Type} {p : Reader α} {bs : Bytes} (h : p bs = none) :
    scan p bs = ([], bs) := by
  unfold scan
  cases bs with
  | nil => rfl
  | cons b bs => simp [scanAux, h]

theorem scan_of_some {α : Type} {p : Reader α} (hc : Consumes p) {bs rest : Bytes} {a : α}
    (h : p bs = some (a, rest)) :
    scan p bs = (a :: (scan p rest).1, (scan p rest).2) := by
  have hlt := hc bs a rest h
  obtain ⟨n, hn⟩ : ∃ n, bs.length = n + 1 := ⟨bs.length - 1, by omega⟩
  have hs := @scanAux_eq_scan _ _ hc n rest (by omega)
  rw [scan, hn, scanAux, h]
  simp [hs]

/-- A scan that reads everything goes on into what follows. -/
theorem scan_append {α : Type} {p : Reader α} (hc : Consumes p) (he : Extends p) {as : List α} {bs : Bytes}
    (h : scan p bs = (as, [])) (more : Bytes) :
    scan p (bs ++ more) = (as ++ (scan p more).1, (scan p more).2) := by
  induction hlen : bs.length using Nat.strong_induction_on generalizing bs as with
  | _ n ih =>
      cases hp : p bs with
      | none =>
          rw [scan_of_none hp] at h
          obtain ⟨rfl, rfl⟩ := Prod.mk.inj h
          rfl
      | some q =>
          obtain ⟨a, rest⟩ := q
          rw [scan_of_some hc hp] at h
          obtain ⟨rfl, hrest⟩ := Prod.mk.inj h
          have hshort : rest.length < n := hlen ▸ hc bs a rest hp
          rw [scan_of_some hc (he bs a rest more hp), ih rest.length hshort (Prod.ext rfl hrest) rfl]
          rfl

/-- A scan reads at most one record per byte. -/
theorem scan_length_le {α : Type} {p : Reader α} (hc : Consumes p) (bs : Bytes) :
    (scan p bs).1.length ≤ bs.length := by
  induction hn : bs.length using Nat.strong_induction_on generalizing bs with
  | _ n ih =>
      cases h : p bs with
      | none => simp [scan_of_none h]
      | some q =>
          obtain ⟨a, rest⟩ := q
          have hlt := hc bs a rest h
          have hrest := ih rest.length (by omega) rest rfl
          rw [scan_of_some hc h, List.length_cons]
          omega

/-- **The scan of written records is those records**, whatever unreadable tail follows. -/
theorem scan_flatMap {α : Type} {p : Reader α} (hc : Consumes p) {enc : α → Bytes}
    {as : List α} {tail : Bytes}
    (hp : ∀ a ∈ as, ∀ rest, p (enc a ++ rest) = some (a, rest)) (ht : p tail = none) :
    scan p (as.flatMap enc ++ tail) = (as, tail) := by
  induction as with
  | nil => exact scan_of_none ht
  | cons a as ih =>
      have h1 : p ((a :: as).flatMap enc ++ tail) = some (a, as.flatMap enc ++ tail) := by
        rw [List.flatMap_cons, List.append_assoc]
        exact hp a List.mem_cons_self _
      rw [scan_of_some hc h1, ih (fun b hb => hp b (List.mem_cons_of_mem _ hb))]

end Reader

end Wire
