import NCloud.Lib.Sha2
import NCloud.Frontend.Password

/-!
# The hash functions of `password.h`

`Sha256` keeps what does not fill a block in `buffer_` and goes on from there with the next
`update`. It is the machine of `Blocks` with `transform` for its step, so only the input as
a whole matters, and `transform` is the step of the standard.
-/

namespace NCloud.Frontend.Password

open Wire

/-! ## One block -/

/-- The words as the standard numbers them. -/
def Words.hash (s : Words) : Sha2.Hash := ⟨s.a, s.b, s.c, s.d, s.e, s.f, s.g, s.h⟩

theorem reset_eq : reset.state.hash = Sha2.initial := by decide +kernel

theorem wordAt_eq (b₀ b₁ b₂ b₃ : UInt8) :
    (b₀.toUInt32 <<< 24) ||| (b₁.toUInt32 <<< 16) ||| (b₂.toUInt32 <<< 8) ||| b₃.toUInt32 =
      Sha2.word b₀ b₁ b₂ b₃ := by
  have h₀ : b₀.toNat < 256 := UInt8.toNat_lt_size b₀
  have h₁ : b₁.toNat < 256 := UInt8.toNat_lt_size b₁
  have h₂ : b₂.toNat < 256 := UInt8.toNat_lt_size b₂
  have h₃ : b₃.toNat < 256 := UInt8.toNat_lt_size b₃
  -- from the right: the sum so far is below the next shift
  have h₂₃ : b₂.toNat <<< 8 ||| b₃.toNat = b₂.toNat * 256 + b₃.toNat := by
    rw [← Nat.shiftLeft_add_eq_or_of_lt (by omega), Nat.shiftLeft_eq]
  have h₁₂₃ : b₁.toNat <<< 16 ||| (b₂.toNat * 256 + b₃.toNat) =
      b₁.toNat * 65536 + (b₂.toNat * 256 + b₃.toNat) := by
    rw [← Nat.shiftLeft_add_eq_or_of_lt (by omega), Nat.shiftLeft_eq]
  have hall : b₀.toNat <<< 24 ||| (b₁.toNat * 65536 + (b₂.toNat * 256 + b₃.toNat))
      = b₀.toNat * 16777216 + (b₁.toNat * 65536 + (b₂.toNat * 256 + b₃.toNat)) := by
    rw [← Nat.shiftLeft_add_eq_or_of_lt (by omega), Nat.shiftLeft_eq]
  have hfits : ∀ {b : Nat} (n : Nat), b < 256 → n ≤ 24 → b <<< n % 4294967296 = b <<< n := by
    intro b n hb hn
    have hpow : 2 ^ n ≤ 2 ^ 24 := Nat.pow_le_pow_right (by decide) hn
    rw [Nat.shiftLeft_eq]
    refine Nat.mod_eq_of_lt (Nat.lt_of_lt_of_le (Nat.mul_lt_mul_of_lt_of_le hb hpow (by decide)) (by decide))
  apply UInt32.toNat_inj.mp
  simp only [UInt32.toNat_or, UInt32.toNat_shiftLeft, UInt8.toNat_toUInt32, UInt32.reduceToNat, Nat.reduceMod,
    Nat.reducePow, hfits 24 h₀ (by decide), hfits 16 h₁ (by decide), hfits 8 h₂ (by decide), Nat.or_assoc, h₂₃,
    h₁₂₃, hall]
  rw [Sha2.word, UInt32.toNat_ofNat']
  omega

theorem toUInt8_shiftRight (x : UInt32) {n : UInt32} (hn : n.toNat < 32) :
    (x >>> n).toUInt8 = UInt8.ofNat (x.toNat / 2 ^ n.toNat) := by
  apply UInt8.toNat_inj.mp
  rw [UInt32.toNat_toUInt8, UInt32.toNat_shiftRight, UInt8.toNat_ofNat', Nat.mod_eq_of_lt hn, Nat.shiftRight_eq_div_pow]

/-- A word of the result. -/
theorem bytesOfWord_eq (x : UInt32) : bytesOfWord x = Sha2.bigEndian 4 x.toNat := by
  rw [bytesOfWord, toUInt8_shiftRight x (by decide), toUInt8_shiftRight x (by decide),
    toUInt8_shiftRight x (by decide)]
  have hlow : x.toUInt8 = UInt8.ofNat (x.toNat / 1) := by
    rw [Nat.div_one]
    rfl
  rw [hlow]
  rfl

/-- The length. -/
theorem bytesOfLength_eq {len : Nat} (h : len < 2 ^ 61) :
    bytesOfLength (UInt64.ofNat len * 8) = Sha2.bigEndian 8 (8 * len) := by
  refine List.map_congr_left fun i hi => ?_
  have hlt := List.mem_range.mp hi
  have hbits : (UInt64.ofNat len * 8).toNat = 8 * len := by
    rw [UInt64.toNat_mul, UInt64.toNat_ofNat']
    show len % 2 ^ 64 * 8 % 2 ^ 64 = _
    omega
  have hshift : (UInt64.ofNat (56 - 8 * i)).toNat = 56 - 8 * i := by
    rw [UInt64.toNat_ofNat']
    omega
  have hpow : 2 ^ (56 - 8 * i) = 256 ^ (8 - 1 - i) := by
    have hexp : 56 - 8 * i = 8 * (8 - 1 - i) := by omega
    rw [hexp, Nat.pow_mul]
  have hmod : (56 - 8 * i) % 64 = 56 - 8 * i := Nat.mod_eq_of_lt (by omega)
  apply UInt8.toNat_inj.mp
  rw [UInt64.toNat_toUInt8, UInt64.toNat_shiftRight, UInt8.toNat_ofNat', hbits, hshift, hmod,
    Nat.shiftRight_eq_div_pow, hpow]

/-- The schedule. -/
theorem schedule_eq (block : Bytes) (n : Nat) :
    schedule block n = (List.range (16 + n)).map (Sha2.schedule block) := by
  induction n with
  | zero =>
      refine List.map_congr_left fun i hi => ?_
      rw [Sha2.schedule_of_lt (List.mem_range.mp hi)]
      exact wordAt_eq _ _ _ _
  | succ n ih =>
      have hget : ∀ i, i < 16 + n → (schedule block n).getD i 0 = Sha2.schedule block i := by
        intro i hi
        rw [ih, List.getD_eq_getElem?_getD, List.getElem?_map, List.getElem?_range hi]
        rfl
      have hsum : ∀ w₀ w₁ w₉ w₁₄ : UInt32, w₀ + Sha2.sigma0 w₁ + w₉ + Sha2.sigma1 w₁₄ =
          Sha2.sigma1 w₁₄ + w₉ + Sha2.sigma0 w₁ + w₀ := by
        intro w₀ w₁ w₉ w₁₄
        ac_rfl
      have hnext : Sha2.schedule block (16 + n) = Sha2.schedule block n + Sha2.sigma0 (Sha2.schedule block (n + 1)) +
          Sha2.schedule block (n + 9) + Sha2.sigma1 (Sha2.schedule block (n + 14)) := by
        rw [hsum, Nat.add_comm 16 n, Sha2.schedule_add]
      rw [schedule, hget (n + 1) (by omega), hget (n + 14) (by omega), hget n (by omega), hget (n + 9) (by omega), ih,
        ← Nat.add_assoc, List.range_succ, List.map_append, List.map_singleton, hnext]
      rfl

/-- One turn. -/
theorem round_eq (block : Bytes) (s : Words) (t : Nat) :
    (round s (Sha2.constants.getD t 0, Sha2.schedule block t)).hash = Sha2.step block s.hash t := rfl

/-- **`transform`** is the step of the standard. -/
theorem transform_eq (s : Words) (block : Bytes) : (transform s block).hash = Sha2.compress s.hash block := by
  have hconstants : roundConstants = (List.range 64).map (fun t => Sha2.constants.getD t 0) := by decide +kernel
  have hfold : ∀ (l : List Nat) (s : Words),
      ((l.map (fun t => (Sha2.constants.getD t 0, Sha2.schedule block t))).foldl round s).hash =
        l.foldl (Sha2.step block) s.hash := by
    intro l
    induction l with
    | nil => exact fun _ => rfl
    | cons t l ih =>
        intro s
        rw [List.map_cons, List.foldl_cons, List.foldl_cons, ih, round_eq]
  have hloop : ((roundConstants.zip (schedule block 48)).foldl round s).hash =
      (List.range 64).foldl (Sha2.step block) s.hash := by
    rw [schedule_eq, hconstants, List.zip_map']
    exact hfold _ s
  have hadd : ∀ t : Words, (Words.mk (s.a + t.a) (s.b + t.b) (s.c + t.c) (s.d + t.d) (s.e + t.e) (s.f + t.f)
      (s.g + t.g) (s.h + t.h)).hash = ⟨t.hash.a + s.hash.a, t.hash.b + s.hash.b, t.hash.c + s.hash.c,
        t.hash.d + s.hash.d, t.hash.e + s.hash.e, t.hash.f + s.hash.f, t.hash.g + s.hash.g, t.hash.h + s.hash.h⟩ := by
    intro t
    simp only [Words.hash, UInt32.add_comm]
  rw [transform, hadd, hloop]
  rfl

/-- The words of a digest. -/
theorem bytes_eq (s : Words) : s.bytes =
    [s.hash.a, s.hash.b, s.hash.c, s.hash.d, s.hash.e, s.hash.f, s.hash.g, s.hash.h].flatMap
      (fun x => Sha2.bigEndian 4 x.toNat) := by
  simp only [Words.bytes, bytesOfWord_eq, List.flatMap_cons, List.flatMap_nil, List.append_assoc, List.append_nil]
  rfl

/-! ## The buffer -/

/-- What `update` works on. -/
abbrev feed (q : Words × Bytes) (data : Bytes) : Words × Bytes := Blocks.feed blockSize transform q data

variable {h : Sha256} {data : Bytes}

/-- The loop of `update`, when it may take as many turns as it likes. -/
theorem absorb_eq {fuel : Nat} (hbuffer : h.buffer.length < blockSize) (hfuel : data.length ≤ fuel) :
    absorb fuel h data =
      { h with state := (feed (h.state, h.buffer) data).1, buffer := (feed (h.state, h.buffer) data).2 } := by
  induction fuel generalizing h data with
  | zero =>
      obtain rfl := List.length_eq_zero_iff.mp (Nat.le_zero.mp hfuel)
      rfl
  | succ fuel ih =>
      rw [absorb]
      by_cases hnil : data = []
      · rw [if_pos hnil, hnil]
        rfl
      · have hpos := List.length_pos_iff.mpr hnil
        rw [if_neg hnil]
        generalize htake : min (blockSize - h.buffer.length) data.length = take
        have hsplit := @Blocks.feed_append _ _ blockSize transform (h.state, h.buffer) (data.take take) (data.drop take)
        rw [List.take_append_drop] at hsplit
        have hlen : (data.take take).length = take := by
          rw [List.length_take]
          omega
        have hdrop : (data.drop take).length ≤ fuel := by
          rw [List.length_drop]
          omega
        by_cases hfull : (h.buffer ++ data.take take).length = blockSize
        · have hne : data.take take ≠ [] := by
            intro hzero
            rw [hzero, List.append_nil] at hfull
            omega
          have hsum : h.buffer.length + (data.take take).length = blockSize := by
            rw [← List.length_append]
            exact hfull
          rw [Blocks.feed_of_eq hne hsum] at hsplit
          show (if (h.buffer ++ data.take take).length = blockSize then _ else _) = _
          rw [if_pos hfull, ih (by show 0 < 64; decide) hdrop]
          simp only [feed, hsplit]
        · have hlt : h.buffer.length + (data.take take).length < blockSize := by
            rw [List.length_append] at hfull
            omega
          rw [Blocks.feed_of_lt hlt] at hsplit
          have hroom : (h.buffer ++ data.take take).length < blockSize := by
            rw [List.length_append]
            exact hlt
          show (if (h.buffer ++ data.take take).length = blockSize then _ else _) = _
          rw [if_neg hfull, ih hroom hdrop]
          simp only [feed, hsplit]

/-- **`update`**. -/
theorem update_eq (hbuffer : h.buffer.length < blockSize) (data : Bytes) :
    update h data =
      ⟨(feed (h.state, h.buffer) data).1, (feed (h.state, h.buffer) data).2,
        h.totalBits + UInt64.ofNat data.length * 8⟩ := by
  have hloop := @absorb_eq { h with totalBits := h.totalBits + UInt64.ofNat data.length * 8 } data data.length hbuffer
    (Nat.le_refl _)
  rw [update, hloop]

theorem length_buffer_update (hbuffer : h.buffer.length < blockSize) (data : Bytes) :
    (update h data).buffer.length = (h.buffer.length + data.length) % blockSize := by
  rw [update_eq hbuffer]
  exact Blocks.length_feed (show (h.state, h.buffer).2.length < blockSize from hbuffer) data

theorem length_buffer_update_lt (hbuffer : h.buffer.length < blockSize) (data : Bytes) :
    (update h data).buffer.length < blockSize := by
  rw [length_buffer_update hbuffer]
  exact Nat.mod_lt _ (by decide)

/-- The calls of `update` one after the other. -/
theorem updates_eq (hbuffer : h.buffer.length < blockSize) (pieces : List Bytes) :
    pieces.foldl update h =
      ⟨(feed (h.state, h.buffer) pieces.flatten).1, (feed (h.state, h.buffer) pieces.flatten).2,
        h.totalBits + UInt64.ofNat pieces.flatten.length * 8⟩ := by
  induction pieces generalizing h with
  | nil =>
      show h = ⟨h.state, h.buffer, h.totalBits + UInt64.ofNat 0 * 8⟩
      have hzero : h.totalBits + UInt64.ofNat 0 * 8 = h.totalBits := UInt64.add_zero _
      rw [hzero]
  | cons data pieces ih =>
      have hbits : h.totalBits + UInt64.ofNat data.length * 8 + UInt64.ofNat pieces.flatten.length * 8 =
          h.totalBits + UInt64.ofNat (data ++ pieces.flatten).length * 8 := by
        rw [List.length_append, UInt64.ofNat_add, UInt64.add_mul, UInt64.add_assoc]
      rw [List.foldl_cons, ih (length_buffer_update_lt hbuffer data), update_eq hbuffer, List.flatten_cons, hbits]
      simp only [feed, Blocks.feed_append]

/-! ## The padding -/

/-- How many turns the padding loop takes. -/
def turns (len : Nat) : Nat := (120 - len) % 64

theorem turns_succ {len : Nat} (hlen : len < 64) (hne : len ≠ 56) : turns len = turns ((len + 1) % 64) + 1 := by
  unfold turns
  omega

/-- **The padding loop ends by itself**, at 56 bytes, if it may take this many turns. -/
theorem padZeros_eq {fuel : Nat} (hbuffer : h.buffer.length < blockSize) (hfuel : turns h.buffer.length ≤ fuel) :
    (padZeros fuel h).buffer.length = 56 ∧
      ((padZeros fuel h).state, (padZeros fuel h).buffer) =
        feed (h.state, h.buffer) (List.replicate (turns h.buffer.length) 0) := by
  induction fuel generalizing h with
  | zero =>
      have hzero := Nat.le_zero.mp hfuel
      have hfull : h.buffer.length = 56 := by
        unfold turns at hzero
        unfold blockSize at hbuffer
        omega
      rw [hzero]
      exact ⟨hfull, rfl⟩
  | succ fuel ih =>
      rw [padZeros]
      by_cases hfull : h.buffer.length = 56
      · rw [if_pos hfull, hfull]
        exact ⟨rfl, rfl⟩
      · have hlen := length_buffer_update hbuffer [0]
        have hturns : turns h.buffer.length = turns (update h [0]).buffer.length + 1 := by
          rw [hlen]
          exact turns_succ hbuffer hfull
        obtain ⟨hend, hstate⟩ := ih (length_buffer_update_lt hbuffer [0]) (by omega)
        rw [if_neg hfull]
        refine ⟨hend, hstate.trans ?_⟩
        rw [hturns, List.replicate_succ]
        generalize turns (update h [0]).buffer.length = k
        rw [update_eq hbuffer]
        rfl

theorem turns_le (len : Nat) : turns len ≤ blockSize := by
  unfold turns blockSize
  omega

/-- The padding and the length, after `len` bytes have been taken. -/
theorem final_eq (hbuffer : h.buffer.length < blockSize) :
    final h = (feed (h.state, h.buffer)
      (0x80 :: (List.replicate (turns ((h.buffer.length + 1) % 64)) 0 ++ bytesOfLength h.totalBits))).1.bytes := by
  have hlt := length_buffer_update_lt hbuffer [0x80]
  obtain ⟨hend, hstate⟩ := padZeros_eq hlt (turns_le _)
  rw [length_buffer_update hbuffer] at hstate
  have hfull : (padZeros blockSize (update h [0x80])).buffer.length + (bytesOfLength h.totalBits).length = blockSize := by
    rw [hend]
    rfl
  have hlast := @Blocks.feed_of_eq _ _ blockSize transform (padZeros blockSize (update h [0x80])).state
    (padZeros blockSize (update h [0x80])).buffer (bytesOfLength h.totalBits) nofun hfull
  have hall : feed (h.state, h.buffer)
      ([0x80] ++ (List.replicate (turns ((h.buffer.length + 1) % 64)) 0 ++ bytesOfLength h.totalBits)) =
      (transform (padZeros blockSize (update h [0x80])).state
        ((padZeros blockSize (update h [0x80])).buffer ++ bytesOfLength h.totalBits), []) := by
    rw [← hlast, hstate, update_eq hbuffer]
    simp only [feed, Blocks.feed_append]
    rfl
  rw [← List.singleton_append, hall]
  rfl

/-! ## Messages -/

theorem turns_eq_zeros (len : Nat) : turns ((len % 64 + 1) % 64) = Sha2.zeros len := by
  unfold turns Sha2.zeros
  omega

theorem hash_foldl (blocks : List Bytes) (s : Words) :
    (blocks.foldl transform s).hash = blocks.foldl Sha2.compress s.hash := by
  induction blocks generalizing s with
  | nil => rfl
  | cons b blocks ih => rw [List.foldl_cons, List.foldl_cons, ih, transform_eq]

/-- The padded message as the input. -/
theorem final_reset (m : Bytes) (hlen : m.length < 2 ^ 61) {h : Sha256}
    (hstate : (h.state, h.buffer) = feed (reset.state, []) m) (hbits : h.totalBits = UInt64.ofNat m.length * 8) :
    final h = Sha2.digest m := by
  have hwaits : h.buffer.length = m.length % 64 := by
    have hempty : ([] : Bytes).length < blockSize := by decide
    have hfed := @Blocks.length_feed _ _ blockSize transform (reset.state, []) hempty m
    rw [List.length_nil, Nat.zero_add] at hfed
    exact (congrArg (fun q => q.2.length) hstate).trans hfed
  have hbuffer : h.buffer.length < blockSize := by
    rw [hwaits]
    exact Nat.mod_lt _ (by decide)
  have hinput : feed (h.state, h.buffer)
      (0x80 :: (List.replicate (turns ((h.buffer.length + 1) % 64)) 0 ++ bytesOfLength h.totalBits)) =
      feed (reset.state, []) (Sha2.pad m) := by
    rw [hstate, hwaits, turns_eq_zeros, hbits, bytesOfLength_eq hlen, Sha2.pad]
    simp only [feed, Blocks.feed_append]
  have hblocks : feed (reset.state, []) (Sha2.pad m) = ((Pieces.cut 64 (Sha2.pad m)).foldl transform reset.state, []) :=
    Blocks.feed_cut (by decide) (Sha2.dvd_length_pad m) reset.state
  rw [final_eq hbuffer, hinput, hblocks, bytes_eq, hash_foldl, reset_eq]
  rfl

/-- **SHA-256.** However a message is cut into calls of `update`, what `final` returns is the
digest of the message as a whole. The loops end by themselves: the buffer never stays full,
and then `update` takes all its input and the padding gets to 56 bytes. -/
theorem final_updates (pieces : List Bytes) (hlen : pieces.flatten.length < 2 ^ 61) :
    final (pieces.foldl update reset) = Sha2.digest pieces.flatten ∧
      (∀ before, before <+: pieces → (before.foldl update reset).buffer.length < blockSize) ∧
      ∀ h : Sha256, h.buffer.length < blockSize →
        (∀ data fuel, data.length ≤ fuel → absorb fuel h data = absorb data.length h data) ∧
        ∀ fuel, blockSize ≤ fuel → (padZeros fuel h).buffer.length = 56 := by
  have hreset : reset.buffer.length < blockSize := by decide
  refine ⟨?_, ?_, ?_⟩
  · rw [updates_eq hreset]
    refine final_reset pieces.flatten hlen rfl ?_
    exact UInt64.zero_add _
  · intro before _
    rw [updates_eq hreset]
    have hlength := @Blocks.length_feed _ _ blockSize transform (reset.state, reset.buffer) hreset before.flatten
    show (feed (reset.state, reset.buffer) before.flatten).2.length < blockSize
    rw [hlength]
    exact Nat.mod_lt _ (by decide)
  · intro h hbuffer
    refine ⟨fun data fuel hfuel => ?_, fun fuel hfuel => ?_⟩
    · rw [absorb_eq hbuffer hfuel, absorb_eq hbuffer (Nat.le_refl _)]
    · exact (padZeros_eq hbuffer (Nat.le_trans (turns_le _) hfuel)).1

/-- The second vector of the self test, cut in the middle. -/
theorem final_updates_abc : final ([[97], [], [98, 99]].foldl update reset) = Sha2.digest [97, 98, 99] :=
  (final_updates [[97], [], [98, 99]] (by decide)).1

example : sha256 [97, 98, 99] =
    [0xba, 0x78, 0x16, 0xbf, 0x8f, 0x1, 0xcf, 0xea, 0x41, 0x41, 0x40, 0xde, 0x5d, 0xae, 0x22, 0x23,
     0xb0, 0x3, 0x61, 0xa3, 0x96, 0x17, 0x7a, 0x9c, 0xb4, 0x10, 0xff, 0x61, 0xf2, 0x0, 0x15, 0xad] := by
  decide +kernel

/-- `sha256` is the function of the standard. -/
theorem sha256_eq {data : Bytes} (hlen : data.length < 2 ^ 61) : sha256 data = Sha2.digest data := by
  have hreset : reset.buffer.length < blockSize := by decide
  rw [sha256, update_eq hreset]
  exact final_reset data hlen rfl (UInt64.zero_add _)

end NCloud.Frontend.Password
