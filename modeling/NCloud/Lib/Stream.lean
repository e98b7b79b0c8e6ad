import NCloud.Lib.Decimal

/-!
# Lines and words

Protocols that mix header lines with raw bytes. A line ends at a line feed and loses one
carriage return in front of it. Its words are read as from a C++ `std::istringstream`:
blanks are skipped, a word goes up to the next blank and a number up to the first
character that is no digit, and once something could not be read nothing can be read
any more.
-/

namespace Wire

/-- Carriage return and line feed. -/
def cr : UInt8 := 13

def lf : UInt8 := 10

/-- The end of a line. -/
def crlf : Bytes := [cr, lf]

/-- A space. -/
def space : UInt8 := 32

/-- `line.pop_back()` if there is a carriage return at the end. -/
def dropCr (line : Bytes) : Bytes := if line.getLast? = some cr then line.dropLast else line

/-- The rest of a line of which `line` has been read; one that gets longer than `limit` is
given up, and so is one that does not end. -/
def readLineFrom (limit : Nat) (line : Bytes) : Reader Bytes
  | [] => none
  | b :: rest =>
      if b = lf then some (dropCr line, rest)
      else if limit < line.length + 1 then none
      else readLineFrom limit (line ++ [b]) rest

/-- A line. -/
def readLine (limit : Nat) : Reader Bytes := readLineFrom limit []

theorem dropCr_append (line : Bytes) : dropCr (line ++ [cr]) = line := by
  rw [dropCr, List.getLast?_concat, if_pos rfl, List.dropLast_concat]

theorem dropCr_of_notMem {line : Bytes} (h : cr ∉ line) : dropCr line = line :=
  if_neg (fun hlast => h (List.mem_of_getLast? hlast))

/-- **What a line is**: everything up to the line feed. -/
theorem readLineFrom_append {limit : Nat} {line body : Bytes} (hlf : lf ∉ body)
    (hlen : line.length + body.length ≤ limit) (rest : Bytes) :
    readLineFrom limit line (body ++ lf :: rest) = some (dropCr (line ++ body), rest) := by
  induction body generalizing line with
  | nil =>
      rw [List.append_nil]
      exact if_pos rfl
  | cons b body ih =>
      have hb : b ≠ lf := fun heq => hlf (heq ▸ List.mem_cons_self)
      rw [List.length_cons] at hlen
      rw [List.cons_append, readLineFrom, if_neg hb, if_neg (by omega),
        ih (fun h => hlf (List.mem_cons_of_mem _ h)) (by rw [List.length_append]; simp; omega),
        List.append_assoc, List.singleton_append]

theorem readLine_append {limit : Nat} {body : Bytes} (hlf : lf ∉ body) (hlen : body.length ≤ limit)
    (rest : Bytes) : readLine limit (body ++ lf :: rest) = some (dropCr body, rest) :=
  readLineFrom_append hlf (by simpa using hlen) rest

/-- A header line. -/
theorem readLine_crlf {limit : Nat} {line : Bytes} (hlf : lf ∉ line) (hlen : line.length < limit)
    (rest : Bytes) : readLine limit (line ++ crlf ++ rest) = some (line, rest) := by
  have hbody : lf ∉ line ++ [cr] := by
    rw [List.mem_append, List.mem_singleton]
    rintro (h | h)
    · exact hlf h
    · exact absurd h (by decide)
  have h : readLine limit (line ++ [cr] ++ lf :: rest) = some (dropCr (line ++ [cr]), rest) :=
    readLine_append hbody (by rw [List.length_append]; exact hlen) rest
  rw [dropCr_append] at h
  rw [← h, crlf, List.append_assoc, List.append_assoc]
  rfl

/-- A line that is too long is not read. -/
theorem readLineFrom_eq_none {limit : Nat} {line body : Bytes} (hlf : lf ∉ body)
    (hline : line.length ≤ limit) (hlen : limit < line.length + body.length) (rest : Bytes) :
    readLineFrom limit line (body ++ rest) = none := by
  induction body generalizing line with
  | nil =>
      rw [List.length_nil] at hlen
      omega
  | cons b body ih =>
      have hb : b ≠ lf := fun heq => hlf (heq ▸ List.mem_cons_self)
      rw [List.cons_append, readLineFrom, if_neg hb]
      split
      · rfl
      · rename_i hlong
        rw [List.length_cons] at hlen
        refine ih (fun h => hlf (List.mem_cons_of_mem _ h)) ?_ ?_
        · rw [List.length_append]
          simp
          omega
        · rw [List.length_append]
          simp
          omega

theorem readLine_eq_none {limit : Nat} {body : Bytes} (hlf : lf ∉ body) (hlen : limit < body.length)
    (rest : Bytes) : readLine limit (body ++ rest) = none :=
  readLineFrom_eq_none hlf (Nat.zero_le _) (by simpa using hlen) rest

/-! ## Lines that end with both

Here a line ends only at a carriage return and a line feed; either of them alone is part of
the line.
-/

/-- The lines of a text of which `line` has been read. -/
def splitCrlfFrom (line : Bytes) : Bytes → List Bytes
  | [] => [line]
  | b :: rest =>
      if b = lf ∧ line.getLast? = some cr then line.dropLast :: splitCrlfFrom [] rest
      else splitCrlfFrom (line ++ [b]) rest

/-- The lines of a text; what follows the last line end is one, too. -/
def splitCrlf (s : Bytes) : List Bytes := splitCrlfFrom [] s

/-- The rest of a line of which `line` has been read. -/
def readCrlfFrom (limit : Nat) (line : Bytes) : Reader Bytes
  | [] => none
  | b :: rest =>
      if b = lf ∧ line.getLast? = some cr then some (line.dropLast, rest)
      else if limit < line.length + 1 then none
      else readCrlfFrom limit (line ++ [b]) rest

/-- A line. -/
def readCrlf (limit : Nat) : Reader Bytes := readCrlfFrom limit []

/-- A text without a line end in it. -/
def IsLine (line : Bytes) : Prop := splitCrlf line = [line]

theorem isLine_nil : IsLine [] := by
  rw [IsLine, splitCrlf, splitCrlfFrom]

theorem splitCrlfFrom_ne_nil (line s : Bytes) : splitCrlfFrom line s ≠ [] := by
  induction s generalizing line with
  | nil => exact List.cons_ne_nil _ _
  | cons b s ih =>
      rw [splitCrlfFrom]
      split
      · exact List.cons_ne_nil _ _
      · exact ih _

/-- A line end separates. -/
theorem splitCrlfFrom_append (line a b : Bytes) :
    splitCrlfFrom line (a ++ (crlf ++ b)) = splitCrlfFrom line a ++ splitCrlf b := by
  induction a generalizing line with
  | nil =>
      have hcr : ¬ (cr = lf ∧ line.getLast? = some cr) := fun h => absurd h.1 (by decide)
      have hend : splitCrlfFrom line (cr :: lf :: b) = line :: splitCrlf b := by
        rw [splitCrlfFrom, if_neg hcr, splitCrlfFrom, if_pos ⟨rfl, List.getLast?_concat⟩, List.dropLast_concat]
        rfl
      exact hend
  | cons c a ih =>
      rw [List.cons_append, splitCrlfFrom, splitCrlfFrom]
      split
      · rw [ih, List.cons_append]
      · exact ih _

theorem splitCrlf_append (a b : Bytes) : splitCrlf (a ++ (crlf ++ b)) = splitCrlf a ++ splitCrlf b :=
  splitCrlfFrom_append [] a b

/-- The lines with their ends are the text. -/
theorem flatMap_splitCrlfFrom (line s : Bytes) :
    (splitCrlfFrom line s).flatMap (fun l => l ++ crlf) = line ++ s ++ crlf := by
  induction s generalizing line with
  | nil =>
      rw [splitCrlfFrom, List.flatMap_singleton, List.append_nil]
  | cons b s ih =>
      rw [splitCrlfFrom]
      split
      · rename_i hend
        obtain ⟨rfl, hlast⟩ := hend
        obtain ⟨front, rfl⟩ := List.getLast?_eq_some_iff.mp hlast
        rw [List.flatMap_cons, ih, List.dropLast_concat, crlf]
        simp only [List.append_assoc, List.cons_append, List.nil_append]
      · rw [ih]
        simp only [List.append_assoc, List.cons_append, List.nil_append]

theorem flatMap_splitCrlf (s : Bytes) : (splitCrlf s).flatMap (fun l => l ++ crlf) = s ++ crlf :=
  flatMap_splitCrlfFrom [] s

theorem mem_of_mem_splitCrlf {s l : Bytes} {b : UInt8} (hl : l ∈ splitCrlf s) (hb : b ∈ l) (hcrlf : b ∉ crlf) :
    b ∈ s := by
  have hmem : b ∈ (splitCrlf s).flatMap (fun l => l ++ crlf) :=
    List.mem_flatMap.mpr ⟨l, hl, List.mem_append_left crlf hb⟩
  rw [flatMap_splitCrlf, List.mem_append] at hmem
  exact hmem.resolve_right hcrlf

/-- What has been read of a line that goes on. -/
theorem splitCrlfFrom_of_single {acc line : Bytes} (h : splitCrlfFrom acc line = [acc ++ line]) (s : Bytes) :
    splitCrlfFrom acc (line ++ s) = splitCrlfFrom (acc ++ line) s := by
  induction line generalizing acc with
  | nil => rw [List.nil_append, List.append_nil]
  | cons b line ih =>
      rw [splitCrlfFrom] at h
      rw [List.cons_append, splitCrlfFrom]
      split at h
      · exact absurd (List.cons.inj h).2 (splitCrlfFrom_ne_nil _ _)
      · rename_i hgo
        rw [if_neg hgo, ih (by rw [h, List.append_assoc, List.singleton_append]), List.append_assoc,
          List.singleton_append]

theorem IsLine.of_append {acc a b : Bytes} (h : splitCrlfFrom acc (a ++ b) = [acc ++ (a ++ b)]) :
    splitCrlfFrom acc a = [acc ++ a] := by
  induction a generalizing acc with
  | nil => rw [List.append_nil, splitCrlfFrom]
  | cons c a ih =>
      rw [List.cons_append, splitCrlfFrom] at h
      rw [splitCrlfFrom]
      split at h
      · exact absurd (List.cons.inj h).2 (splitCrlfFrom_ne_nil _ _)
      · rename_i hgo
        rw [if_neg hgo, ih (by rw [h, List.append_assoc, List.singleton_append]), List.append_assoc,
          List.singleton_append]

/-- **The lines of a text are lines.** -/
theorem isLine_of_mem_splitCrlfFrom {line s l : Bytes} (hline : IsLine line) (h : l ∈ splitCrlfFrom line s) :
    IsLine l := by
  induction s generalizing line with
  | nil =>
      rw [List.mem_singleton.mp h]
      exact hline
  | cons b s ih =>
      rw [splitCrlfFrom] at h
      split at h
      · rename_i hend
        obtain ⟨rfl, hlast⟩ := hend
        obtain ⟨front, rfl⟩ := List.getLast?_eq_some_iff.mp hlast
        rcases List.mem_cons.mp h with rfl | h
        · rw [List.dropLast_concat]
          exact @IsLine.of_append [] _ _ hline
        · exact ih isLine_nil h
      · rename_i hgo
        refine ih ?_ h
        have hone := @splitCrlfFrom_of_single [] _ hline [b]
        rw [List.nil_append, splitCrlfFrom, if_neg hgo] at hone
        exact hone

theorem isLine_of_mem_splitCrlf {s l : Bytes} (h : l ∈ splitCrlf s) : IsLine l :=
  isLine_of_mem_splitCrlfFrom isLine_nil h

theorem isLine_of_notMem {s : Bytes} (h : lf ∉ s) : IsLine s := by
  have hfrom : ∀ line, splitCrlfFrom line s = [line ++ s] := by
    induction s with
    | nil =>
        intro line
        rw [List.append_nil, splitCrlfFrom]
    | cons b s ih =>
        intro line
        have hb : ¬ (b = lf ∧ line.getLast? = some cr) := fun hend => h (hend.1 ▸ List.mem_cons_self)
        rw [splitCrlfFrom, if_neg hb, ih (fun hs => h (List.mem_cons_of_mem b hs)), List.append_assoc,
          List.singleton_append]
  exact hfrom []

/-- **A line is read.** -/
theorem readCrlfFrom_append {limit : Nat} {acc line : Bytes} (hline : splitCrlfFrom acc line = [acc ++ line])
    (hlen : acc.length + line.length < limit) (rest : Bytes) :
    readCrlfFrom limit acc (line ++ (crlf ++ rest)) = some (acc ++ line, rest) := by
  induction line generalizing acc with
  | nil =>
      have hcr : ¬ (cr = lf ∧ acc.getLast? = some cr) := fun h => absurd h.1 (by decide)
      rw [List.length_nil] at hlen
      rw [List.nil_append, crlf, List.cons_append, List.cons_append, List.nil_append, readCrlfFrom, if_neg hcr,
        if_neg (by omega), readCrlfFrom, if_pos ⟨rfl, List.getLast?_concat⟩, List.dropLast_concat, List.append_nil]
  | cons b line ih =>
      rw [List.length_cons] at hlen
      rw [splitCrlfFrom] at hline
      split at hline
      · exact absurd (List.cons.inj hline).2 (splitCrlfFrom_ne_nil _ _)
      · rename_i hgo
        have hshape : acc ++ [b] ++ line = acc ++ b :: line := by
          rw [List.append_assoc, List.singleton_append]
        have hlen' : (acc ++ [b]).length + line.length < limit := by
          rw [List.length_append, List.length_singleton]
          omega
        rw [List.cons_append, readCrlfFrom, if_neg hgo, if_neg (by omega), ih (by rw [hline, hshape]) hlen', hshape]

theorem readCrlf_append {limit : Nat} {line : Bytes} (hline : IsLine line) (hlen : line.length < limit) (rest : Bytes) :
    readCrlf limit (line ++ (crlf ++ rest)) = some (line, rest) :=
  @readCrlfFrom_append _ [] _ hline (by simpa using hlen) rest

/-! ## Words -/

/-- The rest of a line, or `none` after something could not be read. -/
abbrev Words := Option Bytes

/-- What is left after blanks. -/
def skipBlanks (s : Bytes) : Bytes := s.dropWhile (fun b => decide (Decimal.IsBlank b))

/-- `ss >> std::string`. -/
def getWord : Words → Bytes × Words
  | none => ([], none)
  | some s =>
      match skipBlanks s with
      | [] => ([], none)
      | b :: rest =>
          ((b :: rest).takeWhile (fun b => ¬ Decimal.IsBlank b),
            some ((b :: rest).dropWhile (fun b => ¬ Decimal.IsBlank b)))

/-- The sign in front of a number. -/
def getSign : Bytes → Bool × Bytes
  | 45 :: s => (true, s)
  | 43 :: s => (false, s)
  | s => (false, s)

/-- `ss >> n` for an unsigned number of so many bits. One that is too large leaves the
largest number there is, one that is no number leaves 0. -/
def getNat (bits : Nat) : Words → Nat × Words
  | none => (0, none)
  | some s =>
      match getSign (skipBlanks s) with
      | (neg, s) =>
          match Decimal.read s with
          | none => (0, none)
          | some n =>
              if 2 ^ bits ≤ n then (2 ^ bits - 1, none)
              else (if neg then (2 ^ bits - n) % 2 ^ bits else n,
                some (s.dropWhile (fun b => decide (Decimal.IsDigit b))))

/-- `ss >> n` for an `int`. -/
def getInt : Words → Int × Words
  | none => (0, none)
  | some s =>
      match getSign (skipBlanks s) with
      | (neg, s) =>
          match Decimal.read s with
          | none => (0, none)
          | some n =>
              if neg then
                if 2 ^ 31 < n then (-2 ^ 31, none)
                else (-n, some (s.dropWhile (fun b => decide (Decimal.IsDigit b))))
              else
                if 2 ^ 31 ≤ n then (2 ^ 31 - 1, none)
                else (n, some (s.dropWhile (fun b => decide (Decimal.IsDigit b))))

/-- A word that can be read back. -/
structure IsWord (w : Bytes) : Prop where
  ne_nil : w ≠ []
  blank : ∀ b ∈ w, ¬ Decimal.IsBlank b

/-- What comes after a word. -/
def EndsWord (rest : Bytes) : Prop := ∀ b, rest.head? = some b → Decimal.IsBlank b

theorem endsWord_nil : EndsWord [] := nofun

theorem endsWord_space (rest : Bytes) : EndsWord (space :: rest) := by
  rintro _ ⟨⟩
  exact .inl rfl

theorem skipBlanks_space (s : Bytes) : skipBlanks (space :: s) = skipBlanks s :=
  List.dropWhile_cons_of_pos (by decide)

theorem skipBlanks_of_not {b : UInt8} (h : ¬ Decimal.IsBlank b) (s : Bytes) : skipBlanks (b :: s) = b :: s :=
  List.dropWhile_cons_of_neg (by simpa using h)

/-- **A word is read back.** -/
theorem getWord_append {w rest : Bytes} (hw : IsWord w) (hrest : EndsWord rest) :
    getWord (some (w ++ rest)) = (w, some rest) := by
  obtain ⟨b, w', rfl⟩ := List.exists_cons_of_ne_nil hw.ne_nil
  have hskip : skipBlanks (b :: w' ++ rest) = b :: w' ++ rest :=
    skipBlanks_of_not (hw.blank b List.mem_cons_self) _
  -- the word ends where the blanks begin
  obtain ⟨htake, hdrop⟩ := Decimal.cut_append (p := fun b => decide (¬ Decimal.IsBlank b))
    (fun c hc => decide_eq_true (hw.blank c hc))
    (fun c hc => decide_eq_false (fun hnot => hnot (hrest c hc)))
  have hword : getWord (some (b :: w' ++ rest)) =
      ((b :: w' ++ rest).takeWhile (fun b => decide (¬ Decimal.IsBlank b)),
        some ((b :: w' ++ rest).dropWhile (fun b => decide (¬ Decimal.IsBlank b)))) := by
    rw [getWord, hskip]
    rfl
  rw [hword, htake, hdrop]

theorem getWord_space {w rest : Bytes} (hw : IsWord w) (hrest : EndsWord rest) :
    getWord (some (space :: (w ++ rest))) = (w, some rest) := by
  have h := getWord_append hw hrest
  rw [getWord] at h ⊢
  rw [skipBlanks_space]
  exact h

/-- Neither blanks nor a sign in front of a number. -/
theorem getSign_text (n : Nat) (rest : Bytes) :
    getSign (skipBlanks (Decimal.text n ++ rest)) = (false, Decimal.text n ++ rest) := by
  obtain ⟨b, ds, htext, hb⟩ := Decimal.text_cons n
  have hblank := Decimal.not_isBlank_of_isDigit hb
  rw [htext, List.cons_append, skipBlanks_of_not hblank]
  have hlow : (48 : Nat) ≤ b.toNat := UInt8.le_iff_toNat_le.mp hb.1
  unfold getSign
  split
  · rename_i heq
    obtain ⟨rfl, -⟩ := List.cons.inj heq
    exact absurd hlow (by decide)
  · rename_i heq
    obtain ⟨rfl, -⟩ := List.cons.inj heq
    exact absurd hlow (by decide)
  · rfl

/-- **A number is read back.** -/
theorem getNat_text {bits n : Nat} (hn : n < 2 ^ bits) {rest : Bytes} (hrest : EndsWord rest) :
    getNat bits (some (Decimal.text n ++ rest)) = (n, some rest) := by
  have hdigit : ∀ b, rest.head? = some b → ¬ Decimal.IsDigit b := by
    intro b hb hd
    exact Decimal.not_isBlank_of_isDigit hd (hrest b hb)
  rw [getNat, getSign_text]
  dsimp only
  rw [Decimal.read_text n hdigit, (Decimal.cut_text n hdigit).2]
  exact if_neg (Nat.not_le.mpr hn)

theorem getNat_space {bits n : Nat} (hn : n < 2 ^ bits) {rest : Bytes} (hrest : EndsWord rest) :
    getNat bits (some (space :: (Decimal.text n ++ rest))) = (n, some rest) := by
  have h := getNat_text hn hrest
  rw [getNat] at h ⊢
  rw [skipBlanks_space]
  exact h

/-- A number has no line feed in it. -/
theorem lf_notMem_text (n : Nat) : lf ∉ Decimal.text n := fun h =>
  absurd (Decimal.isDigit_of_mem_digits h) (by decide)

end Wire
