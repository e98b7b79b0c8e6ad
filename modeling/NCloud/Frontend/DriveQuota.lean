import NCloud.Frontend.DriveUsage

/-!
# The quota of a drive

How much a drive holds is kept twice, in the lists and in the counter `used_bytes`. An
upload takes the counter and adds to it, a delete takes what it has freed from it, and
where the quota would be exceeded, or is asked for, the counter is set to what a
traversal finds. `Books` says that the two agree and stay within the limit.

The traversal does not come to what is more than 4096 levels below the root. So the
books are only kept while no file with bytes in it is that deep.
-/

namespace NCloud.Frontend.Drive

open Process Wire KeyValue

variable {user r : Bytes} {used : Bytes → Prop} {s s' : Store Cell Bytes} {T : Nat}

/-! ## Requests -/

/-- What `handle_quota_status` answers. -/
structure Quota where
  limitBytes : Nat
  usedBytes : Nat
  remainingBytes : Nat

/-- `handle_quota_status`. -/
def handleQuotaStatus (user : Bytes) : FeProg (Except String Quota) := do
  match ← getStatus (.root user) with
  | .unavailable => return .error "storage temporarily unavailable, please try again"
  | _ =>
      let limitBytes ← userDriveQuotaBytes user
      let usedBytes ← userDriveUsedBytesReconciled user
      return .ok ⟨limitBytes, usedBytes, if usedBytes ≥ limitBytes then 0 else limitBytes - usedBytes⟩

/-- `kMaxQuotaMB`. -/
def maxQuotaMb : Nat := defaultDriveQuotaBytes / mib

/-- `handle_quota_update`. -/
def handleQuotaUpdate (user limit : Bytes) : FeProg (Except String Quota) := do
  let limitMb := parseSizeOr limit 0
  if limitMb = 0 ∨ limitMb > maxQuotaMb then return .error "limit must be between 1 and 5120 MB"
  let newLimit := sizeT (limitMb * mib)
  let usedBytes ← userDriveUsedBytesReconciled user
  if newLimit < usedBytes then return .error "new quota is below current usage"
  if !(← put (.quotaBytes user) (Decimal.text newLimit)) then return .error "failed to persist quota"
  handleQuotaStatus user

/-! ## The books -/

/-- The limit as it is stored. -/
def limitOf (user : Bytes) (s : Store Cell Bytes) : Nat :=
  parseSizeOr ((s (.quotaBytes user)).getD []) defaultDriveQuotaBytes

theorem run_userDriveQuotaBytes (user : Bytes) (s : Store Cell Bytes) :
    run (userDriveQuotaBytes user) s = (limitOf user s, s) := by
  rw [userDriveQuotaBytes, run_bind, run_getStr]
  rfl

/-- The files below `r` have `T` bytes, and their sizes are stored. -/
structure Held (r : Bytes) (T : Nat) (s : Store Cell Bytes) : Prop where
  top : typeOf s r ≠ file
  sized : ∀ x, Below s r x → typeOf s x = file → Sized s x
  total : Total s r T

/-- No bytes are more than 4096 levels down. -/
def Shallow (r : Bytes) (s : Store Cell Bytes) : Prop :=
  ∀ n x, Level s r n x → weight s x ≠ 0 → n ≤ 4096

/-- The counter is right, or not there yet. -/
def Counted (user : Bytes) (T : Nat) (s : Store Cell Bytes) : Prop :=
  s (.usedBytes user) = some (Decimal.text T) ∨ s (.usedBytes user) = none ∧ T = 0

/-- The books of a drive. -/
structure Books (user r : Bytes) (T : Nat) (s : Store Cell Bytes) : Prop extends Held r T s where
  shallow : Shallow r s
  counter : Counted user T s
  fits : T ≤ limitOf user s
  cap : limitOf user s ≤ defaultDriveQuotaBytes

/-- The same files in the same places. -/
structure Agree (r : Bytes) (s s' : Store Cell Bytes) : Prop where
  kids : ∀ d, Below s r d → kids s' d = kids s d
  type : ∀ x, Below s r x → x ≠ r → s' (.type x) = s (.type x)
  top : typeOf s r ≠ file → typeOf s' r ≠ file
  size : ∀ x, Below s r x → s' (.size x) = s (.size x)

theorem typeOf_congr {x : Bytes} (h : s' (.type x) = s (.type x)) : typeOf s' x = typeOf s x := by
  rw [typeOf, h]
  rfl

theorem sizeOf_congr {x : Bytes} (h : s' (.size x) = s (.size x)) : sizeOf s' x = sizeOf s x := by
  rw [sizeOf, h]
  rfl

theorem weight_congr {x : Bytes} (ht : s' (.type x) = s (.type x)) (hs : s' (.size x) = s (.size x)) :
    weight s' x = weight s x := by
  rw [weight, weight, typeOf_congr ht, sizeOf_congr hs]

theorem Sized.congr {x : Bytes} (h : Sized s x) (hs : s' (.size x) = s (.size x)) : Sized s' x := by
  obtain ⟨n, hn, hlt⟩ := h
  exact ⟨n, hs.trans hn, hlt⟩

namespace Agree

variable {x : Bytes}

theorem below (h : Agree r s s') : Below s' r x ↔ Below s r x := below_agree h.kids

/-- Files are files. -/
theorem file_iff (h : Agree r s s') (htop : typeOf s r ≠ file) (hx : Below s r x) :
    typeOf s' x = file ↔ typeOf s x = file := by
  by_cases hxr : x = r
  · subst hxr
    exact ⟨fun ht => absurd ht (h.top htop), fun ht => absurd ht htop⟩
  · rw [typeOf_congr (h.type x hx hxr)]

theorem weight (h : Agree r s s') (htop : typeOf s r ≠ file) (hx : Below s r x) :
    Drive.weight s' x = Drive.weight s x := by
  rw [Drive.weight, Drive.weight, sizeOf_congr (h.size x hx)]
  exact if_congr (h.file_iff htop hx) rfl rfl

end Agree

/-- The same files somewhere below the root. -/
theorem Held.congr (h : Held r T s) (hbelow : ∀ x, Below s' r x ↔ Below s r x) (htop : typeOf s' r ≠ file)
    (hfile : ∀ x, Below s r x → (typeOf s' x = file ↔ typeOf s x = file))
    (hsize : ∀ x, Below s r x → s' (.size x) = s (.size x)) : Held r T s' where
  top := htop
  sized := fun x hx ht =>
    have hb := (hbelow x).mp hx
    (h.sized x hb ((hfile x hb).mp ht)).congr (hsize x hb)
  total := h.total.congr
    (fun x => by
      rw [hbelow]
      exact and_congr_right (hfile x))
    (fun x hx _ => sizeOf_congr (hsize x hx))

theorem Held.agree (h : Held r T s) (ha : Agree r s s') : Held r T s' :=
  h.congr (fun _ => ha.below) (ha.top h.top) (fun _ hx => ha.file_iff h.top hx) ha.size

theorem Shallow.agree (h : Shallow r s) (htop : typeOf s r ≠ file) (ha : Agree r s s') : Shallow r s' := by
  intro n x hx hw
  have hl := (Level.agree ha.kids).mp hx
  rw [ha.weight htop hl.toBelow] at hw
  exact h n x hl hw

/-- The counters of a user. -/
structure SameCounters (user : Bytes) (s s' : Store Cell Bytes) : Prop where
  used : s' (.usedBytes user) = s (.usedBytes user)
  quota : s' (.quotaBytes user) = s (.quotaBytes user)

theorem SameCounters.limit (h : SameCounters user s s') : limitOf user s' = limitOf user s := by
  rw [limitOf, h.quota]
  rfl

theorem Counted.congr (h : Counted user T s) (hs : SameCounters user s s') : Counted user T s' := by
  rw [Counted, hs.used]
  exact h

theorem Books.agree (h : Books user r T s) (ha : Agree r s s') (hc : SameCounters user s s') :
    Books user r T s' where
  toHeld := h.toHeld.agree ha
  shallow := h.shallow.agree h.top ha
  counter := h.counter.congr hc
  fits := hc.limit ▸ h.fits
  cap := hc.limit ▸ h.cap

/-! ## Paths -/

/-- What the loop of `resolve_path` comes to. -/
def walkTo (s : Store Cell Bytes) (cur : Bytes) : List Bytes → Option Bytes
  | [] => some cur
  | part :: parts =>
      ((kids s cur).find? (fun c => decide (nameOf s c = part))).bind (fun c => walkTo s c parts)

theorem run_walk (cur : Bytes) (parts : List Bytes) (s : Store Cell Bytes) :
    run (walk cur parts) s = (walkTo s cur parts, s) := by
  induction parts generalizing cur with
  | nil => rfl
  | cons part parts ih =>
      have hkids : splitCsv ((s (.children cur)).getD default) = kids s cur := rfl
      rw [walk, run_bind, run_getStr, hkids, run_bind, run_findChild]
      dsimp only
      rw [walkTo]
      cases (kids s cur).find? (fun c => decide (nameOf s c = part)) with
      | none => rfl
      | some child => exact ih child

/-- A path of so many parts leads so many levels down. -/
theorem level_of_walkTo {cur x : Bytes} {parts : List Bytes} (h : walkTo s cur parts = some x) :
    Level s cur parts.length x := by
  induction parts generalizing cur with
  | nil =>
      obtain rfl : cur = x := Option.some.inj h
      exact .self
  | cons part parts ih =>
      obtain ⟨c, hc, hx⟩ := Option.bind_eq_some_iff.mp h
      exact Level.succ_iff.mpr ⟨c, List.mem_of_find?_eq_some hc, ih hx⟩

theorem find?_named_congr {l : List Bytes} (h : ∀ x ∈ l, nameOf s' x = nameOf s x) (part : Bytes) :
    l.find? (fun c => decide (nameOf s' c = part)) = l.find? (fun c => decide (nameOf s c = part)) := by
  induction l with
  | nil => rfl
  | cons c l ih =>
      rw [List.find?_cons, List.find?_cons, h c List.mem_cons_self,
        ih (fun x hx => h x (List.mem_cons_of_mem _ hx))]

theorem walkTo_congr (hkids : ∀ d, kids s' d = kids s d)
    (hname : ∀ d, ∀ x ∈ kids s d, nameOf s' x = nameOf s x) (cur : Bytes) (parts : List Bytes) :
    walkTo s' cur parts = walkTo s cur parts := by
  induction parts generalizing cur with
  | nil => rfl
  | cons part parts ih =>
      rw [walkTo, walkTo, hkids, find?_named_congr (hname cur)]
      exact Option.bind_congr (fun c _ => ih c)

/-- The cells of the root. -/
def RootCell (user r : Bytes) : Cell → Prop
  | .root u => u = user
  | .type x => x = r
  | .name x => x = r
  | .parent x => x = r
  | .owner x => x = r
  | .children x => x = r
  | _ => False

/-- The root is there, and nothing but its own cells has been written. -/
structure Reopened (user r : Bytes) (used : Bytes → Prop) (s s' : Store Cell Bytes) : Prop
    extends Opened user r used s s' where
  frame : ∀ k, ¬ RootCell user r k → s' k = s k

namespace Reopened

theorem trans {s₁ s₂ s₃ : Store Cell Bytes} (h₁ : Reopened user r used s₁ s₂)
    (h₂ : Reopened user r used s₂ s₃) : Reopened user r used s₁ s₃ :=
  ⟨h₁.toOpened.trans h₂.toOpened, fun k hk => (h₂.frame k hk).trans (h₁.frame k hk)⟩

theorem agree (h : Reopened user r used s s') : Agree r s s' where
  kids := fun d _ => h.same d
  type := fun x _ hx => h.frame (.type x) hx
  top := fun _ => by
    rw [typeOf, h.rooted.root_folder]
    exact (by decide : folder ≠ file)
  size := fun x _ => h.frame (.size x) id

theorem counters (h : Reopened user r used s s') : SameCounters user s s' :=
  ⟨h.frame _ id, h.frame _ id⟩

theorem walkTo (h : Reopened user r used s s') (cur : Bytes) (parts : List Bytes) :
    Drive.walkTo s' cur parts = Drive.walkTo s cur parts := by
  refine walkTo_congr h.same (fun d x hx => nameOf_congr (h.frame (.name x) ?_)) cur parts
  exact h.rooted.ne_root (h.same d ▸ hx : x ∈ Drive.kids s' d)

end Reopened

theorem written_of_notMem {l : List (Cell × Bytes)} {k : Cell} (h : ∀ e ∈ l, e.1 ≠ k) :
    written s l k = s k := by
  induction l generalizing s with
  | nil => rfl
  | cons e l ih =>
      show written (Function.update s e.1 (some e.2)) l k = s k
      rw [ih (fun e' he' => h e' (List.mem_cons_of_mem _ he'))]
      exact Function.update_of_ne (Ne.symm (h e List.mem_cons_self)) ..

theorem rootCell_of_mem {e : Cell × Bytes} (h : e ∈ rootCells user r) : RootCell user r e.1 := by
  simp only [rootCells, List.mem_cons, List.not_mem_nil, or_false] at h
  rcases h with rfl | rfl | rfl | rfl <;> rfl

/-- Cells of the root are written in a row. -/
theorem written_frame {l : List (Cell × Bytes)} (h : ∀ e ∈ l, RootCell user r e.1) {k : Cell}
    (hk : ¬ RootCell user r k) : written s l k = s k :=
  written_of_notMem (fun e he heq => hk (heq ▸ h e he))

/-- The list of a root that has been found. -/
theorem ends_rootChildren_frame {f : Read Bytes → FeProg (Option Bytes)} {s₀ : Store Cell Bytes}
    (h : ∀ k, ¬ RootCell user r k → s k = s₀ k) (hfound : ∀ v, f (.found v) = pure (some r))
    (hmiss : f .notFound = put (.children r) [] >>= fun ok => if !ok then pure none else pure (some r)) :
    Ends (getStatus (.children r) >>= f) (fun _ s' => ∀ k, ¬ RootCell user r k → s' k = s₀ k) s := by
  refine Ends.bind ?_
  rw [Ends, run_getStatus]
  cases s (.children r) with
  | some v =>
      show Ends (f (.found v)) _ s
      rw [hfound]
      exact h
  | none =>
      show Ends (f .notFound) _ s
      rw [hmiss]
      refine ends_put (fun k hk => (Function.update_of_ne ?_ ..).trans (h k hk))
      rintro rfl
      exact hk rfl

theorem ends_ensureDriveRoot_frame (h : Tree user r used s) :
    Ends (ensureDriveRoot user) (fun _ s' => ∀ k, ¬ RootCell user r k → s' k = s k) s := by
  refine Ends.bind ?_
  rw [Ends, run_getStatus]
  have hcells : ∀ k, ¬ RootCell user r k → written s (rootCells user r) k = s k :=
    fun k hk => written_frame (fun _ he => rootCell_of_mem he) hk
  rcases h.root with hroot | ⟨hroot, hnew, -⟩
  · rw [hroot]
    show Ends (if r = [] then _ else _) _ s
    rw [if_neg h.root_ne]
    refine Ends.bind ?_
    rw [Ends, run_getStatus]
    cases s (.type r) with
    | none =>
        refine Ends.bind ?_
        rw [Ends, run_putAll]
        exact ends_rootChildren_frame hcells (fun _ => rfl) rfl
    | some t =>
        show Ends (if t ≠ folder then _ else _) _ s
        split
        · refine Ends.bind ?_
          rw [Ends, run_putAll]
          exact ends_rootChildren_frame hcells (fun _ => rfl) rfl
        · exact ends_rootChildren_frame (fun _ _ => rfl) (fun _ => rfl) rfl
  · rw [hroot]
    refine Ends.bind ?_
    rw [Ends, run_putAll, ← hnew]
    refine fun k hk => written_frame (fun e he => ?_) hk
    rcases List.mem_append.mp he with he | he
    · rcases List.mem_cons.mp he with rfl | he
      · rfl
      · exact rootCell_of_mem he
    · rw [List.mem_singleton.mp he]
      rfl

theorem ends_ensureDriveRoot_reopened (h : Tree user r used s) :
    Ends (ensureDriveRoot user) (fun o s' => o = some r ∧ Reopened user r used s s') s :=
  ((ends_ensureDriveRoot h).and (ends_ensureDriveRoot_frame h)).mono
    (fun _ _ hs => ⟨hs.1.1, hs.1.2, hs.2⟩)

/-- **`resolve_path`**, exactly. -/
theorem ends_resolvePath_walkTo (h : Tree user r used s) (path : Bytes) :
    Ends (resolvePath user path) (fun o s' => Reopened user r used s s' ∧
      o = (walkTo s r (pathParts path)).map (fun x => (x, typeOf s' x))) s := by
  refine Ends.bind ((ends_ensureDriveRoot_reopened h).mono ?_)
  rintro _ s₁ ⟨rfl, hopen⟩
  show Ends (if path = [] ∨ path = [slash] then _ else _) _ s₁
  split
  · rename_i hpath
    have hparts : pathParts path = [] := by
      rcases hpath with rfl | rfl
      · rfl
      · rfl
    have htype : typeOf s₁ r = folder := by
      rw [typeOf, hopen.rooted.root_folder]
      rfl
    refine ⟨hopen, ?_⟩
    rw [hparts, walkTo, Option.map_some]
    show some (r, folder) = some (r, typeOf s₁ r)
    rw [htype]
  · refine Ends.bind ?_
    rw [Ends, run_walk, hopen.walkTo]
    dsimp only
    cases walkTo s r (pathParts path) with
    | none => exact ⟨hopen, rfl⟩
    | some cur =>
        refine Ends.bind ?_
        rw [Ends, run_getStr]
        exact ⟨hopen, rfl⟩

/-! ## The counter -/

theorem Books.small (h : Books user r T s) : T ≤ defaultDriveQuotaBytes := h.fits.trans h.cap

theorem Tree.mem_nodes_iff (h : Shallow r s) {x : Bytes} (hw : weight s x ≠ 0) :
    x ∈ nodes s 4097 r ↔ Below s r x := by
  rw [mem_nodes, below_iff_level]
  constructor
  · rintro ⟨k, -, hk⟩
    exact ⟨k, hk⟩
  · rintro ⟨k, hk⟩
    exact ⟨k, Nat.lt_succ_of_le (h k x hk hw), hk⟩

/-- **The traversal of a drive**, if no bytes are too deep. -/
theorem run_subtreeBytesInner_root (htree : Tree user r used s) (h : Books user r T s) :
    run (subtreeBytesInner 4097 r []) s = ((T, (nodes s 4097 r).reverse ++ []), s) := by
  have hsum : T = bytesOf s (nodes s 4097 r) :=
    h.total.eq_bytesOf (htree.branching.nodup_nodes .self 4097) (fun x hx => Tree.mem_nodes_iff h.shallow hx)
  have hsmall := h.small
  rw [run_subtreeBytesInner htree.branching .self (fun _ _ => List.not_mem_nil) ?_ ?_, ← hsum]
  · intro y hy ht
    obtain ⟨k, -, hk⟩ := mem_nodes.mp hy
    exact h.sized y hk.toBelow ht
  · rw [← hsum]
    simp only [defaultDriveQuotaBytes, mib] at hsmall
    omega

/-- **`user_drive_used_bytes`.** -/
theorem ends_userDriveUsedBytes_books (htree : Tree user r used s) (h : Books user r T s) :
    Ends (userDriveUsedBytes user) (fun n s' => n = T ∧ Reopened user r used s s') s := by
  refine Ends.bind ((ends_ensureDriveRoot_reopened htree).mono ?_)
  rintro _ s₁ ⟨rfl, hopen⟩
  refine Ends.bind ?_
  rw [Ends, run_subtreeBytesInner_root hopen.rooted.toTree (h.agree hopen.agree hopen.counters)]
  exact ⟨rfl, hopen⟩

/-- The counter is written. -/
theorem agree_usedBytes (s : Store Cell Bytes) (r user : Bytes) (v : Bytes) :
    Agree r s (Function.update s (.usedBytes user) (some v)) where
  kids := fun _ _ => rfl
  type := fun _ _ _ => rfl
  top := id
  size := fun _ _ => rfl

theorem Held.usedBytes (h : Held r T s) (v : Bytes) : Held r T (Function.update s (.usedBytes user) (some v)) :=
  h.agree (agree_usedBytes s r user v)

theorem Books.usedBytes (h : Books user r T s) :
    Books user r T (Function.update s (.usedBytes user) (some (Decimal.text T))) where
  toHeld := h.toHeld.usedBytes _
  shallow := h.shallow.agree h.top (agree_usedBytes s r user _)
  counter := .inl (Function.update_self ..)
  fits := h.fits
  cap := h.cap

/-- The books are kept, and the counter is there. -/
structure Audited (user r : Bytes) (used : Bytes → Prop) (T : Nat) (s s' : Store Cell Bytes) : Prop where
  tree : Tree user r used s'
  books : Books user r T s'
  counter : s' (.usedBytes user) = some (Decimal.text T)
  walk : ∀ parts, walkTo s' r parts = walkTo s r parts
  kids : ∀ d, kids s' d = kids s d
  type : ∀ x, x ≠ r → s' (.type x) = s (.type x)
  limit : limitOf user s' = limitOf user s

theorem Audited.of_reopened (h : Books user r T s) (hopen : Reopened user r used s s') :
    Audited user r used T s (Function.update s' (.usedBytes user) (some (Decimal.text T))) where
  tree := hopen.rooted.toTree.usedBytes _
  books := (h.agree hopen.agree hopen.counters).usedBytes
  counter := Function.update_self ..
  walk := fun parts => by
    have hsame : walkTo (Function.update s' (.usedBytes user) (some (Decimal.text T))) r parts
        = walkTo s' r parts := by
      refine walkTo_congr ?_ ?_ r parts
      · exact fun _ => rfl
      · exact fun _ _ _ => rfl
    exact hsame.trans (hopen.walkTo r parts)
  kids := hopen.same
  type := fun x hx => hopen.frame (.type x) hx
  limit := hopen.counters.limit

theorem Audited.trans {s₁ s₂ s₃ : Store Cell Bytes} (h₁ : Audited user r used T s₁ s₂)
    (h₂ : Audited user r used T s₂ s₃) : Audited user r used T s₁ s₃ where
  tree := h₂.tree
  books := h₂.books
  counter := h₂.counter
  walk := fun parts => (h₂.walk parts).trans (h₁.walk parts)
  kids := fun d => (h₂.kids d).trans (h₁.kids d)
  type := fun x hx => (h₂.type x hx).trans (h₁.type x hx)
  limit := h₂.limit.trans h₁.limit

/-- **`user_drive_used_bytes_fast`.** -/
theorem ends_userDriveUsedBytesFast_books (htree : Tree user r used s) (h : Books user r T s) :
    Ends (userDriveUsedBytesFast user) (fun n s' => n = T ∧ Audited user r used T s s') s := by
  have hsmall := h.small
  simp only [defaultDriveQuotaBytes, mib] at hsmall
  refine Ends.bind ?_
  rw [Ends, run_getStr]
  rcases h.counter with hcount | ⟨hcount, -⟩
  · rw [hcount, Option.getD_some]
    dsimp only
    rw [Decimal.stoul_text (by omega)]
    exact ⟨rfl, htree, h, hcount, fun _ => rfl, fun _ => rfl, fun _ _ => rfl, rfl⟩
  · rw [hcount]
    refine Ends.bind ((ends_userDriveUsedBytes_books htree h).mono ?_)
    rintro _ s₁ ⟨rfl, hopen⟩
    exact ends_put ⟨rfl, .of_reopened h hopen⟩

/-- **`user_drive_used_bytes_reconciled`.** -/
theorem ends_userDriveUsedBytesReconciled_books (htree : Tree user r used s) (h : Books user r T s) :
    Ends (userDriveUsedBytesReconciled user) (fun n s' => n = T ∧ Audited user r used T s s') s := by
  refine Ends.bind ((ends_userDriveUsedBytes_books htree h).mono ?_)
  rintro n s₁ ⟨hn, hopen⟩
  obtain rfl : T = n := hn.symm
  refine Ends.bind ?_
  rw [Ends, run_getStr]
  show Ends (if (s₁ (.usedBytes user)).getD [] ≠ Decimal.text T then _ else _) _ s₁
  split
  · exact ends_put ⟨rfl, .of_reopened h hopen⟩
  · rename_i hsame
    have hcount : s₁ (.usedBytes user) = some (Decimal.text T) := by
      rcases h.counter.congr hopen.counters with hcount | ⟨hcount, -⟩
      · exact hcount
      · rw [hcount] at hsame
        exact absurd (not_not.mp hsame).symm (Decimal.digits_ne_nil _ _)
    exact ⟨rfl, hopen.rooted.toTree, h.agree hopen.agree hopen.counters, hcount, hopen.walkTo r,
      hopen.same, fun x hx => hopen.frame (.type x) hx, hopen.counters.limit⟩

/-- Small numbers in `int64_t`. -/
theorem int64_eq {n : Int} (hlow : -(2 ^ 63) ≤ n) (hhigh : n < 2 ^ 63) : int64 n = n := by
  have hmod : ((2 ^ 64 : Nat) : Int) = 18446744073709551616 := rfl
  unfold int64
  refine Int.bmod_eq_of_le_mul_two ?_ ?_
  · rw [hmod]
    omega
  · rw [hmod]
    omega

/-- The counter after a change. -/
theorem newUsedBytes_eq {T : Nat} {delta : Int} (hT : T < 2 ^ 62) (hlow : -(2 ^ 62) < delta)
    (hhigh : delta < 2 ^ 62) : newUsedBytes T delta = Decimal.text (T + delta).toNat := by
  have hT' : int64 (T : Int) = T := int64_eq (by omega) (by omega)
  have hsum : int64 (int64 (T : Int) + delta) = T + delta := by
    rw [hT']
    exact int64_eq (by omega) (by omega)
  have hcut : (if (T : Int) + delta > 0 then ((T : Int) + delta).toNat else 0) = (T + delta).toNat := by
    split
    · rfl
    · omega
  rw [newUsedBytes, hsum]
  exact congrArg Decimal.text hcut

/-- **`update_drive_used_bytes`** on a counter that is there. -/
theorem run_updateDriveUsedBytes {delta : Int} (hc : s (.usedBytes user) = some (Decimal.text T))
    (hT : T < 2 ^ 62) (hlow : -(2 ^ 62) < delta) (hhigh : delta < 2 ^ 62) :
    (run (updateDriveUsedBytes user delta) s).2 =
      Function.update s (.usedBytes user) (some (Decimal.text (T + delta).toNat)) := by
  have hnew := newUsedBytes_eq hT hlow hhigh
  unfold updateDriveUsedBytes
  split
  · rename_i hzero
    subst hzero
    rw [Int.add_zero, Int.toNat_natCast, ← hc, Function.update_eq_self]
    rfl
  · rw [updateUsedLoop, run_bind, run_getStatus, hc]
    show (run (if Decimal.text T = newUsedBytes ((Decimal.stoul (Decimal.text T)).getD 0) delta then _
      else _) s).2 = _
    rw [Decimal.stoul_text (by omega), Option.getD_some, hnew]
    split
    · rename_i hsame
      rw [← hsame, ← hc, Function.update_eq_self]
      rfl
    · rw [run_bind, run_cput, if_pos hc, decide_eq_true hc]
      rfl

/-- **The quota check of an upload.** -/
theorem ends_overQuota_books (htree : Tree user r used s) (h : Books user r T s) {size : Nat}
    (hsize : size ≤ maxDriveFileBytes) :
    Ends (overQuota user size) (fun o s' => Audited user r used T s s' ∧
      (o = none ↔ T + size ≤ limitOf user s)) s := by
  have hsmall := h.small
  have hsum : sizeT (T + size) = T + size := by
    refine Nat.mod_eq_of_lt ?_
    simp only [defaultDriveQuotaBytes, maxDriveFileBytes, mib] at hsmall hsize
    omega
  -- the second look finds what the first one has found
  have hdecide : ∀ s₁, Audited user r used T s s₁ →
      Ends (if sizeT (T + size) > limitOf user s then
          (pure (some (sizeT (T + size) - limitOf user s)) : FeProg (Option Nat))
        else pure none)
        (fun o s' => Audited user r used T s s' ∧ (o = none ↔ T + size ≤ limitOf user s)) s₁ := by
    intro s₁ h₁
    rw [hsum]
    split
    · rename_i hgt
      exact ⟨h₁, fun ho => absurd ho (by exact Option.some_ne_none _), fun hle => absurd hle (by omega)⟩
    · rename_i hle
      exact ⟨h₁, fun _ => by omega, fun _ => rfl⟩
  refine Ends.bind ((ends_userDriveUsedBytesFast_books htree h).mono ?_)
  rintro n s₁ ⟨hn, h₁⟩
  obtain rfl : T = n := hn.symm
  refine Ends.bind ?_
  rw [Ends, run_userDriveQuotaBytes, h₁.limit]
  show Ends (if sizeT (T + size) > limitOf user s then _ else _) _ s₁
  split
  · refine Ends.bind ((ends_userDriveUsedBytesReconciled_books h₁.tree h₁.books).mono ?_)
    rintro n s₂ ⟨hn, h₂⟩
    obtain rfl : T = n := hn.symm
    exact hdecide s₂ (h₁.trans h₂)
  · exact hdecide s₁ h₁

end NCloud.Frontend.Drive
