import NCloud.Frontend.DriveRequests

/-!
# The first requests to a drive

Requests of a user who has no drive yet, side by side. `ensure_drive_root` finds no root
and then writes six cells, the last of them an empty list of children. Another request
may have done the same in the meantime, and gone on to list an object there.

As long as a list is only written over or deleted while it is empty (`Meets`), what has
been listed stays listed.
-/

namespace NCloud.Frontend.FirstUse

open Process Wire KeyValue Drive

/-- Requests: those that make an object come with what `drive_new_uid` takes from clock
and counter; `visit` is any other, which only opens the drive. -/
inductive Request where
  | mkdir (path name : Bytes) (ns seq : Nat)
  | upload (path : Bytes) (part : Option FilePart) (ns seq : Nat)
  | visit

variable (user : Bytes)

/-- What they run. A request says which uid it uses. -/
def Request.main : Request → FeProg Unit
  | .mkdir path name ns seq => do
      answer (.mints (driveNewUid ns seq))
      let ans ← handleMkdir user path name (driveNewUid ns seq)
      answer ans
  | .upload path part ns seq => do
      answer (.mints (driveNewUid ns seq))
      let ans ← handleUpload user path part (driveNewUid ns seq)
      answer ans
  | .visit => do
      let root ← ensureDriveRoot user
      answer (.done [] root.isSome)

/-- Who has which uid, and the objects whose requests have answered `"ok":true`. -/
structure Past where
  owner : List (Nat × Bytes)
  stored : List Bytes

/-- What is written down. -/
abbrev watch : Watch Cell Bytes Answer where
  Past := Past
  note := fun i a _ _ p =>
    match a with
    | .answer (.mints uid) => { p with owner := (i, uid) :: p.owner }
    | .answer (.ok uid _) => { p with stored := uid :: p.stored }
    | _ => p

/-- States. -/
abbrev St := Store Cell Bytes × Past

/-- An object is in the list of the folder its parent column names. -/
def InParent (s : Store Cell Bytes) (uid : Bytes) : Prop := ∃ d, s (.parent uid) = some d ∧ uid ∈ kids s d

/-- So are all whose requests have succeeded. -/
def Listed (σ : St) : Prop := ∀ uid ∈ σ.2.stored, InParent σ.1 uid

/-- Operations succeed, uids are new, and a list is written over or deleted only while it
is empty. -/
structure Meets (io : Nat) (a : Act Cell Bytes Answer) (σ : St) : Prop where
  succeeds : 2 ≤ io
  fresh : ∀ uid, a = .answer (.mints uid) → ∀ j, (j, uid) ∉ σ.2.owner
  blind : ∀ d v, a = .put (.children d) v → kids σ.1 d = []
  empty : ∀ d, a = .del (.children d) → kids σ.1 d = []

/-- The invariant. -/
structure Inv (σ : St) : Prop where
  kept : Listed σ
  root : σ.1 (.root user) = none ∨ σ.1 (.root user) = some (newRoot user)
  once : ∀ i j uid, (i, uid) ∈ σ.2.owner → (j, uid) ∈ σ.2.owner → i = j
  ne_root : ∀ i uid, (i, uid) ∈ σ.2.owner → uid ≠ newRoot user
  owned : ∀ uid ∈ σ.2.stored, ∃ i, (i, uid) ∈ σ.2.owner

/-- What others do: lists grow, and a request's own object is left alone. -/
structure Grows (i : Nat) (σ σ' : St) : Prop where
  kids : ∀ d x, x ∈ kids σ.1 d → x ∈ kids σ'.1 d
  owner : ∀ e ∈ σ.2.owner, e ∈ σ'.2.owner
  parent : ∀ uid, (i, uid) ∈ σ.2.owner → σ'.1 (.parent uid) = σ.1 (.parent uid)
  stored : ∀ uid, (i, uid) ∈ σ.2.owner → uid ∉ σ.2.stored → uid ∉ σ'.2.stored

/-- The rules. -/
def rules : Rules watch where
  Inv := Inv user
  Rely := Grows
  Ok := fun _ io a σ => Meets io a σ
  rely_refl := fun _ _ => ⟨fun _ _ h => h, fun _ h => h, fun _ _ => rfl, fun _ _ h => h⟩
  rely_trans := fun h₁ h₂ => ⟨fun d x hx => h₂.kids d x (h₁.kids d x hx), fun e he => h₂.owner e (h₁.owner e he),
    fun uid hu => (h₂.parent uid (h₁.owner _ hu)).trans (h₁.parent uid hu),
    fun uid hu hs => h₂.stored uid (h₁.owner _ hu) (h₁.stored uid hu hs)⟩

variable {user} {i : Nat} {σ σ' : St} {α : Type} {uid : Bytes}

/-- Request `i` works on an object. -/
def Owns (i : Nat) (uid : Bytes) (σ : St) : Prop := (i, uid) ∈ σ.2.owner ∧ uid ∉ σ.2.stored

theorem Owns.mono (h : Owns i uid σ) (hr : Grows i σ σ') : Owns i uid σ' :=
  ⟨hr.owner _ h.1, hr.stored uid h.1 h.2⟩

/-- Or it has none and only touches the root. -/
def Works (user : Bytes) (i : Nat) (uid : Bytes) (σ : St) : Prop := uid = newRoot user ∨ Owns i uid σ

theorem Works.mono (h : Works user i uid σ) (hr : Grows i σ σ') : Works user i uid σ' :=
  h.imp_right (fun h => h.mono hr)

/-! ## Single operations -/

/-- Operations of a request that works on `uid`. -/
def Fine (user uid : Bytes) : Act Cell Bytes Answer → Prop
  | .get _ => True
  | .put (.root _) v => v = newRoot user
  | .put (.parent x) _ => x = newRoot user ∨ x = uid
  | .put _ _ => True
  | .cput (.root _) _ _ => False
  | .cput (.parent _) _ _ => False
  | .cput (.children _) old new => ∀ x ∈ splitCsv old, x ∈ splitCsv new
  | .cput _ _ _ => True
  | .del (.root _) => False
  | .del (.parent x) => x = uid
  | .del _ => True
  | .answer _ => False

/-- Changes of the store that are fine. -/
theorem keeps_store (h : Inv user σ) {s : Store Cell Bytes}
    (hroot : s (.root user) = σ.1 (.root user) ∨ s (.root user) = some (newRoot user))
    (hkids : ∀ d x, x ∈ kids σ.1 d → x ∈ kids s d)
    (hparent : ∀ x, s (.parent x) = σ.1 (.parent x) ∨ Works user i x σ) :
    (rules user).Keeps i σ (s, σ.2) := by
  have hown : ∀ j x, (j, x) ∈ σ.2.owner → j ≠ i ∨ x ∈ σ.2.stored → s (.parent x) = σ.1 (.parent x) := by
    intro j x hj hne
    rcases hparent x with heq | hx | ⟨hi, hs⟩
    · exact heq
    · exact absurd hx (h.ne_root j x hj)
    · rcases hne with hne | hmem
      · exact absurd (h.once j i x hj hi) hne
      · exact absurd hmem hs
  refine ⟨⟨?_, ?_, h.once, h.ne_root, h.owned⟩, ?_⟩
  · intro x hx
    obtain ⟨d, hd, hmem⟩ := h.kept x hx
    obtain ⟨j, hj⟩ := h.owned x hx
    exact ⟨d, (hown j x hj (.inr hx)).trans hd, hkids d x hmem⟩
  · rcases hroot with heq | heq
    · show s (.root user) = none ∨ s (.root user) = some (newRoot user)
      rw [heq]
      exact h.root
    · exact .inr heq
  · intro j hne
    exact ⟨hkids, fun _ he => he, fun x hx => hown j x hx (.inl hne), fun _ _ hs => hs⟩

/-- An empty list can be replaced. -/
theorem kids_of_empty {s : Store Cell Bytes} {d₀ : Bytes} (hempty : kids σ.1 d₀ = [])
    (hsame : ∀ d, d ≠ d₀ → s (.children d) = σ.1 (.children d)) (d x : Bytes) (hx : x ∈ kids σ.1 d) :
    x ∈ kids s d := by
  have hd : d ≠ d₀ := by
    rintro rfl
    rw [hempty] at hx
    exact List.not_mem_nil hx
  rw [kids_congr (hsame d hd)]
  exact hx

/-- **Fine operations keep the rules.** -/
theorem keeps_fine {a : Act Cell Bytes Answer} {io : Nat} (h : Inv user σ) (hok : Meets io a σ)
    (ha : Fine user uid a) (hw : Works user i uid σ) : (rules user).Keeps i σ (after watch i io a σ) := by
  have hio : io ≠ 0 := by
    have := hok.succeeds
    omega
  have hown : ∀ x, x = newRoot user ∨ x = uid → Works user i x σ := by
    rintro x (hx | rfl)
    · exact .inl hx
    · exact hw
  cases a with
  | get k => exact keeps_store h (.inl rfl) (fun _ _ hx => hx) (fun _ => .inl rfl)
  | answer ans => exact ha.elim
  | put k v =>
      -- what is left of cells other than this one
      have hne : ∀ k', k' ≠ k → (exec io σ.1 (.put k v : Act Cell Bytes Answer)).2 k' = σ.1 k' :=
        fun k' hk' => put_of_ne (A := Answer) hk'
      have hself : (exec io σ.1 (.put k v : Act Cell Bytes Answer)).2 k = some v := put_self (A := Answer) hio
      refine keeps_store h ?_ ?_ ?_
      · by_cases hk : k = .root user
        · subst hk
          have hv : v = newRoot user := ha
          exact .inr (hself.trans (congrArg some hv))
        · exact .inl (hne _ (Ne.symm hk))
      · by_cases hk : ∃ d, k = .children d
        · obtain ⟨d₀, rfl⟩ := hk
          exact kids_of_empty (hok.blind d₀ v rfl) (fun d hd => hne _ (by simpa using hd))
        · intro d x hx
          rw [kids_congr (hne (.children d) (fun heq => hk ⟨d, heq.symm⟩))]
          exact hx
      · intro x
        by_cases hk : k = .parent x
        · subst hk
          exact .inr (hown x ha)
        · exact .inl (hne _ (Ne.symm hk))
  | cput k old new =>
      have hne : ∀ k', k' ≠ k → (exec io σ.1 (.cput k old new : Act Cell Bytes Answer)).2 k' = σ.1 k' :=
        fun k' hk' => cput_of_ne (A := Answer) hk'
      refine keeps_store h (.inl (hne _ ?_)) ?_ (fun x => .inl (hne _ ?_))
      · rintro rfl
        exact ha.elim
      · intro d x hx
        by_cases hk : k = .children d
        · subst hk
          rcases cput_self (A := Answer) io σ.1 (.children d) old new with hsame | ⟨hold, hnew⟩
          · rw [kids_congr hsame]
            exact hx
          · rw [kids, hold] at hx
            rw [kids, hnew]
            exact ha x hx
        · rw [kids_congr (hne (.children d) (Ne.symm hk))]
          exact hx
      · rintro rfl
        exact ha.elim
  | del k =>
      have hne : ∀ k', k' ≠ k → (exec io σ.1 (.del k : Act Cell Bytes Answer)).2 k' = σ.1 k' :=
        fun k' hk' => del_of_ne (A := Answer) hk'
      refine keeps_store h (.inl (hne _ ?_)) ?_ ?_
      · rintro rfl
        exact ha.elim
      · by_cases hk : ∃ d, k = .children d
        · obtain ⟨d₀, rfl⟩ := hk
          exact kids_of_empty (hok.empty d₀ rfl) (fun d hd => hne _ (by simpa using hd))
        · intro d x hx
          rw [kids_congr (hne (.children d) (fun heq => hk ⟨d, heq.symm⟩))]
          exact hx
      · intro x
        by_cases hk : k = .parent x
        · subst hk
          exact .inr (hown x (.inr ha))
        · exact .inl (hne _ (Ne.symm hk))

/-- The lists grow under a request's own operations, too. -/
theorem kids_after {a : Act Cell Bytes Answer} {io : Nat} (h : Inv user σ) (hok : Meets io a σ)
    (ha : Fine user uid a) (hw : Works user i uid σ) (d x : Bytes) (hx : x ∈ kids σ.1 d) :
    x ∈ kids (after watch i io a σ).1 d :=
  ((keeps_fine h hok ha hw).rely (i + 1) (Nat.succ_ne_self i)).kids d x hx

/-! ## Programs -/

/-- Clients under these rules. -/
abbrev Safe (user : Bytes) (i : Nat) (p : FeProg α) (Q : α → St → Prop) (σ : St) : Prop :=
  (rules user).Safe (Request.main user) i p Q σ

theorem works_after {a : Act Cell Bytes Answer} {io : Nat} (ha : Fine user uid a) (hw : Works user i uid σ) :
    Works user i uid (after watch i io a σ) := by
  cases a with
  | answer ans => exact ha.elim
  | _ => exact hw

/-- Programs made of fine operations. -/
theorem safe_fine {p : FeProg α} (hp : p.Only (Fine user uid) (fun _ => True)) (hw : Works user i uid σ) :
    Safe user i p (fun _ σ => Works user i uid σ) σ := by
  refine Rules.safe_keep (W := watch) (T := Works user i uid) (fun _ _ hr h => h.mono hr) ?_ hp hw
  intro a σ io ha hi hok hw
  exact ⟨keeps_fine hi hok ha hw, works_after ha hw⟩

/-- Reading, and then the rest. -/
theorem safe_get {k : Cell} {f : Read Bytes → FeProg α} {Q : α → St → Prop} (hw : Works user i uid σ)
    (hf : ∀ (σ₁ : St) r, Grows i σ σ₁ → Works user i uid σ₁ → Inv user σ₁ →
      (∀ v, r = .found v → σ₁.1 k = some v) → Safe user i (f r) Q σ₁) :
    Safe user i (getStatus k >>= f) Q σ := by
  refine Rules.safe_act ?_
  intro σ₁ io hr hi hok
  have hw₁ := hw.mono hr
  exact ⟨keeps_fine (a := .get k) hi hok trivial hw₁, hf σ₁ _ hr hw₁ hi (fun v hv => cell_of_found hv)⟩

/-- Writing, and then the rest. -/
theorem safe_put {k : Cell} {v : Bytes} {f : Bool → FeProg α} {Q : α → St → Prop}
    (hk : Fine user uid (.put k v)) (hw : Works user i uid σ)
    (hf : ∀ σ₁ : St, Works user i uid σ₁ → Inv user σ₁ → σ₁.1 k = some v → Safe user i (f true) Q σ₁) :
    Safe user i (put k v >>= f) Q σ := by
  refine Rules.safe_act ?_
  intro σ₁ io hr hi hok
  have hio := hok.succeeds
  have hkeep := keeps_fine hi hok hk (hw.mono hr)
  refine ⟨hkeep, ?_⟩
  have htrue : (exec io σ₁.1 (.put k v : Act Cell Bytes Answer)).1 = true := decide_eq_true hio
  rw [htrue]
  exact hf _ (works_after hk (hw.mono hr)) hkeep.inv (put_self (A := Answer) (by omega))

/-- Swapping one list for a longer one, and then the rest. -/
theorem safe_cput {d old new : Bytes} {f : Bool → FeProg α} {Q : α → St → Prop}
    (hsub : ∀ x ∈ splitCsv old, x ∈ splitCsv new) (hw : Works user i uid σ)
    (hf : ∀ (σ₁ : St) ok, Works user i uid σ₁ → (ok = true → kids σ₁.1 d = splitCsv new) →
      Safe user i (f ok) Q σ₁) : Safe user i (cput (.children d) old new >>= f) Q σ := by
  refine Rules.safe_act ?_
  intro σ₁ io hr hi hok
  have hkeep := keeps_fine (a := .cput (.children d) old new) hi hok hsub (hw.mono hr)
  refine ⟨hkeep, hf _ _ (works_after (a := .cput (.children d) old new) hsub (hw.mono hr)) (fun h => ?_)⟩
  show kids (exec io σ₁.1 (.cput (.children d) old new : Act Cell Bytes Answer)).2 d = _
  rw [kids, (cput_of_true h).2]
  rfl

/-- One program after another. -/
theorem safe_bind {β : Type} {p : FeProg α} {f : α → FeProg β} {Q : β → St → Prop} {R : α → St → Prop}
    (hp : Safe user i p R σ) (hi : Inv user σ)
    (hf : ∀ a σ₁, Inv user σ₁ → R a σ₁ → Safe user i (f a) Q σ₁) : Safe user i (p >>= f) Q σ :=
  Logic.Safe.bind (hp.weaken (fun a σ₁ _ hR hi₁ => hf a σ₁ hi₁ hR)) hi

theorem fine_of_isGet (a : Act Cell Bytes Answer) (h : IsGet a) : Fine user uid a := by
  cases a with
  | get k => trivial
  | _ => exact h.elim

theorem only_fine_of_gets {p : FeProg α} (hp : p.Only IsGet (fun _ => True)) :
    p.Only (Fine user uid) (fun _ => True) :=
  hp.mono fine_of_isGet (fun _ h => h)

/-- Writes in a row. -/
theorem only_putAll {l : List (Cell × Bytes)} (h : ∀ e ∈ l, Fine user uid (.put e.1 e.2)) :
    (putAll l).Only (Fine user uid) (fun _ => True) := by
  induction l with
  | nil => trivial
  | cons e l ih =>
      obtain ⟨k, v⟩ := e
      refine ⟨h _ List.mem_cons_self, fun ok => ?_⟩
      cases ok with
      | false => trivial
      | true => exact ih (fun e he => h e (List.mem_cons_of_mem _ he))

theorem fine_rootCells {e : Cell × Bytes} (h : e ∈ rootCells user (newRoot user)) :
    Fine user uid (.put e.1 e.2) := by
  simp only [rootCells, List.mem_cons, List.not_mem_nil, or_false] at h
  rcases h with rfl | rfl | rfl | rfl
  · trivial
  · trivial
  · exact .inl rfl
  · trivial

/-- The end of `ensure_drive_root`; `ok` is whether the cells of the root are as they should be. -/
def openRoot (root : Bytes) (ok : Bool) : FeProg (Option Bytes) := do
  if !ok then return none
  match ← getStatus (.children root) with
  | .unavailable => return none
  | .notFound =>
      if !(← put (.children root) []) then return none
      return some root
  | .found _ => return some root

/-- The list of a root. -/
theorem only_rootChildren (root : Bytes) {f : Read Bytes → FeProg (Option Bytes)}
    (hfound : ∀ v, (f (.found v)).Only (Fine user uid) (fun _ => True))
    (hun : (f .unavailable).Only (Fine user uid) (fun _ => True))
    (hmiss : f .notFound = put (.children root) [] >>= fun ok => if !ok then pure none else pure (some root)) :
    (getStatus (.children root) >>= f).Only (Fine user uid) (fun _ => True) := by
  refine ⟨trivial, fun r => ?_⟩
  cases r with
  | found v => exact hfound v
  | unavailable => exact hun
  | notFound =>
      show (f .notFound).Only _ _
      rw [hmiss]
      refine ⟨trivial, fun ok => ?_⟩
      cases ok <;> trivial

/-- **`ensure_drive_root`** touches the root only. -/
theorem safe_ensureDriveRoot (hw : Works user i uid σ) :
    Safe user i (ensureDriveRoot user) (fun _ σ => Works user i uid σ) σ := by
  refine Rules.safe_act ?_
  intro σ₁ io hr hi hok
  have hw₁ := hw.mono hr
  refine ⟨keeps_fine hi hok trivial hw₁, ?_⟩
  have hcell : ∀ v, (exec io σ₁.1 (.get (.root user) : Act Cell Bytes Answer)).1 = .found v →
      v = newRoot user := by
    intro v hv
    have hcell := cell_of_found hv
    rcases hi.root with hnone | hsome
    · rw [hnone] at hcell
      exact absurd hcell (by simp)
    · exact (Option.some.inj (hsome.symm.trans hcell)).symm
  revert hcell
  generalize (exec io σ₁.1 (.get (.root user) : Act Cell Bytes Answer)).1 = r
  intro hcell
  refine safe_fine ?_ hw₁
  cases r with
  | unavailable => trivial
  | notFound =>
      refine Prog.Only.bind (only_putAll ?_) (fun ok => by cases ok <;> trivial)
      intro e he
      rcases List.mem_append.mp he with he | he
      · rcases List.mem_cons.mp he with rfl | he
        · exact (rfl : newRoot user = newRoot user)
        · exact fine_rootCells he
      · rw [List.mem_singleton.mp he]
        trivial
  | found v =>
      obtain rfl := hcell v rfl
      show Prog.Only _ _ (if newRoot user = [] then _ else _)
      split
      · trivial
      · refine ⟨trivial, fun type => ?_⟩
        have hlast : ∀ ok : Bool, Prog.Only (Fine user uid) (fun _ => True) (openRoot (newRoot user) ok) := by
          intro ok
          rw [openRoot]
          split
          · trivial
          · exact only_rootChildren _ (fun _ => trivial) trivial rfl
        cases type with
        | unavailable => trivial
        | notFound =>
            show Prog.Only _ _ (putAll (rootCells user (newRoot user)) >>= _)
            exact Prog.Only.bind (only_putAll (fun e he => fine_rootCells he)) hlast
        | found t =>
            show Prog.Only _ _ (if t ≠ folder then _ else _)
            split
            · exact Prog.Only.bind (only_putAll (fun e he => fine_rootCells he)) hlast
            · exact hlast true

/-! ### Lists -/

/-- What `append_child` promises. -/
def Added (user : Bytes) (i : Nat) (uid d : Bytes) (ok : Bool) (σ : St) : Prop :=
  Works user i uid σ ∧ (ok = true → uid ∈ kids σ.1 d)

theorem Added.mono {d : Bytes} {ok : Bool} (h : Added user i uid d ok σ) (hr : Grows i σ σ') :
    Added user i uid d ok σ' :=
  ⟨h.1.mono hr, fun hok => hr.kids d uid (h.2 hok)⟩

/-- **`append_child`.** -/
theorem safe_appendCsvLoop {d : Bytes} (hclean : CleanItem uid) (hw : Works user i uid σ) (attempts : Nat) :
    Safe user i (appendCsvLoop (.children d) uid false 0 attempts) (Added user i uid d) σ := by
  induction attempts generalizing σ with
  | zero => exact fun σ₁ hr _ => ⟨hw.mono hr, fun h => absurd h (by simp)⟩
  | succ attempts ih =>
      refine safe_get hw ?_
      intro σ₁ r _ hw₁ _ hfound
      cases r with
      | unavailable => exact ih hw₁
      | notFound => exact safe_put trivial hw₁ (fun σ₂ hw₂ _ _ => ih hw₂)
      | found old =>
          have hold : kids σ₁.1 d = splitCsv old := by
            rw [kids, hfound old rfl]
            rfl
          have hnext : splitCsv (joinCsv (cutItems false 0 (placeItem uid false (splitCsv old)))) =
              placeItem uid false (splitCsv old) := by
            rw [cutItems_of_le (.inl rfl)]
            refine splitCsv_joinCsv (fun x hx => ?_)
            rcases mem_placeItem.mp hx with rfl | hx
            · exact hclean
            · exact clean_of_mem_splitCsv hx
          show Safe user i (if _ then _ else _) _ _
          split
          · rename_i hmem
            exact fun σ₂ hr _ => ⟨hw₁.mono hr, fun _ => hr.kids d uid (hold ▸ hmem.1)⟩
          · show Safe user i (if _ then _ else _) _ _
            split
            · rename_i heq
              refine fun σ₂ hr _ => ⟨hw₁.mono hr, fun _ => hr.kids d uid ?_⟩
              rw [hold, ← heq, hnext]
              exact mem_placeItem.mpr (.inl rfl)
            · refine safe_cput ?_ hw₁ ?_
              · intro x hx
                rw [hnext]
                exact mem_placeItem.mpr (.inr hx)
              · intro σ₂ ok hw₂ hok
                cases ok with
                | false => exact ih hw₂
                | true =>
                    refine fun σ₃ hr _ => ⟨hw₂.mono hr, fun _ => hr.kids d uid ?_⟩
                    rw [hok rfl, hnext]
                    exact mem_placeItem.mpr (.inl rfl)

theorem safe_appendChild {d : Bytes} (hclean : CleanItem uid) (hw : Works user i uid σ) :
    Safe user i (appendChild d uid) (Added user i uid d) σ := by
  rw [appendChild, appendCsvItemCas, if_neg hclean.ne_nil]
  exact safe_appendCsvLoop hclean hw 16

/-! ### An object and its parent -/

/-- The request has stored which folder its object is in. -/
def Placed (i : Nat) (uid d : Bytes) (σ : St) : Prop := Owns i uid σ ∧ σ.1 (.parent uid) = some d

theorem Placed.mono {d : Bytes} (h : Placed i uid d σ) (hr : Grows i σ σ') : Placed i uid d σ' :=
  ⟨h.1.mono hr, (hr.parent uid h.1.1).trans h.2⟩

/-- Operations that write no parent column and answer nothing. -/
def NoParent : Act Cell Bytes Answer → Prop
  | .get _ => True
  | .put (.parent _) _ => False
  | .put _ _ => True
  | .cput (.parent _) _ _ => False
  | .cput _ _ _ => True
  | .del (.parent _) => False
  | .del _ => True
  | .answer _ => False

theorem placed_after {d : Bytes} {a : Act Cell Bytes Answer} {io : Nat} (ha : NoParent a)
    (h : Placed i uid d σ) : Placed i uid d (after watch i io a σ) := by
  cases a with
  | answer ans => exact ha.elim
  | get k => exact h
  | put k v =>
      refine ⟨h.1, (put_of_ne (A := Answer) ?_).trans h.2⟩
      rintro rfl
      exact ha.elim
  | cput k old new =>
      refine ⟨h.1, (cput_of_ne (A := Answer) ?_).trans h.2⟩
      rintro rfl
      exact ha.elim
  | del k =>
      refine ⟨h.1, (del_of_ne (A := Answer) ?_).trans h.2⟩
      rintro rfl
      exact ha.elim

/-- Programs made of them leave the object where it is. -/
theorem safe_placed {d : Bytes} {p : FeProg α} {Q : α → St → Prop} (hp : p.Only NoParent (fun _ => True))
    (h : Safe user i p Q σ) (hpl : Placed i uid d σ) :
    Safe user i p (fun a σ => Placed i uid d σ ∧ Q a σ) σ := by
  refine Logic.Safe.keep hp (fun hr h => Placed.mono h hr) ?_ h hpl
  intro a io σ₁ r σ₂ ha he h
  obtain ⟨-, rfl⟩ := exec_watched _ he
  exact placed_after ha h

/-- A write elsewhere. -/
theorem safe_put_placed {d : Bytes} {k : Cell} {v : Bytes} {f : Bool → FeProg α} {Q : α → St → Prop}
    (hk : Fine user uid (.put k v)) (hk' : NoParent (.put k v)) (hpl : Placed i uid d σ)
    (hf : ∀ σ₁ : St, Placed i uid d σ₁ → Inv user σ₁ → Safe user i (f true) Q σ₁) :
    Safe user i (put k v >>= f) Q σ := by
  refine Rules.safe_act ?_
  intro σ₁ io hr hi hok
  have hpl₁ := hpl.mono hr
  have hkeep := keeps_fine hi hok hk (.inr hpl₁.1)
  refine ⟨hkeep, ?_⟩
  have htrue : (exec io σ₁.1 (.put k v : Act Cell Bytes Answer)).1 = true := decide_eq_true hok.succeeds
  rw [htrue]
  exact hf _ (placed_after hk' hpl₁) hkeep.inv

theorem only_appendChild (d item : Bytes) : (appendChild d item).Only NoParent (fun _ => True) := by
  unfold appendChild appendCsvItemCas
  split
  · trivial
  · exact only_appendCsvLoop_of trivial (fun _ => trivial) (fun _ => trivial) 16

/-- **An object that has its parent is listed there.** -/
theorem safe_appendChild_placed {d : Bytes} (hclean : CleanItem uid) (hpl : Placed i uid d σ) :
    Safe user i (appendChild d uid) (fun ok σ => Owns i uid σ ∧ (ok = true → InParent σ.1 uid)) σ := by
  refine (safe_placed (only_appendChild d uid) (safe_appendChild hclean (.inr hpl.1)) hpl).weaken ?_
  rintro ok σ₁ _ ⟨hpl₁, -, hadd⟩
  exact ⟨hpl₁.1, fun hok => ⟨d, hpl₁.2, hadd hok⟩⟩

/-! ## Requests -/

/-- How a request ends. -/
def Final (i : Nat) (uid : Bytes) (ans : Answer) (σ : St) : Prop :=
  Owns i uid σ ∧ ((∃ path, ans = .ok uid path ∧ InParent σ.1 uid) ∨ ∃ text, ans = .error text)

/-- What is listed stays listed, and its parent column is its own. -/
theorem inParent_mono (ho : Owns i uid σ) (hr : Grows i σ σ') (h : InParent σ.1 uid) : InParent σ'.1 uid := by
  obtain ⟨d, hd, hmem⟩ := h
  exact ⟨d, (hr.parent uid ho.1).trans hd, hr.kids d uid hmem⟩

theorem final_error {text : String} (h : Owns i uid σ) :
    Safe user i (pure (Answer.error text)) (Final i uid) σ :=
  fun _ hr _ => ⟨h.mono hr, .inr ⟨text, rfl⟩⟩

/-- A program that only reads or does what is fine, and then the rest. -/
theorem safe_then {β : Type} {p : FeProg α} {f : α → FeProg β} {Q : β → St → Prop}
    (hp : p.Only (Fine user uid) (fun _ => True)) (hi : Inv user σ) (hne : uid ≠ newRoot user)
    (ho : Owns i uid σ) (hf : ∀ a σ₁, Inv user σ₁ → Owns i uid σ₁ → Safe user i (f a) Q σ₁) :
    Safe user i (p >>= f) Q σ :=
  safe_bind (safe_fine hp (.inr ho)) hi (fun a σ₁ hi₁ hw => hf a σ₁ hi₁ (hw.resolve_left hne))

section Reads

theorem only_findChild (part : Bytes) (cs : List Bytes) : (findChild part cs).Only IsGet (fun _ => True) := by
  induction cs with
  | nil => trivial
  | cons c cs ih =>
      refine Prog.Only.bind (only_getStr _) (fun name => ?_)
      split
      · trivial
      · exact ih

theorem only_walk (cur : Bytes) (parts : List Bytes) : (walk cur parts).Only IsGet (fun _ => True) := by
  induction parts generalizing cur with
  | nil => trivial
  | cons part parts ih =>
      refine Prog.Only.bind (only_getStr _) (fun children => Prog.Only.bind (only_findChild _ _) (fun o => ?_))
      cases o with
      | none => trivial
      | some c => exact ih c

theorem only_anyNamed (wanted skip : Bytes) (cs : List Bytes) :
    (anyNamed wanted skip cs).Only IsGet (fun _ => True) := by
  induction cs with
  | nil => trivial
  | cons c cs ih =>
      rw [anyNamed]
      split
      · exact ih
      · refine Prog.Only.bind (only_getStr _) (fun name => ?_)
        split
        · trivial
        · exact ih

theorem only_childNameExists (d wanted skip : Bytes) :
    (childNameExists d wanted skip).Only IsGet (fun _ => True) :=
  Prog.Only.bind (only_getStr _) (fun _ => only_anyNamed _ _ _)

end Reads

/-- **`resolve_path`** touches the root only. -/
theorem safe_resolvePath (hi : Inv user σ) (hw : Works user i uid σ) (path : Bytes) :
    Safe user i (resolvePath user path) (fun _ σ => Works user i uid σ) σ := by
  refine safe_bind (safe_ensureDriveRoot hw) hi (fun o σ₁ _ hw₁ => safe_fine (only_fine_of_gets ?_) hw₁)
  cases o with
  | none => trivial
  | some root =>
      show Prog.Only _ _ (if path = [] ∨ path = [slash] then _ else _)
      split
      · trivial
      · refine Prog.Only.bind (only_walk _ _) (fun cur => ?_)
        cases cur with
        | none => trivial
        | some cur => exact Prog.Only.bind (only_getStr _) (fun _ => trivial)

theorem safe_userDriveUsedBytes (hi : Inv user σ) (hw : Works user i uid σ) :
    Safe user i (userDriveUsedBytes user) (fun _ σ => Works user i uid σ) σ := by
  refine safe_bind (safe_ensureDriveRoot hw) hi (fun o σ₁ _ hw₁ => safe_fine (only_fine_of_gets ?_) hw₁)
  cases o with
  | none => trivial
  | some root => exact Prog.Only.bind (only_isGet (only_subtreeBytesInner _ _ _)) (fun _ => trivial)

/-- **The quota check** touches the root and the counter only. -/
theorem safe_overQuota (hi : Inv user σ) (hw : Works user i uid σ) (size : Nat) :
    Safe user i (overQuota user size) (fun _ σ => Works user i uid σ) σ := by
  have hput : ∀ (n : Nat) (σ₁ : St), Works user i uid σ₁ →
      Safe user i (put (.usedBytes user) (Decimal.text n) >>= fun _ => pure n) (fun _ σ => Works user i uid σ) σ₁ :=
    fun n σ₁ hw₁ => safe_fine ⟨trivial, fun _ => trivial⟩ hw₁
  have hfast : Safe user i (userDriveUsedBytesFast user) (fun _ σ => Works user i uid σ) σ := by
    refine safe_bind (safe_fine (only_fine_of_gets (only_getStr _)) hw) hi (fun cached σ₁ hi₁ hw₁ => ?_)
    cases Decimal.stoul cached with
    | some n => exact fun _ hr _ => hw₁.mono hr
    | none => exact safe_bind (safe_userDriveUsedBytes hi₁ hw₁) hi₁ (fun n σ₂ _ hw₂ => hput n σ₂ hw₂)
  have hreconciled : ∀ σ₁ : St, Inv user σ₁ → Works user i uid σ₁ →
      Safe user i (userDriveUsedBytesReconciled user) (fun _ σ => Works user i uid σ) σ₁ := by
    intro σ₁ hi₁ hw₁
    refine safe_bind (safe_userDriveUsedBytes hi₁ hw₁) hi₁ (fun n σ₂ hi₂ hw₂ => ?_)
    refine safe_bind (safe_fine (only_fine_of_gets (only_getStr _)) hw₂) hi₂ (fun cached σ₃ _ hw₃ => ?_)
    show Safe user i (if cached ≠ Decimal.text n then _ else _) _ σ₃
    split
    · exact hput n σ₃ hw₃
    · exact fun _ hr _ => hw₃.mono hr
  have hlast : ∀ (limit n : Nat) (σ₁ : St), Works user i uid σ₁ →
      Safe user i (if sizeT (n + size) > limit then (pure (some (sizeT (n + size) - limit)) : FeProg (Option Nat))
        else pure none) (fun _ σ => Works user i uid σ) σ₁ := by
    intro limit n σ₁ hw₁
    split
    · exact fun _ hr _ => hw₁.mono hr
    · exact fun _ hr _ => hw₁.mono hr
  refine safe_bind hfast hi (fun n σ₁ hi₁ hw₁ => ?_)
  refine safe_bind (safe_fine (only_fine_of_gets (Prog.Only.bind (only_getStr _) (fun _ => trivial))) hw₁) hi₁
    (fun limit σ₂ hi₂ hw₂ => ?_)
  show Safe user i (if sizeT (n + size) > limit then _ else _) _ σ₂
  split
  · exact safe_bind (hreconciled σ₂ hi₂ hw₂) hi₂ (fun n' σ₃ _ hw₃ => hlast limit n' σ₃ hw₃)
  · exact hlast limit n σ₂ hw₂

theorem fine_delIf (written : Bool) {k : Cell} (hk : Fine user uid (.del k)) :
    (delIf written k).Only (Fine user uid) (fun _ => True) := by
  cases written with
  | true => exact ⟨hk, fun _ => trivial⟩
  | false => trivial

/-- The first read of a handler. -/
theorem safe_probe {p : FeProg Answer} (hne : uid ≠ newRoot user) (ho : Owns i uid σ)
    (hp : ∀ σ₁, Inv user σ₁ → Owns i uid σ₁ → Safe user i p (Final i uid) σ₁) :
    Safe user i (probe user p) (Final i uid) σ := by
  refine safe_get (.inr ho) (fun σ₁ r _ hw₁ hi₁ _ => ?_)
  have ho₁ := hw₁.resolve_left hne
  cases r with
  | unavailable => exact final_error ho₁
  | found v => exact hp σ₁ hi₁ ho₁
  | notFound => exact hp σ₁ hi₁ ho₁

/-- **`handle_mkdir`.** -/
theorem safe_handleMkdir (hne : uid ≠ newRoot user) (hclean : CleanItem uid) (ho : Owns i uid σ)
    (path name : Bytes) : Safe user i (handleMkdir user path name uid) (Final i uid) σ := by
  show Safe user i (if (!validComponent name) = true then _ else _) _ σ
  split
  · exact final_error ho
  · refine safe_probe hne ho (fun σ₁ hi₁ ho₁ => ?_)
    refine safe_bind (safe_resolvePath hi₁ (.inr ho₁) _) hi₁ (fun o σ₂ hi₂ hw₂ => ?_)
    have ho₂ := hw₂.resolve_left hne
    cases o with
    | none => exact final_error ho₂
    | some q =>
        obtain ⟨d, type⟩ := q
        show Safe user i (if type ≠ folder then _ else _) _ σ₂
        split
        · exact final_error ho₂
        · refine safe_then (only_fine_of_gets (only_childNameExists d name [])) hi₂ hne ho₂
            (fun b σ₃ hi₃ ho₃ => ?_)
          cases b with
          | true => exact final_error ho₃
          | false =>
              refine safe_put trivial (.inr ho₃) (fun σ₄ hw₄ _ _ => ?_)
              refine safe_put trivial hw₄ (fun σ₅ hw₅ _ _ => ?_)
              refine safe_put (.inr rfl) hw₅ (fun σ₆ hw₆ _ hparent => ?_)
              have hpl : Placed i uid d σ₆ := ⟨hw₆.resolve_left hne, hparent⟩
              refine safe_put_placed trivial trivial hpl (fun σ₇ hpl₇ _ => ?_)
              refine safe_put_placed trivial trivial hpl₇ (fun σ₈ hpl₈ hi₈ => ?_)
              refine safe_bind (safe_appendChild_placed hclean hpl₈) hi₈ (fun ok σ₉ hi₉ hadd => ?_)
              cases ok with
              | true => exact fun σ' hr _ => ⟨hadd.1.mono hr, .inl ⟨_, rfl, inParent_mono hadd.1 hr (hadd.2 rfl)⟩⟩
              | false =>
                  refine safe_then (fine_delIf _ trivial) hi₉ hne hadd.1 (fun _ σ hi ho => ?_)
                  refine safe_then (fine_delIf _ trivial) hi hne ho (fun _ σ hi ho => ?_)
                  refine safe_then (fine_delIf _ (k := .parent uid) rfl) hi hne ho (fun _ σ hi ho => ?_)
                  refine safe_then (fine_delIf _ trivial) hi hne ho (fun _ σ hi ho => ?_)
                  refine safe_then (fine_delIf _ trivial) hi hne ho (fun _ σ hi ho => ?_)
                  exact final_error ho

/-- Programs that only touch cells which anybody may touch. -/
theorem only_fine_of_cells {P : Cell → Prop} {p : FeProg α} (hp : p.Only (OnCells P) (fun _ => True))
    (hfine : ∀ k, P k → (∀ v, Fine user uid (.put k v)) ∧ (∀ v w, Fine user uid (.cput k v w)) ∧
      Fine user uid (.del k)) : p.Only (Fine user uid) (fun _ => True) := by
  refine hp.mono (fun a ha => ?_) (fun _ h => h)
  cases a with
  | get k => trivial
  | put k v => exact (hfine k ha).1 v
  | cput k old new => exact (hfine k ha).2.1 old new
  | del k => exact (hfine k ha).2.2
  | answer ans => exact ha.elim

theorem fine_contents (k : Cell) (h : Contents uid k) : (∀ v, Fine user uid (.put k v)) ∧
    (∀ v w, Fine user uid (.cput k v w)) ∧ Fine user uid (.del k) := by
  cases k with
  | bytes x => exact ⟨fun _ => trivial, fun _ _ => trivial, trivial⟩
  | chunks x => exact ⟨fun _ => trivial, fun _ _ => trivial, trivial⟩
  | chunk x n => exact ⟨fun _ => trivial, fun _ _ => trivial, trivial⟩
  | _ => exact h.elim

theorem noParent_contents (a : Act Cell Bytes Answer) (h : OnCells (Contents uid) a) : NoParent a := by
  cases a with
  | get k => trivial
  | answer ans => exact h.elim
  | put k v => cases k <;> trivial
  | cput k old new => cases k <;> trivial
  | del k => cases k <;> trivial

theorem fine_usedBytes (k : Cell) (h : k = .usedBytes user) : (∀ v, Fine user uid (.put k v)) ∧
    (∀ v w, Fine user uid (.cput k v w)) ∧ Fine user uid (.del k) := by
  subst h
  exact ⟨fun _ => trivial, fun _ _ => trivial, trivial⟩

theorem noParent_usedBytes (a : Act Cell Bytes Answer) (h : OnCells (· = .usedBytes user) a) : NoParent a := by
  cases a with
  | get k => trivial
  | answer ans => exact h.elim
  | put k v => obtain rfl := h; trivial
  | cput k old new => obtain rfl := h; trivial
  | del k => obtain rfl := h; trivial

/-- What is listed stays listed. -/
theorem safe_keep_kids {d x : Bytes} {p : FeProg α} (hp : p.Only (Fine user uid) (fun _ => True))
    (hw : Works user i uid σ) (hx : x ∈ kids σ.1 d) :
    Safe user i p (fun _ σ => Works user i uid σ ∧ x ∈ kids σ.1 d) σ := by
  refine Rules.safe_keep (W := watch) (T := fun σ => Works user i uid σ ∧ x ∈ kids σ.1 d)
    (fun _ _ (hr : Grows i _ _) h => ⟨h.1.mono hr, hr.kids d x h.2⟩) ?_ hp ⟨hw, hx⟩
  intro a σ io ha hi hok h
  exact ⟨keeps_fine hi hok ha h.1, works_after ha h.1, (kids_after hi hok ha h.1) d x h.2⟩

/-- **The writes of an upload.** -/
theorem safe_storeFile (hne : uid ≠ newRoot user) (hclean : CleanItem uid) (ho : Owns i uid σ) (d : Bytes)
    (part : FilePart) : Safe user i (storeFile user d uid part)
      (fun w σ => Owns i uid σ ∧ (w.failReason = none → InParent σ.1 uid)) σ := by
  refine safe_put trivial (.inr ho) (fun σ₁ hw₁ _ _ => ?_)
  refine safe_put trivial hw₁ (fun σ₂ hw₂ _ _ => ?_)
  refine safe_put (.inr rfl) hw₂ (fun σ₃ hw₃ _ hparent => ?_)
  have hpl : Placed i uid d σ₃ := ⟨hw₃.resolve_left hne, hparent⟩
  refine safe_put_placed trivial trivial hpl (fun σ₄ hpl₄ _ => ?_)
  refine safe_put_placed trivial trivial hpl₄ (fun σ₅ hpl₅ hi₅ => ?_)
  refine safe_bind (safe_placed ((only_putFileChunks uid part.data).mono noParent_contents (fun _ h => h))
    (safe_fine (only_fine_of_cells (only_putFileChunks uid part.data) fine_contents) (.inr hpl₅.1)) hpl₅) hi₅
    (fun ok σ₆ hi₆ hpl₆ => ?_)
  cases ok with
  | false => exact fun σ' hr _ => ⟨(hpl₆.1.mono hr).1, fun h => absurd h (by simp)⟩
  | true =>
      refine safe_bind (safe_appendChild_placed hclean hpl₆.1) hi₆ (fun ok σ₇ _ hadd => ?_)
      cases ok with
      | false => exact fun σ' hr _ => ⟨hadd.1.mono hr, fun h => absurd h (by simp)⟩
      | true => exact fun σ' hr _ => ⟨hadd.1.mono hr, fun _ => inParent_mono hadd.1 hr (hadd.2 rfl)⟩

theorem only_unstoreFile (w : Written) : (unstoreFile uid w).Only (Fine user uid) (fun _ => True) := by
  refine Prog.Only.bind (fine_delIf _ trivial) (fun _ => ?_)
  refine Prog.Only.bind (fine_delIf _ trivial) (fun _ => ?_)
  refine Prog.Only.bind (fine_delIf _ (k := .parent uid) rfl) (fun _ => ?_)
  refine Prog.Only.bind (fine_delIf _ trivial) (fun _ => ?_)
  refine Prog.Only.bind (fine_delIf _ trivial) (fun _ => ?_)
  show Prog.Only _ _ (if w.chunks = true then _ else _)
  split
  · exact only_fine_of_cells (only_deleteFileBytes uid) fine_contents
  · trivial

/-- The counter is no part of the tree. -/
theorem safe_counted (hi : Inv user σ) (ho : Owns i uid σ) (hin : InParent σ.1 uid) (delta : Int)
    (path : Bytes) : Safe user i (updateDriveUsedBytes user delta >>= fun _ => pure (Answer.ok uid path))
      (Final i uid) σ := by
  have hcount := only_updateDriveUsedBytes user delta
  obtain ⟨d, hd, hmem⟩ := hin
  refine safe_bind (safe_placed (hcount.mono noParent_usedBytes (fun _ h => h))
    (safe_keep_kids (only_fine_of_cells hcount fine_usedBytes) (.inr ho) hmem) ⟨ho, hd⟩) hi ?_
  rintro _ σ₁ _ ⟨hpl, -, hmem⟩
  exact fun σ' hr _ => ⟨hpl.1.mono hr, .inl ⟨path, rfl, inParent_mono hpl.1 hr ⟨d, hpl.2, hmem⟩⟩⟩

/-- **`handle_upload`.** -/
theorem safe_handleUpload (hi : Inv user σ) (hne : uid ≠ newRoot user) (hclean : CleanItem uid)
    (ho : Owns i uid σ) (path : Bytes) (part : Option FilePart) :
    Safe user i (handleUpload user path part uid) (Final i uid) σ := by
  cases part with
  | none => exact final_error ho
  | some part =>
      show Safe user i (if part.filename = [] then _ else _) _ σ
      split
      · exact final_error ho
      · show Safe user i (if part.data.length > maxDriveFileBytes then _ else _) _ σ
        split
        · exact final_error ho
        · refine safe_bind (safe_overQuota hi (.inr ho) _) hi (fun excess σ₁ _ hw₁ => ?_)
          have ho₁ := hw₁.resolve_left hne
          cases excess with
          | some excess => exact final_error ho₁
          | none =>
              refine safe_probe hne ho₁ (fun σ₂ hi₂ ho₂ => ?_)
              refine safe_bind (safe_resolvePath hi₂ (.inr ho₂) _) hi₂ (fun o σ₃ hi₃ hw₃ => ?_)
              have ho₃ := hw₃.resolve_left hne
              cases o with
              | none => exact final_error ho₃
              | some q =>
                  obtain ⟨d, type⟩ := q
                  show Safe user i (if type ≠ folder then _ else _) _ σ₃
                  split
                  · exact final_error ho₃
                  · show Safe user i (if (!validComponent part.filename) = true then _ else _) _ σ₃
                    split
                    · exact final_error ho₃
                    · refine safe_then (only_fine_of_gets (only_childNameExists d part.filename [])) hi₃ hne ho₃
                        (fun b σ₄ hi₄ ho₄ => ?_)
                      cases b with
                      | true => exact final_error ho₄
                      | false =>
                          refine safe_bind (safe_storeFile hne hclean ho₄ d part) hi₄ ?_
                          rintro ⟨_, _, _, _, _, _, reason⟩ σ₅ hi₅ ⟨ho₅, hin⟩
                          cases reason with
                          | some reason =>
                              refine safe_then (only_unstoreFile _) hi₅ hne ho₅ (fun _ σ₆ _ ho₆ => ?_)
                              exact final_error ho₆
                          | none =>
                              have hin₅ : InParent σ₅.1 uid := hin rfl
                              dsimp only
                              generalize int64 (part.data.length : Int) = delta
                              generalize joinPath path part.filename = full
                              exact safe_counted hi₅ ho₅ hin₅ delta full

/-- A last word that is not a success. -/
theorem safe_lastWord {ans : Answer} (hmint : ∀ uid, ans ≠ .mints uid) (hok : ∀ uid path, ans ≠ .ok uid path) :
    Safe user i (answer ans) (fun _ _ => True) σ := by
  refine Rules.safe_act (f := fun _ => pure ()) ?_
  intro σ₁ io _ hi _
  have hsame : after watch i io (.answer ans) σ₁ = σ₁ := by
    cases ans with
    | mints uid => exact absurd rfl (hmint uid)
    | ok uid path => exact absurd rfl (hok uid path)
    | _ => rfl
  rw [hsame]
  exact ⟨⟨hi, fun j _ => (rules user).rely_refl j σ₁⟩, fun _ _ _ => trivial⟩

/-- **A request ends.** -/
theorem safe_answer {ans : Answer} (h : Final i uid ans σ) : Safe user i (answer ans) (fun _ _ => True) σ := by
  obtain ⟨ho, ⟨path, rfl, hin⟩ | ⟨text, rfl⟩⟩ := h
  · refine Rules.safe_act (f := fun _ => pure ()) ?_
    intro σ₁ io hr hi _
    have ho₁ := ho.mono hr
    refine ⟨⟨⟨?_, hi.root, hi.once, hi.ne_root, ?_⟩, ?_⟩, fun _ _ _ => trivial⟩
    · intro x hx
      rcases List.mem_cons.mp hx with rfl | hx
      · show InParent σ₁.1 x
        exact inParent_mono ho hr hin
      · exact hi.kept x hx
    · intro x hx
      rcases List.mem_cons.mp hx with rfl | hx
      · exact ⟨i, ho₁.1⟩
      · exact hi.owned x hx
    · intro j hne
      refine ⟨fun _ _ hx => hx, fun _ he => he, fun _ _ => rfl, fun x hx hs hmem => ?_⟩
      rcases List.mem_cons.mp hmem with rfl | hmem
      · exact hne (hi.once j i x hx ho₁.1)
      · exact hs hmem
  · exact safe_lastWord nofun nofun

/-- **A request begins** with a new uid. -/
theorem safe_mints {f : Unit → FeProg α} {Q : α → St → Prop} (hne : uid ≠ newRoot user)
    (hf : ∀ σ₁, Inv user σ₁ → Owns i uid σ₁ → Safe user i (f ()) Q σ₁) :
    Safe user i (answer (.mints uid) >>= f) Q σ := by
  refine Rules.safe_act ?_
  intro σ₁ io hr hi hok
  have hfresh := hok.fresh uid rfl
  have hstored : uid ∉ σ₁.2.stored := by
    intro hmem
    obtain ⟨j, hj⟩ := hi.owned uid hmem
    exact hfresh j hj
  have hkeep : (rules user).Keeps i σ₁ (after watch i io (.answer (.mints uid)) σ₁) := by
    refine ⟨⟨hi.kept, hi.root, ?_, ?_, ?_⟩, ?_⟩
    · intro j j' x hj hj'
      rcases List.mem_cons.mp hj with heq | hj
      · obtain ⟨rfl, rfl⟩ := Prod.mk.inj heq
        rcases List.mem_cons.mp hj' with heq' | hj'
        · exact (Prod.mk.inj heq').1.symm
        · exact absurd hj' (hfresh j')
      · rcases List.mem_cons.mp hj' with heq' | hj'
        · rw [(Prod.mk.inj heq').2] at hj
          exact absurd hj (hfresh j)
        · exact hi.once j j' x hj hj'
    · intro j x hj
      rcases List.mem_cons.mp hj with heq | hj
      · rw [(Prod.mk.inj heq).2]
        exact hne
      · exact hi.ne_root j x hj
    · intro x hx
      obtain ⟨j, hj⟩ := hi.owned x hx
      exact ⟨j, List.mem_cons_of_mem _ hj⟩
    · exact fun j _ => ⟨fun _ _ hx => hx, fun _ he => List.mem_cons_of_mem _ he, fun _ _ => rfl, fun _ _ hs => hs⟩
  exact ⟨hkeep, hf _ hkeep.inv ⟨List.mem_cons_self, hstored⟩⟩

theorem driveNewUid_ne_newRoot (ns seq : Nat) : driveNewUid ns seq ≠ newRoot user := by
  intro h
  have hhead : (driveNewUid ns seq).head? = some 114 := by
    rw [h]
    rfl
  -- a uid begins with a digit
  have hdigit : ∀ b, (driveNewUid ns seq).head? = some b → Decimal.IsDigit b := by
    intro b hb
    rw [driveNewUid, List.append_assoc] at hb
    cases htext : Decimal.text ns with
    | nil => exact absurd htext (Decimal.digits_ne_nil ns ns)
    | cons c rest =>
        rw [htext] at hb
        obtain rfl : c = b := Option.some.inj hb
        have hmem : c ∈ Decimal.text ns := by
          rw [htext]
          exact List.mem_cons_self
        exact Decimal.isDigit_of_mem_digits hmem
  exact absurd (hdigit 114 hhead) (by decide)

/-- **Every request is safe.** -/
theorem safe_main (q : Request) (i : Nat) (hi : Inv user σ) : Safe user i (q.main user) (fun _ _ => True) σ := by
  cases q with
  | mkdir path name ns seq =>
      refine safe_mints (driveNewUid_ne_newRoot ns seq) (fun σ₁ hi₁ ho₁ => ?_)
      exact safe_bind (safe_handleMkdir (driveNewUid_ne_newRoot ns seq) (clean_driveNewUid ns seq) ho₁ path name)
        hi₁ (fun ans σ₂ _ hfinal => safe_answer hfinal)
  | upload path part ns seq =>
      refine safe_mints (driveNewUid_ne_newRoot ns seq) (fun σ₁ hi₁ ho₁ => ?_)
      exact safe_bind (safe_handleUpload hi₁ (driveNewUid_ne_newRoot ns seq) (clean_driveNewUid ns seq) ho₁
        path part) hi₁ (fun ans σ₂ _ hfinal => safe_answer hfinal)
  | visit =>
      have hopen : Safe user i (ensureDriveRoot user) (fun _ σ => Works user i (newRoot user) σ) σ :=
        safe_ensureDriveRoot (.inl rfl)
      exact safe_bind hopen hi (fun root σ₁ _ _ => safe_lastWord nofun nofun)

/--
**What has been answered `"ok":true` stays listed.**

In every run of any number of requests of a user who has no drive, in which lists are only
written over or deleted while they are empty.
-/
theorem listed_of_reach {s₀ : Store Cell Bytes} (hnone : s₀ (.root user) = none)
    {c : Config (watched watch (Request.main user))}
    (h : Reach (s₀, ⟨[], []⟩) (When (fun _ _ io a σ => Meets io a σ)) c) : Listed c.st := by
  have hstart : Inv user (s₀, ⟨[], []⟩) :=
    ⟨fun _ h => absurd h List.not_mem_nil, .inl hnone, fun _ _ _ h => absurd h List.not_mem_nil,
      fun _ _ h => absurd h List.not_mem_nil, fun _ h => absurd h List.not_mem_nil⟩
  exact (Rules.inv_of_reach (R := rules user) hstart (fun q i _ hi => safe_main q i hi) h).kept

/-! ## Two requests -/

section Two

/-- The condition, tested. -/
def meetsTest (_ : Nat) (_ : Unit) (io : Nat) (a : Act Cell Bytes Answer) (σ : St) : Bool :=
  decide (2 ≤ io) &&
    match a with
    | .answer (.mints uid) => decide (∀ e ∈ σ.2.owner, e.2 ≠ uid)
    | .put (.children d) _ => decide (kids σ.1 d = [])
    | .del (.children d) => decide (kids σ.1 d = [])
    | _ => true

theorem meets_of_test (i : Nat) (l : Unit) (io : Nat) (a : Act Cell Bytes Answer) (σ : St)
    (h : meetsTest i l io a σ = true) : Meets io a σ := by
  obtain ⟨hio, h⟩ := (Bool.and_eq_true _ _).mp h
  refine ⟨of_decide_eq_true hio, ?_, ?_, ?_⟩
  · rintro uid rfl j hj
    exact of_decide_eq_true h (j, uid) hj rfl
  · rintro d v rfl
    exact of_decide_eq_true h
  · rintro d rfl
    exact of_decide_eq_true h

/-- Operations succeed and uids are new, and no more. -/
def Succeeds (io : Nat) (a : Act Cell Bytes Answer) (σ : St) : Prop :=
  2 ≤ io ∧ ∀ uid, a = .answer (.mints uid) → ∀ j, (j, uid) ∉ σ.2.owner

/-- The same, tested. -/
def succeedsTest (_ : Nat) (_ : Unit) (io : Nat) (a : Act Cell Bytes Answer) (σ : St) : Bool :=
  decide (2 ≤ io) &&
    match a with
    | .answer (.mints uid) => decide (∀ e ∈ σ.2.owner, e.2 ≠ uid)
    | _ => true

theorem succeeds_of_test (i : Nat) (l : Unit) (io : Nat) (a : Act Cell Bytes Answer) (σ : St)
    (h : succeedsTest i l io a σ = true) : Succeeds io a σ := by
  obtain ⟨hio, h⟩ := (Bool.and_eq_true _ _).mp h
  refine ⟨of_decide_eq_true hio, ?_⟩
  rintro uid rfl j hj
  exact of_decide_eq_true h (j, uid) hj rfl

/-- A user. -/
def bob : Bytes := ascii "bob"

/-- Nothing is ever sent. -/
def answers : Empty → Bool := fun c => c.elim

/-- A folder in the root. -/
def newFolder : Request := .mkdir [slash] (ascii "a") 1 1

/-- Both make a folder, and both find no root and make one. Then both have read the empty
list, and one of them has to swap again. -/
def twoMkdirs : List (Line (watched watch (Request.main bob))) :=
  [.move (.start newFolder), .move (.start (.mkdir [slash] (ascii "b") 1 2))] ++
    List.replicate 3 (.move (.act 0 2)) ++ List.replicate 16 (.move (.act 1 2)) ++
    List.replicate 13 (.move (.act 0 2)) ++
    [.drive answers 60 0, .drive answers 60 1]

theorem listed_of_reach_twoMkdirs : ∃ c : Config (watched watch (Request.main bob)),
    c.st.2.stored = [driveNewUid 1 2, driveNewUid 1 1] ∧ Listed c.st := by
  obtain ⟨c, hr, hc⟩ := reach_of_play (when_of_test meets_of_test) (fun _ => none, ⟨[], []⟩) twoMkdirs
    (fun σ => decide (σ.2.stored = [driveNewUid 1 2, driveNewUid 1 1])) (by decide +kernel)
  exact ⟨c, of_decide_eq_true hc, listed_of_reach rfl hr⟩

/-- Another request finds no root. A folder is made, and then the other request goes on. -/
def lateVisit : List (Line (watched watch (Request.main bob))) :=
  [.move (.start newFolder), .move (.start .visit), .move (.act 1 2), .drive answers 60 0,
   .drive answers 60 1]

/-- **The folder is gone.** -/
theorem not_listed_lateVisit : ¬ ∀ c : Config (watched watch (Request.main bob)),
    Reach (fun _ => none, ⟨[], []⟩) (When (fun _ _ io a σ => Succeeds io a σ)) c → c.Quiet → Listed c.st := by
  intro h
  obtain ⟨c, hr, hquiet, hc⟩ := quiet_of_play (when_of_test succeeds_of_test) (fun _ => none, ⟨[], []⟩)
    lateVisit (fun σ => decide (σ.2.stored = [driveNewUid 1 1] ∧
      σ.1 (.parent (driveNewUid 1 1)) = some (newRoot bob) ∧ kids σ.1 (newRoot bob) = [])) (by decide +kernel)
  obtain ⟨hstored, hparent, hkids⟩ := of_decide_eq_true hc
  obtain ⟨d, hd, hmem⟩ := h c hr hquiet (driveNewUid 1 1) (hstored ▸ List.mem_cons_self)
  obtain rfl : newRoot bob = d := Option.some.inj (hparent.symm.trans hd)
  rw [hkids] at hmem
  exact List.not_mem_nil hmem

end Two

end NCloud.Frontend.FirstUse
