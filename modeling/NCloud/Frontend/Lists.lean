import NCloud.Frontend.Mail

/-!
# Lists that several requests add to

`append_csv_item_cas`, `prepend_uid_to_folder` and `deliver_local` on one cell, side by
side. A swap is made on the list that was read, so it loses nothing. The write that
creates the cell is made blindly: by then another request may have created it, and even
have found its own item there and returned.

As long as every such write finds the cell still missing (`Blind`), the list only grows.
-/

namespace NCloud.Frontend.Lists

open Process Wire KeyValue

/-- The answers given so far. -/
def watch : Watch Cell Bytes Answer where
  Past := List Answer
  note := fun _ a _ _ p =>
    match a with
    | .answer ans => ans :: p
    | _ => p

/-- The updates of one cell. Appends that cut the list cut it at `limit` items or
later. -/
inductive Update (k : Cell) (limit : Option Nat) where
  | append (item : Bytes) (prepend : Bool) (maxItems : Nat) (clean : comma ∉ item)
      (below : maxItems = 0 ∨ ∃ m, limit = some m ∧ m ≤ maxItems)
  | prependUid (user : Bytes) (f : Folder) (uid : Bytes) (cell : k = .folder user f)
      (clean : CleanItem uid)
  | deliver (recipient uid metaJson body : Bytes) (cell : k = .folder recipient .inbox)
      (clean : CleanItem uid)

variable (k : Cell) (limit : Option Nat)

/-- What they run. -/
def Update.main : Update k limit → FeProg Unit
  | .append item prepend maxItems _ _ => do
      let ok ← appendCsvItemCas k item prepend maxItems
      answer (.done item ok)
  | .prependUid user f uid _ _ => do
      let ok ← Mail.prependUidToFolder user f uid
      answer (.done uid ok)
  | .deliver recipient uid metaJson body _ _ => do
      let ok ← Mail.deliverLocal recipient uid metaJson body
      answer (.done uid ok)

/-- States. -/
abbrev St := Store Cell Bytes × List Answer

/-- A list below the limit is read. -/
def Below (a : Act Cell Bytes Answer) (σ : St) : Prop :=
  a = .get k → ∀ m, limit = some m → (items (σ.1 k)).length < m

/-- The cell is created only once. -/
def Blind (a : Act Cell Bytes Answer) (σ : St) : Prop := ∀ v, a = .put k v → σ.1 k = none

/-- Both. -/
def Meets (_ _ : Nat) (a : Act Cell Bytes Answer) (σ : St) : Prop := Below k limit a σ ∧ Blind k a σ

/-- What the list of one cell has, the other has as well. -/
def Within (v v' : Option Bytes) : Prop := ∀ x ∈ items v, x ∈ items v'

theorem Within.refl (v : Option Bytes) : Within v v := fun _ h => h

theorem Within.trans {v₁ v₂ v₃ : Option Bytes} (h₁ : Within v₁ v₂) (h₂ : Within v₂ v₃) :
    Within v₁ v₃ :=
  fun x hx => h₂ x (h₁ x hx)

/-- A request has reported its item as added. -/
def Reported (item : Bytes) (σ : St) : Prop := Answer.done item true ∈ σ.2

instance (item : Bytes) (σ : St) : Decidable (Reported item σ) := inferInstanceAs (Decidable (_ ∈ _))

/-- Nothing is lost: what was there at the start, and what has been reported as added. -/
structure Complete (s₀ : Store Cell Bytes) (σ : St) : Prop where
  before : ∀ item ∈ items (s₀ k), item ∈ items (σ.1 k)
  added : ∀ item, Reported item σ → item ∈ items (σ.1 k)

/-- The rules: the list only grows. -/
def rules (s₀ : Store Cell Bytes) : Rules watch where
  Inv := Complete k s₀
  Rely := fun _ σ σ' => Within (σ.1 k) (σ'.1 k)
  Ok := Meets k limit
  rely_refl := fun _ _ => .refl _
  rely_trans := fun h₁ h₂ => h₁.trans h₂

variable {k limit} {s₀ : Store Cell Bytes} {i : Nat} {σ : St} {α : Type}

/-! ## Single operations -/

/-- Changes of the store under which the list grows. -/
theorem keeps_of_within (h : Complete k s₀ σ) {s : Store Cell Bytes} (hw : Within (σ.1 k) (s k)) :
    (rules k limit s₀).Keeps i σ (s, σ.2) where
  inv := ⟨fun item hi => hw item (h.before item hi), fun item hi => hw item (h.added item hi)⟩
  rely := fun _ _ => hw

/-- Reading. -/
theorem safe_get (k' : Cell) {f : Read Bytes → FeProg α} {Q : α → St → Prop}
    (hf : ∀ (σ₁ : St) r, Within (σ.1 k) (σ₁.1 k) → Complete k s₀ σ₁ → Below k limit (.get k') σ₁ →
      (∀ v, r = .found v → σ₁.1 k' = some v) → (rules k limit s₀).Safe (Update.main k limit) i (f r) Q σ₁) :
    (rules k limit s₀).Safe (Update.main k limit) i (getStatus k' >>= f) Q σ := by
  refine Rules.safe_act ?_
  intro σ₁ io hr hi hok
  exact ⟨keeps_of_within hi (.refl _), hf σ₁ _ hr hi hok.1 (fun v hv => cell_of_found hv)⟩

/-- Writing to another cell, or creating this one. -/
theorem safe_put (k' : Cell) (v : Bytes) {f : Bool → FeProg α} {Q : α → St → Prop}
    (hf : ∀ (σ₁ : St) ok, Within (σ.1 k) (σ₁.1 k) → Complete k s₀ σ₁ →
      (rules k limit s₀).Safe (Update.main k limit) i (f ok) Q σ₁) :
    (rules k limit s₀).Safe (Update.main k limit) i (put k' v >>= f) Q σ := by
  refine Rules.safe_act ?_
  intro σ₁ io hr hi hok
  have hw : Within (σ₁.1 k) ((exec io σ₁.1 (.put k' v : Act Cell Bytes Answer)).2 k) := by
    by_cases hk : k' = k
    · subst hk
      rw [hok.2 v rfl]
      exact fun _ h => absurd h List.not_mem_nil
    · rw [put_of_ne (Ne.symm hk)]
      exact .refl _
  have hkeep : (rules k limit s₀).Keeps i σ₁ (_, σ₁.2) := keeps_of_within hi hw
  exact ⟨hkeep, hf _ _ (hr.trans hw) hkeep.inv⟩

/-- Swapping one list for a longer one. -/
theorem safe_cput {old new : Bytes} (hsub : ∀ x ∈ splitCsv old, x ∈ splitCsv new)
    {f : Bool → FeProg α} {Q : α → St → Prop}
    (hf : ∀ (σ₁ : St) ok, Within (σ.1 k) (σ₁.1 k) → Complete k s₀ σ₁ →
      (ok = true → σ₁.1 k = some new) → (rules k limit s₀).Safe (Update.main k limit) i (f ok) Q σ₁) :
    (rules k limit s₀).Safe (Update.main k limit) i (cput k old new >>= f) Q σ := by
  refine Rules.safe_act ?_
  intro σ₁ io hr hi _
  have hw : Within (σ₁.1 k) ((exec io σ₁.1 (.cput k old new : Act Cell Bytes Answer)).2 k) := by
    rcases cput_self (A := Answer) io σ₁.1 k old new with hsame | ⟨hold, hnew⟩
    · rw [hsame]
      exact .refl _
    · rw [hnew, hold]
      exact hsub
  have hkeep : (rules k limit s₀).Keeps i σ₁ (_, σ₁.2) := keeps_of_within hi hw
  exact ⟨hkeep, hf _ _ (hr.trans hw) hkeep.inv (fun hok => (cput_of_true hok).2)⟩

/-! ## The loops -/

/-- What every loop promises. -/
def Added (k : Cell) (item : Bytes) (ok : Bool) (σ : St) : Prop := ok = true → item ∈ items (σ.1 k)

theorem added_of_mem {item : Bytes} (h : item ∈ items (σ.1 k)) (ok : Bool) :
    (rules k limit s₀).Safe (Update.main k limit) i (pure ok) (Added k item) σ :=
  fun _ hr _ _ => hr item h

theorem added_false (item : Bytes) :
    (rules k limit s₀).Safe (Update.main k limit) i (pure false) (Added k item) σ :=
  fun _ _ _ h => absurd h (by simp)

/-- The list an append writes, when nothing is cut. -/
theorem splitCsv_append {item : Bytes} (prepend : Bool) {maxItems : Nat} {l : List Bytes}
    (hitem : CleanItem item) (hl : ∀ x ∈ l, CleanItem x) (hmax : maxItems = 0 ∨ l.length + 1 ≤ maxItems) :
    splitCsv (joinCsv (cutItems prepend maxItems (placeItem item prepend l)))
      = placeItem item prepend l := by
  have hlen := length_placeItem_le item prepend l
  rw [cutItems_of_le (by omega)]
  refine splitCsv_joinCsv (fun x hx => ?_)
  rcases mem_placeItem.mp hx with rfl | hx
  · exact hitem
  · exact hl x hx

/-- **`append_csv_item_cas` adds what it says.** -/
theorem safe_appendCsvLoop {item : Bytes} {prepend : Bool} {maxItems : Nat} (hitem : CleanItem item)
    (hmax : maxItems = 0 ∨ ∃ m, limit = some m ∧ m ≤ maxItems) (attempts : Nat) :
    (rules k limit s₀).Safe (Update.main k limit) i (appendCsvLoop k item prepend maxItems attempts)
      (Added k item) σ := by
  induction attempts generalizing σ with
  | zero => exact added_false item
  | succ attempts ih =>
      refine safe_get k ?_
      intro σ₁ r _ _ hbelow hfound
      have hlen : maxItems = 0 ∨ (items (σ₁.1 k)).length + 1 ≤ maxItems := by
        rcases hmax with h0 | ⟨m, hm, hle⟩
        · exact .inl h0
        · have := hbelow rfl m hm
          exact .inr (by omega)
      cases r with
      | unavailable => exact ih
      | found old =>
          have hold : items (σ₁.1 k) = splitCsv old := by rw [hfound old rfl]; rfl
          rw [hold] at hlen
          have hnext := splitCsv_append prepend hitem (fun x => clean_of_mem_splitCsv) hlen
          show (rules k limit s₀).Safe (Update.main k limit) i (if _ then _ else _) _ σ₁
          split
          · rename_i hmem
            exact added_of_mem (hold ▸ hmem.1) true
          · show (rules k limit s₀).Safe (Update.main k limit) i (if _ then _ else _) _ σ₁
            split
            · rename_i heq
              -- the list already reads the same with the item in it
              refine added_of_mem ?_ true
              rw [hold, ← heq, hnext]
              exact mem_placeItem.mpr (.inl rfl)
            · refine safe_cput ?_ ?_
              · intro x hx
                rw [hnext]
                exact mem_placeItem.mpr (.inr hx)
              · intro σ₂ ok _ _ hok
                cases ok with
                | true =>
                    refine added_of_mem ?_ true
                    rw [hok rfl, items_some, hnext]
                    exact mem_placeItem.mpr (.inl rfl)
                | false => exact ih
      | notFound => exact safe_put k _ (fun _ _ _ _ => ih)

theorem safe_getStr (k' : Cell) {f : Bytes → FeProg α} {Q : α → St → Prop}
    (hf : ∀ (σ₁ : St) v, Within (σ.1 k) (σ₁.1 k) →
      (rules k limit s₀).Safe (Update.main k limit) i (f v) Q σ₁) :
    (rules k limit s₀).Safe (Update.main k limit) i (getStr k' >>= f) Q σ := by
  refine safe_get k' ?_
  intro σ₁ r hw _ _ _
  cases r with
  | found v => exact hf σ₁ v hw
  | notFound => exact hf σ₁ _ hw
  | unavailable => exact hf σ₁ _ hw

section Inbox

variable {user : Bytes} {f : Folder}

theorem safe_oldIndex {g : Bytes → FeProg α} {Q : α → St → Prop}
    (hg : ∀ (σ₁ : St) v, Within (σ.1 k) (σ₁.1 k) →
      (rules k limit s₀).Safe (Update.main k limit) i (g v) Q σ₁) :
    (rules k limit s₀).Safe (Update.main k limit) i (Mail.oldIndex user f >>= g) Q σ := by
  unfold Mail.oldIndex
  split
  · exact safe_getStr _ hg
  · exact hg σ [] (.refl _)

theorem safe_copyIndex {next : Bytes} {g : Unit → FeProg α} {Q : α → St → Prop}
    (hg : ∀ σ₁ : St, Within (σ.1 k) (σ₁.1 k) →
      (rules k limit s₀).Safe (Update.main k limit) i (g ()) Q σ₁) :
    (rules k limit s₀).Safe (Update.main k limit) i (Mail.copyIndex user f next >>= g) Q σ := by
  unfold Mail.copyIndex
  split
  · exact safe_put _ _ (fun σ₁ _ hw _ => hg σ₁ hw)
  · exact hg σ (.refl _)

/-- **`prepend_uid_to_folder` adds what it says.** -/
theorem safe_prependLoop {uid : Bytes} (huid : CleanItem uid) (attempts : Nat) :
    (rules (.folder user f) limit s₀).Safe (Update.main (.folder user f) limit) i
      (Mail.prependLoop user f uid attempts) (Added (.folder user f) uid) σ := by
  induction attempts generalizing σ with
  | zero => exact added_false uid
  | succ attempts ih =>
      refine safe_get _ ?_
      intro σ₁ r _ _ _ hfound
      cases r with
      | unavailable => exact ih
      | found old =>
          have hold : items (σ₁.1 (.folder user f)) = splitCsv old := by rw [hfound old rfl]; rfl
          have hnext := Mail.splitCsv_inFront huid old
          show (rules (.folder user f) limit s₀).Safe (Update.main (.folder user f) limit) i
            (if _ then _ else _) _ σ₁
          split
          · rename_i heq
            refine safe_copyIndex (fun σ₂ hw => added_of_mem (hw uid ?_) true)
            rw [hold, ← heq, hnext]
            exact Mail.mem_inFront.mpr (.inl rfl)
          · refine safe_cput ?_ ?_
            · intro x hx
              rw [hnext]
              exact Mail.mem_inFront.mpr (.inr hx)
            · intro σ₂ ok _ _ hok
              cases ok with
              | true =>
                  refine safe_copyIndex (fun σ₃ hw => added_of_mem (hw uid ?_) true)
                  rw [hok rfl, items_some, hnext]
                  exact Mail.mem_inFront.mpr (.inl rfl)
              | false => exact ih
      | notFound => exact safe_oldIndex (fun _ _ _ => safe_put _ _ (fun _ _ _ _ => ih))

/-- The loop of `deliver_local` the same. -/
theorem safe_deliverLoop {uid : Bytes} (huid : CleanItem uid) (attempts : Nat) :
    (rules (.folder user .inbox) limit s₀).Safe (Update.main (.folder user .inbox) limit) i
      (Mail.deliverLoop user uid attempts)
      (fun final σ => Added (.folder user .inbox) uid final.isSome σ) σ := by
  induction attempts generalizing σ with
  | zero => exact fun _ _ _ h => absurd h (by simp)
  | succ attempts ih =>
      refine safe_get _ ?_
      intro σ₁ r _ _ _ hfound
      cases r with
      | unavailable => exact ih
      | found old =>
          have hold : items (σ₁.1 (.folder user .inbox)) = splitCsv old := by rw [hfound old rfl]; rfl
          have hnext := Mail.splitCsv_inFront huid old
          show (rules (.folder user .inbox) limit s₀).Safe (Update.main (.folder user .inbox) limit) i
            (if _ then _ else _) _ σ₁
          split
          · rename_i heq
            refine fun σ₂ hw _ _ => hw uid ?_
            rw [hold, ← heq, hnext]
            exact Mail.mem_inFront.mpr (.inl rfl)
          · refine safe_cput ?_ ?_
            · intro x hx
              rw [hnext]
              exact Mail.mem_inFront.mpr (.inr hx)
            · intro σ₂ ok _ _ hok
              cases ok with
              | true =>
                  refine fun σ₃ hw _ _ => hw uid ?_
                  rw [hok rfl, items_some, hnext]
                  exact Mail.mem_inFront.mpr (.inl rfl)
              | false => exact ih
      | notFound =>
          refine safe_getStr _ (fun σ₂ v _ => ?_)
          split
          · exact safe_getStr _ (fun _ _ _ => safe_put _ _ (fun _ _ _ _ => ih))
          · exact safe_put _ _ (fun _ _ _ _ => ih)

end Inbox

/-- **`deliver_local` adds what it says.** -/
theorem safe_deliverLocal {user uid metaJson body : Bytes} (huid : CleanItem uid) :
    (rules (.folder user .inbox) limit s₀).Safe (Update.main (.folder user .inbox) limit) i
      (Mail.deliverLocal user uid metaJson body) (Added (.folder user .inbox) uid) σ := by
  unfold Mail.deliverLocal
  split
  · exact added_false uid
  · refine safe_get _ ?_
    intro σ₁ r _ _ _ _
    cases r with
    | notFound => exact added_false uid
    | unavailable => exact added_false uid
    | found pwd =>
        refine safe_put _ _ ?_
        intro σ₂ ok _ _
        cases ok with
        | false => exact added_false uid
        | true =>
            refine safe_put _ _ ?_
            intro σ₃ ok _ hi₃
            cases ok with
            | false => exact added_false uid
            | true =>
                refine Logic.Safe.bind ((safe_deliverLoop huid 5).weaken ?_) hi₃
                intro final σ₄ _ hadd _
                cases final with
                | none =>
                    refine Rules.safe_act ?_
                    intro σ₅ io _ hi₅ _
                    refine ⟨keeps_of_within hi₅ (by rw [del_of_ne (by simp)]; exact .refl _), ?_⟩
                    refine Rules.safe_act ?_
                    intro σ₆ io₆ _ hi₆ _
                    refine ⟨keeps_of_within hi₆ (by rw [del_of_ne (by simp)]; exact .refl _), ?_⟩
                    exact added_false uid
                | some final =>
                    have hmem := hadd rfl
                    -- the copies and the notice are other cells
                    show (rules (.folder user .inbox) limit s₀).Safe
                      (Update.main (.folder user .inbox) limit) i (if _ then _ else _) _ σ₄
                    split
                    · refine safe_put _ _ (fun σ₅ _ hw₅ _ => safe_put _ _ (fun σ₆ _ hw₆ _ => ?_))
                      refine safe_put _ _ (fun σ₇ _ hw₇ _ => ?_)
                      exact added_of_mem (hw₇ uid (hw₆ uid (hw₅ uid hmem))) true
                    · exact safe_put _ _ (fun σ₅ _ hw₅ _ => added_of_mem (hw₅ uid hmem) true)

/-! ## All together -/

theorem safe_answer {item : Bytes} {ok : Bool} (h : Added k item ok σ) :
    (rules k limit s₀).Safe (Update.main k limit) i (answer (.done item ok)) (fun _ _ => True) σ := by
  refine Rules.safe_act (f := fun _ => pure ()) ?_
  intro σ₁ io hr hi _
  have hkeep : (rules k limit s₀).Keeps i σ₁ (after watch i io (.answer (.done item ok)) σ₁) := by
    refine ⟨⟨hi.before, ?_⟩, fun _ _ => .refl _⟩
    intro x hx
    rcases List.mem_cons.mp hx with heq | hx
    · obtain ⟨rfl, rfl⟩ := Answer.done.inj heq
      exact hr x (h rfl)
    · exact hi.added x hx
  exact ⟨hkeep, fun _ _ _ => trivial⟩

/-- **Every update is safe.** -/
theorem safe_update (u : Update k limit) (i : Nat) (hi : Complete k s₀ σ) :
    (rules k limit s₀).Safe (Update.main k limit) i (u.main) (fun _ _ => True) σ := by
  cases u with
  | append item prepend maxItems hclean hbelow =>
      refine Logic.Safe.bind (Logic.Safe.weaken (Q := Added k item) ?_
        (fun ok σ₁ _ h _ => safe_answer h)) hi
      unfold appendCsvItemCas
      split
      · exact added_false item
      · rename_i hne
        exact safe_appendCsvLoop ⟨hne, hclean⟩ hbelow 16
  | prependUid user f uid hk hclean =>
      show (rules k limit s₀).Safe (Update.main k limit) i
        (Mail.prependUidToFolder user f uid >>= fun ok => answer (.done uid ok)) _ σ
      subst hk
      exact Logic.Safe.bind ((safe_prependLoop hclean 16).weaken (fun ok σ₁ _ h _ => safe_answer h)) hi
  | deliver recipient uid metaJson body hk hclean =>
      show (rules k limit s₀).Safe (Update.main k limit) i
        (Mail.deliverLocal recipient uid metaJson body >>= fun ok => answer (.done uid ok)) _ σ
      subst hk
      exact Logic.Safe.bind ((safe_deliverLocal hclean).weaken (fun ok σ₁ _ h _ => safe_answer h)) hi

/--
**No update is lost.**

In every run in which the cell is created only once, and lists stay below the limit,
everything that was in the list or was reported as added is in it.
-/
theorem complete_of_reach {c : Config (watched watch (Update.main k limit))}
    (h : Reach (s₀, []) (When (fun i _ io a σ => Meets k limit i io a σ)) c) : Complete k s₀ c.st :=
  Rules.inv_of_reach (R := rules k limit s₀) ⟨fun _ h => h, fun _ h => absurd h List.not_mem_nil⟩
    (fun u i _ hi => safe_update u i hi) h

/-! ## Two creators -/

section Creators

/-- The condition, tested, for a cell without a limit. -/
def meetsTest (k : Cell) (_ : Nat) (_ : Unit) (_ : Nat) (a : Act Cell Bytes Answer) (σ : St) : Bool :=
  match a with
  | .put k' _ => decide (k' = k → σ.1 k = none)
  | _ => true

theorem meets_of_test (k : Cell) (i : Nat) (l : Unit) (io : Nat) (a : Act Cell Bytes Answer) (σ : St)
    (h : meetsTest k i l io a σ = true) : Meets k none i io a σ := by
  refine ⟨fun _ m hm => absurd hm (by simp), ?_⟩
  rintro v rfl
  have h := of_decide_eq_true h
  exact h rfl

/-- A list of the chat. -/
def ids : Cell := .other (ascii "chat:room:general") (ascii "ids")

/-- Add an item at the end. -/
def add (item : Bytes) (h : comma ∉ item) : Update ids none := .append item false 0 h (.inl rfl)

/-- Everyone is answered. -/
def answers : Empty → Bool := fun c => c.elim

/-- Whether the item has been reported, and whether it is in the list. -/
def report (item : Bytes) (σ : St) : Bool × Bool :=
  (decide (Reported item σ), decide (item ∈ items (σ.1 ids)))

theorem reported_of_report {item : Bytes} {σ : St} {b : Bool} (h : report item σ = (true, b)) :
    Reported item σ ∧ (b = false → item ∉ items (σ.1 ids)) := by
  obtain ⟨h₁, rfl⟩ := Prod.mk.inj h
  exact ⟨of_decide_eq_true h₁, of_decide_eq_false⟩

/-- All of these have been reported. -/
def allReported (l : List Bytes) (σ : St) : Bool := l.all (fun item => decide (Reported item σ))

theorem reported_of_all {l : List Bytes} {σ : St} (h : allReported l σ = true) : ∀ item ∈ l, Reported item σ :=
  fun item hitem => of_decide_eq_true (List.all_eq_true.mp h item hitem)

/-- One creator. Two others read its list side by side; the second of them has to try
again. -/
def threeAppends : List (Line (watched watch (Update.main ids none))) :=
  [.move (.start (add [97] (by decide))), .move (.start (add [98] (by decide))),
   .move (.start (add [99] (by decide))), .move (.act 0 2), .move (.act 0 2), .move (.act 1 2), .move (.act 2 2),
   .move (.act 1 2), .drive answers 20 0, .drive answers 20 2, .drive answers 20 1]

theorem complete_of_reach_threeAppends : ∃ c : Config (watched watch (Update.main ids none)),
    (Reported [97] c.st ∧ Reported [98] c.st ∧ Reported [99] c.st) ∧ Complete ids (fun _ => none) c.st := by
  obtain ⟨c, hr, hc⟩ := reach_of_play (when_of_test (meets_of_test ids)) (fun _ => none, []) threeAppends
    (fun σ => allReported [[97], [98], [99]] σ) (by decide +kernel)
  have hall := reported_of_all hc
  exact ⟨c, ⟨hall _ (by simp), hall _ (by simp), hall _ (by simp)⟩, complete_of_reach hr⟩

/-- Two requests find the cell missing. The first creates it, reads it back and returns;
then the second does the same. -/
def twoCreators : List (Line (watched watch (Update.main ids none))) :=
  [.move (.start (add [97] (by decide))), .move (.start (add [98] (by decide))),
   .move (.act 0 2), .move (.act 1 2), .drive answers 20 0, .drive answers 20 1]

/-- **The first item is gone.** -/
theorem not_complete_twoCreators : ¬ ∀ c : Config (watched watch (Update.main ids none)),
    Reach (fun _ => none, []) Always c → c.Quiet → Complete ids (fun _ => none) c.st := by
  intro h
  obtain ⟨c, hr, hquiet, hc⟩ := quiet_always_of_play (fun _ => none, []) twoCreators
    (fun σ => decide (report [97] σ = (true, false))) (by decide +kernel)
  obtain ⟨hdone, hgone⟩ := reported_of_report (of_decide_eq_true hc)
  exact hgone rfl ((h c hr hquiet).added [97] hdone)

end Creators

end NCloud.Frontend.Lists
