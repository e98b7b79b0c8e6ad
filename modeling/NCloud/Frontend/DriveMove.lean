import NCloud.Lib.Faults
import NCloud.Frontend.DriveDelete
import NCloud.Frontend.Lists

/-!
# Moves that fail

`handle_move` takes an object out of one list, puts it into another and then writes its
parent column; if a later step fails it takes the earlier ones back. What it cannot tell
is a compare-and-swap that has taken effect and is reported as failed. When this happens
to the first step, the loop of `remove_child` does not find the object any more and
returns false, and the move ends without anything to take back.
-/

namespace NCloud.Frontend.Drive

open Process Wire KeyValue

variable {user r : Bytes} {s s' : Store Cell Bytes} {α : Type}

/-- A tree with a root folder. -/
structure Mounted (user r : Bytes) (s : Store Cell Bytes) : Prop where
  root : s (.root user) = some r
  root_ne : r ≠ []
  root_folder : s (.type r) = some folder
  root_children : s (.children r) ≠ none
  tree : WellFormed s r

/-! ## Finding the objects -/

theorem looks_findChild (part : Bytes) (cs : List Bytes) (s : Store Cell Bytes) :
    Looks (findChild part cs) (fun o => ∀ c, o = some c → c ∈ cs) s := by
  induction cs with
  | nil => exact looks_pure nofun
  | cons c cs ih =>
      refine (looks_getStr (Cell.name c)).bind (fun name _ => ?_)
      split
      · refine looks_pure ?_
        rintro _ ⟨⟩
        exact List.mem_cons_self
      · exact ih.mono (fun o _ _ h => ⟨h.1, h.2.1, fun x hx => List.mem_cons_of_mem _ (h.2.2 x hx)⟩)

/-- A list that cannot be read is taken for an empty one. -/
theorem looks_children (d : Bytes) (s : Store Cell Bytes) :
    Looks (getStr (.children d) : FeProg Bytes) (fun v => ∀ x ∈ splitCsv v, x ∈ kids s d) s := by
  refine (looks_getStr (Cell.children d)).mono ?_
  rintro v _ _ ⟨hs, hevs, hv⟩
  refine ⟨hs, hevs, ?_⟩
  rcases hv with rfl | rfl
  · exact fun x hx => absurd hx List.not_mem_nil
  · exact fun x hx => hx

theorem looks_walk {cur : Bytes} (hcur : Below s r cur) (parts : List Bytes) :
    Looks (walk cur parts) (fun o => ∀ x, o = some x → Below s r x) s := by
  induction parts generalizing cur with
  | nil =>
      refine looks_pure ?_
      rintro _ ⟨⟩
      exact hcur
  | cons part parts ih =>
      refine (looks_children cur s).bind (fun children hchildren => ?_)
      refine (looks_findChild part (splitCsv children) s).bind (fun o ho => ?_)
      cases o with
      | none => exact looks_pure nofun
      | some child => exact ih (.child hcur (hchildren child (ho child rfl)))

/-- Nothing is made where the root is complete. -/
theorem Mounted.looks_ensureDriveRoot (h : Mounted user r s) :
    Looks (ensureDriveRoot user) (fun o => ∀ x, o = some x → x = r) s := by
  have hsome : ∀ x, some r = some x → x = r := fun x hx => (Option.some.inj hx).symm
  refine (looks_getStatus (Cell.root user)).bind ?_
  rw [h.root]
  rintro root (rfl | rfl)
  · exact looks_pure nofun
  · show Looks (if r = [] then _ else _) _ s
    rw [if_neg h.root_ne]
    refine (looks_getStatus (Cell.type r)).bind ?_
    rw [h.root_folder]
    rintro type (rfl | rfl)
    · exact looks_pure nofun
    · show Looks (if folder ≠ folder then _ else _) _ s
      rw [if_neg (not_not_intro rfl)]
      obtain ⟨children, hchildren⟩ := Option.ne_none_iff_exists'.mp h.root_children
      refine (looks_getStatus (Cell.children r)).bind ?_
      rw [hchildren]
      rintro list (rfl | rfl)
      · exact looks_pure nofun
      · exact looks_pure hsome

theorem Mounted.looks_resolvePath (h : Mounted user r s) (path : Bytes) :
    Looks (resolvePath user path) (fun o => ∀ q, o = some q → Below s r q.1) s := by
  refine h.looks_ensureDriveRoot.bind (fun o ho => ?_)
  cases o with
  | none => exact looks_pure nofun
  | some root =>
      obtain rfl := ho root rfl
      show Looks (if path = [] ∨ path = [slash] then _ else _) _ s
      split
      · refine looks_pure ?_
        rintro _ ⟨⟩
        exact .self
      · refine (looks_walk .self (pathParts path)).bind (fun o ho => ?_)
        cases o with
        | none => exact looks_pure nofun
        | some cur =>
            refine (looks_getStr (Cell.type cur)).bind (fun type _ => looks_pure ?_)
            rintro _ ⟨⟩
            exact ho cur rfl

theorem Mounted.looks_firstFolder (h : Mounted user r s) (paths : List Bytes) :
    Looks (firstFolder user paths) (fun o => ∀ q, o = some q → Below s r q.2) s := by
  induction paths with
  | nil => exact looks_pure nofun
  | cons path paths ih =>
      refine (h.looks_resolvePath path).bind (fun o ho => ?_)
      cases o with
      | none => exact ih
      | some q =>
          obtain ⟨x, type⟩ := q
          show Looks (if type = folder then _ else _) _ s
          split
          · refine looks_pure ?_
            rintro _ ⟨⟩
            exact ho _ rfl
          · exact ih

theorem only_gets_anyNamed (wanted skip : Bytes) (cs : List Bytes) :
    (anyNamed wanted skip cs).Only (Gets (fun _ => True)) (fun _ => True) := by
  induction cs with
  | nil => trivial
  | cons c cs ih =>
      rw [anyNamed]
      split
      · exact ih
      · refine Prog.Only.bind (only_gets_getStr trivial) (fun name => ?_)
        split
        · trivial
        · exact ih

theorem looks_childNameExists (d wanted skip : Bytes) (s : Store Cell Bytes) :
    Looks (childNameExists d wanted skip) (fun _ => True) s :=
  looks_of_gets (Prog.Only.bind (only_gets_getStr trivial) (fun _ => only_gets_anyNamed wanted skip _))

theorem looks_isDescendantOf (possible ancestor : Bytes) (s : Store Cell Bytes) :
    Looks (isDescendantOf possible ancestor) (fun _ => True) s := by
  refine looks_of_gets (P := fun _ => True) ((only_descendsLoop ancestor 4096 [] possible).mono ?_ (fun _ h => h))
  intro a ha
  cases a with
  | get k => exact (trivial : True)
  | _ => exact ha.elim

/-- What is known of a move when it begins to write, whatever has been read. -/
structure Underway (r : Bytes) (s : Store Cell Bytes) (job : MoveJob) : Prop where
  below : Below s r job.uid
  source : job.source = [] ∨ job.source = parentOf s job.uid
  apart : job.source ≠ job.target

/-- **`handle_move` up to its first write** only reads. -/
theorem Mounted.looks_planMove (h : Mounted user r s) (srcPath dstPath : Bytes) :
    Looks (planMove user srcPath dstPath) (fun o => ∀ job, o = .ok job → Underway r s job) s := by
  rw [planMove]
  split
  · exact looks_pure not_planned
  · refine (looks_getStatus (Cell.root user)).bind ?_
    rw [h.root]
    rintro root (rfl | rfl)
    · exact looks_pure not_planned
    · refine (h.looks_resolvePath srcPath).bind (fun o ho => ?_)
      cases o with
      | none => exact looks_pure not_planned
      | some q =>
          obtain ⟨uid, type⟩ := q
          have hbelow : Below s r uid := ho _ rfl
          refine (h.looks_firstFolder (candidates srcPath dstPath)).bind (fun o ho => ?_)
          cases o with
          | none => exact looks_pure not_planned
          | some q =>
              obtain ⟨resolved, dstUid⟩ := q
              refine (looks_getStr (Cell.name uid)).bind (fun name _ => ?_)
              refine looks_ite_bind (looks_isDescendantOf dstUid uid s) (looks_pure trivial) (fun below _ => ?_)
              dsimp only
              split
              · exact looks_pure not_planned
              · refine (looks_childNameExists dstUid name uid s).bind (fun taken _ => ?_)
                split
                · exact looks_pure not_planned
                · refine (looks_getStr (Cell.parent uid)).bind (fun oldParent hparent => ?_)
                  split
                  · exact looks_pure not_planned
                  · rename_i hne
                    refine looks_pure ?_
                    rintro _ ⟨⟩
                    exact ⟨hbelow, hparent, hne⟩

/-! ## Lists -/

/-- A compare-and-swap that takes `x` out of the list of `d`, takes effect and is reported
as failed. -/
def TakenUnseen (d x : Bytes) (e : Event Cell Bytes Answer) : Prop :=
  e.io = 1 ∧ ∃ old new, e.act = .cput (.children d) old new ∧ e.store (.children d) = some old ∧
    x ∈ splitCsv old ∧ x ∉ splitCsv new

theorem not_takenUnseen_of_get {d x : Bytes} {e : Event Cell Bytes Answer} (h : ∃ k, e.act = .get k) :
    ¬ TakenUnseen d x e := by
  obtain ⟨k, hk⟩ := h
  rintro ⟨-, old, new, hact, -⟩
  rw [hk] at hact
  exact absurd hact (by simp)

section Remove

variable {d x : Bytes}

/-- An object that is not in the list, or that the reader does not see there. -/
theorem looks_removeChildLoop (hx : x ∉ kids s d) (attempts : Nat) :
    Looks (removeChildLoop d x true attempts) (fun ok => ok = false) s := by
  cases attempts with
  | zero => exact looks_pure rfl
  | succ attempts =>
      refine (looks_children d s).bind (fun old hold => ?_)
      have hnot : x ∉ splitCsv old := fun hmem => hx (hold x hmem)
      rw [if_pos hnot]
      exact looks_pure rfl

/-- **The loop of `remove_child`**: nothing happens, or the object is taken out; and this
is reported unless the operation that did it was reported as failed. -/
theorem leads_removeChildLoop (hx : x ∈ kids s d) (attempts : Nat) :
    Leads Alone (removeChildLoop d x true attempts) (fun ok s' evs =>
      (s' = s ∧ ok = false ∧ ∀ e ∈ evs, ¬ TakenUnseen d x e) ∨
        (s' = unlist s d x ∧ (ok = true ↔ ∀ e ∈ evs, ¬ TakenUnseen d x e))) s := by
  induction attempts with
  | zero => exact .inl ⟨rfl, rfl, fun e he => absurd he List.not_mem_nil⟩
  | succ attempts ih =>
      obtain ⟨old, hold⟩ : ∃ old, s (.children d) = some old := by
        cases hc : s (.children d) with
        | none =>
            rw [kids, hc] at hx
            exact absurd hx List.not_mem_nil
        | some old => exact ⟨old, rfl⟩
      have hkids : kids s d = splitCsv old := by rw [kids, hold]; rfl
      refine leads_getStr ?_
      rintro io _ rfl
      have hget : ¬ TakenUnseen d x ⟨.get (.children d), io, s⟩ := not_takenUnseen_of_get ⟨_, rfl⟩
      by_cases hio : io = 0
      · -- taken for an empty list
        rw [if_pos hio, if_pos (show x ∉ splitCsv (default : Bytes) from List.not_mem_nil)]
        refine .inl ⟨rfl, rfl, fun e he => ?_⟩
        obtain rfl := List.mem_singleton.mp he
        exact hget
      · rw [if_neg hio, hold, Option.getD_some]
        show Leads Alone (if x ∉ splitCsv old then _ else _) _ s
        rw [if_neg (not_not_intro (hkids ▸ hx))]
        refine leads_act ?_
        rintro io' _ rfl
        have hswap : ∀ {evs : List (Event Cell Bytes Answer)}, io' ≠ 1 →
            ((∀ e ∈ (⟨.get (.children d), io, s⟩ :: ⟨.cput (.children d) old
                (joinCsv ((splitCsv old).filter (· ≠ x))), io', s⟩ :: evs : List (Event Cell Bytes Answer)),
              ¬ TakenUnseen d x e) ↔ ∀ e ∈ evs, ¬ TakenUnseen d x e) := by
          intro evs hne
          rw [List.forall_mem_cons, List.forall_mem_cons]
          exact (and_iff_right hget).trans (and_iff_right (fun h => hne h.1))
        have hnew : Function.update s (.children d) (some (joinCsv ((splitCsv old).filter (· ≠ x))))
            = unlist s d x := by
          rw [unlist, hkids]
        show Leads Alone (if decide (2 ≤ io' ∧ s (.children d) = some old) = true then _ else _) _
          (if io' ≠ 0 ∧ s (.children d) = some old then Function.update s (.children d) _ else s)
        by_cases hzero : io' = 0
        · -- nothing has happened
          rw [if_neg (fun h => absurd (of_decide_eq_true h).1 (by omega)), if_neg (fun h => h.1 hzero)]
          refine ih.mono ?_
          rintro ok s₂ evs (⟨hs, hok, hevs⟩ | ⟨hs, hok⟩)
          · exact .inl ⟨hs, hok, (hswap (by omega)).mpr hevs⟩
          · exact .inr ⟨hs, hok.trans (hswap (by omega)).symm⟩
        · rw [if_pos (⟨hzero, hold⟩ : io' ≠ 0 ∧ s (.children d) = some old), hnew]
          by_cases hone : io' = 1
          · -- the object is gone and the loop does not know
            rw [if_neg (fun h => absurd (of_decide_eq_true h).1 (by omega))]
            have hgone : x ∉ kids (unlist s d x) d := by
              rw [kids_unlist, if_pos rfl]
              simp
            refine (looks_removeChildLoop hgone attempts).mono ?_
            rintro ok _ evs ⟨rfl, -, rfl⟩
            refine .inr ⟨rfl, iff_of_false Bool.false_ne_true (fun hevs => ?_)⟩
            refine hevs ⟨.cput (.children d) old (joinCsv ((splitCsv old).filter (· ≠ x))), io', s⟩ (by simp)
              ⟨hone, old, _, rfl, hold, hkids ▸ hx, fun hmem => ?_⟩
            have hmem' : x ∈ kids (unlist s d x) d := by
              rw [← hnew, kids, Function.update_self]
              exact hmem
            exact hgone hmem'
          · rw [if_pos (decide_eq_true ⟨by omega, hold⟩)]
            refine .inr ⟨rfl, iff_of_true rfl ?_⟩
            exact (hswap hone).mpr (fun e he => absurd he List.not_mem_nil)

/-- What `remove_child` does is to read the list, and to swap it for one without the
object. -/
theorem only_removeChildLoop (requirePresent : Bool) (attempts : Nat) :
    (removeChildLoop d x requirePresent attempts).Only (fun a : Act Cell Bytes Answer => (∃ k, a = .get k) ∨
      ∃ old, a = .cput (.children d) old (joinCsv ((splitCsv old).filter (· ≠ x)))) (fun _ => True) := by
  induction attempts with
  | zero => trivial
  | succ attempts ih =>
      rw [removeChildLoop]
      refine Prog.Only.bind ((only_gets_getStr (P := fun _ => True) trivial).mono ?_ (fun _ h => h)) (fun old => ?_)
      · intro a ha
        cases a with
        | get k => exact .inl ⟨k, rfl⟩
        | _ => exact ha.elim
      · split
        · trivial
        · refine only_act (.inr ⟨old, rfl⟩) (fun ok => ?_)
          split
          · trivial
          · exact ih

/-- It takes out nothing else. -/
theorem takenUnseen_remove {e : Event Cell Bytes Answer} (he : (∃ k, e.act = .get k) ∨
    ∃ old, e.act = .cput (.children d) old (joinCsv ((splitCsv old).filter (· ≠ x)))) {d' y : Bytes}
    (h : TakenUnseen d' y e) : d' = d ∧ y = x := by
  rcases he with he | ⟨old, hact⟩
  · exact absurd h (not_takenUnseen_of_get he)
  · obtain ⟨-, old', new, hact', -, hin, hout⟩ := h
    rw [hact] at hact'
    obtain ⟨hcell, rfl, rfl⟩ := Act.cput.inj hact'
    refine ⟨(Cell.children.inj hcell).symm, ?_⟩
    by_contra hne
    refine hout ?_
    rw [splitCsv_joinCsv (fun z hz => clean_of_mem_splitCsv (List.mem_filter.mp hz).1)]
    exact List.mem_filter.mpr ⟨hin, by simpa using hne⟩

end Remove

section Append

variable {k : Cell} {x : Bytes}

/-- **`append_csv_item_cas`** has added the item when it returns true. -/
theorem leads_appendCsvLoop (hclean : CleanItem x) (attempts : Nat) (s : Store Cell Bytes) :
    Leads Alone (appendCsvLoop k x false 0 attempts) (fun ok s' _ => ok = true → x ∈ items (s' k)) s := by
  have hmem : ∀ old, x ∈ splitCsv (joinCsv (cutItems false 0 (placeItem x false (splitCsv old)))) := by
    intro old
    rw [Lists.splitCsv_append false hclean (fun _ => clean_of_mem_splitCsv) (.inl rfl)]
    exact mem_placeItem.mpr (.inl rfl)
  induction attempts generalizing s with
  | zero => exact fun hok => absurd hok Bool.false_ne_true
  | succ attempts ih =>
      rw [appendCsvLoop]
      refine leads_getStatus ?_
      rintro io _ rfl
      by_cases hio : io = 0
      · rw [if_pos hio]
        exact (ih s).mono (fun _ _ _ h => h)
      · rw [if_neg hio]
        cases hk : s k with
        | none =>
            refine leads_act ?_
            rintro io' _ rfl
            exact (ih _).mono (fun _ _ _ h => h)
        | some old =>
            show Leads Alone (if x ∈ splitCsv old ∧ false = false then _ else _) _ s
            split
            · rename_i hin
              intro _
              rw [hk]
              exact hin.1
            · dsimp only
              split
              · rename_i heq
                intro _
                rw [hk, ← heq]
                exact hmem old
              · refine leads_act ?_
                rintro io' _ rfl
                show Leads Alone (if decide (2 ≤ io' ∧ s k = some old) = true then _ else _) _ _
                split
                · rename_i hok
                  intro _
                  have hcell := (@cput_of_true Cell Bytes Answer _ _ io' s k old
                    (joinCsv (cutItems false 0 (placeItem x false (splitCsv old)))) hok).2
                  rw [hcell]
                  exact hmem old
                · exact (ih _).mono (fun _ _ _ h => h)

/-- What `append_csv_item_cas` does to a list leaves what is in it. -/
def Extends (k : Cell) : Act Cell Bytes Answer → Prop
  | .get _ => True
  | .put k' _ => k' = k
  | .cput k' old new => k' = k ∧ ∀ y ∈ splitCsv old, y ∈ splitCsv new
  | _ => False

theorem only_appendCsvLoop (hclean : CleanItem x) (attempts : Nat) :
    (appendCsvLoop k x false 0 attempts).Only (Extends k) (fun _ => True) := by
  refine only_appendCsvLoop_of trivial (fun _ => rfl) (fun old => ⟨rfl, fun y hy => ?_⟩) attempts
  rw [Lists.splitCsv_append false hclean (fun _ => clean_of_mem_splitCsv) (.inl rfl)]
  exact mem_placeItem.mpr (.inr hy)

theorem not_takenUnseen_of_extends {e : Event Cell Bytes Answer} (he : Extends k e.act) {d y : Bytes} :
    ¬ TakenUnseen d y e := by
  rintro ⟨-, old, new, hact, -, hin, hout⟩
  rw [hact] at he
  exact hout (he.2 y hin)

theorem onCells_of_extends (a : Act Cell Bytes Answer) (h : Extends k a) : OnCells (· = k) a := by
  cases a with
  | get k' => trivial
  | put k' v => exact h
  | cput k' old new => exact h.1
  | del k' => exact h.elim
  | answer ans => exact h.elim

end Append

/-- Programs leave other cells alone however their operations go. -/
theorem leads_onCells {P : Cell → Prop} {p : FeProg α} (hp : p.Only (OnCells P) (fun _ => True))
    (s : Store Cell Bytes) : Leads Alone p (fun _ s' _ => ∀ k, ¬ P k → s' k = s k) s := by
  refine (leads_keep (C := fun _ => True) (T := fun s' => ∀ k, ¬ P k → s' k = s k) ?_ ?_ hp (fun _ _ => rfl)).mono
    (fun _ _ _ h => h (fun _ _ => trivial))
  · rintro s₁ _ rfl h
    exact h
  · intro a io s₁ ha _ hs k hk
    have hne : ∀ k', P k' → k ≠ k' := fun k' hk' heq => hk (by rw [heq]; exact hk')
    cases a with
    | get k' => exact hs k hk
    | put k' v => exact (put_of_ne (A := Answer) (hne k' ha)).trans (hs k hk)
    | cput k' old new => exact (cput_of_ne (A := Answer) (hne k' ha)).trans (hs k hk)
    | del k' => exact (del_of_ne (A := Answer) (hne k' ha)).trans (hs k hk)
    | answer ans => exact ha.elim

/-- **`append_child`.** -/
theorem leads_appendChild {x : Bytes} (hclean : CleanItem x) (d : Bytes) (s : Store Cell Bytes) :
    Leads Alone (appendChild d x) (fun ok s' evs => (ok = true → x ∈ kids s' d) ∧
      (∀ k, k ≠ .children d → s' k = s k) ∧ ∀ e ∈ evs, ∀ d' y, ¬ TakenUnseen d' y e) s := by
  rw [appendChild, appendCsvItemCas, if_neg hclean.ne_nil]
  have honly := only_appendCsvLoop (k := .children d) hclean 16
  refine ((leads_appendCsvLoop hclean 16 s).and ((leads_onCells (honly.mono onCells_of_extends (fun _ h => h)) s).and
    (leads_only honly))).mono ?_
  rintro ok s' evs ⟨hin, hframe, hevs⟩
  exact ⟨hin, hframe, fun e he d' y => not_takenUnseen_of_extends (hevs e he)⟩

/-- **`remove_child`**, whatever it finds. -/
theorem leads_removeChild_frame (d x : Bytes) (requirePresent : Bool) (s : Store Cell Bytes) :
    Leads Alone (removeChild d x requirePresent) (fun _ s' evs => (∀ k, k ≠ .children d → s' k = s k) ∧
      ∀ e ∈ evs, ∀ d' y, TakenUnseen d' y e → d' = d ∧ y = x) s := by
  have honly := only_removeChildLoop (d := d) (x := x) requirePresent 8
  refine ((leads_onCells (P := (· = .children d)) (honly.mono ?_ (fun _ h => h)) s).and (leads_only honly)).mono ?_
  · rintro a (⟨k, rfl⟩ | ⟨old, rfl⟩)
    · trivial
    · rfl
  · rintro ok s' evs ⟨hframe, hevs⟩
    exact ⟨hframe, fun e he d' y => takenUnseen_remove (hevs e he)⟩

/-! ## The request -/

/-- What `performMove` does once the object is out of its list, with what the calls that
take something back return. -/
def finishMoveLogged (job : MoveJob) : FeProg (Answer × List Bool) := do
  if !(← appendChild job.target job.uid) then
    let back ← appendChild job.source job.uid
    return (.error "move failed", [back])
  if !(← put (.parent job.uid) job.target) then
    let out ← removeChild job.target job.uid false
    let back ← appendChild job.source job.uid
    return (.error "move failed", [out, back])
  return (.ok [] job.path, [])

/-- `performMove`, with its log. -/
def performMoveLogged (job : MoveJob) : FeProg (Answer × List Bool) := do
  if !(← removeChild job.source job.uid true) then return (.error "move failed", [])
  finishMoveLogged job

/-- What is known after a move: the answer, what was to be done if it came to that, and
what the calls that take something back returned. -/
structure Logged where
  answer : Answer
  job : Option MoveJob
  takenBack : List Bool

/-- `handle_move`, with its log. -/
def handleMoveLogged (user srcPath dstPath : Bytes) : FeProg Logged := do
  match ← planMove user srcPath dstPath with
  | .error ans => return ⟨ans, none, []⟩
  | .ok job =>
      let (ans, takenBack) ← performMoveLogged job
      return ⟨ans, some job, takenBack⟩

theorem performMove_eq (job : MoveJob) : performMove job = performMoveLogged job >>= fun q => pure q.1 := by
  rw [performMove, performMoveLogged, Prog.bind_assoc]
  refine congrArg (removeChild job.source job.uid true >>= ·) (funext fun removed => ?_)
  cases removed with
  | false => rfl
  | true =>
      show (appendChild job.target job.uid >>= _) = finishMoveLogged job >>= _
      rw [finishMoveLogged, Prog.bind_assoc]
      refine congrArg (appendChild job.target job.uid >>= ·) (funext fun appended => ?_)
      cases appended with
      | false =>
          show (appendChild job.source job.uid >>= _) = (appendChild job.source job.uid >>= _) >>= _
          rw [Prog.bind_assoc]
          rfl
      | true =>
          show (put (Cell.parent job.uid) job.target >>= _) = (put (Cell.parent job.uid) job.target >>= _) >>= _
          rw [Prog.bind_assoc]
          refine congrArg (put (Cell.parent job.uid) job.target >>= ·) (funext fun written => ?_)
          cases written with
          | true => rfl
          | false =>
              show (removeChild job.target job.uid false >>= _) = (removeChild job.target job.uid false >>= _) >>= _
              rw [Prog.bind_assoc]
              refine congrArg (removeChild job.target job.uid false >>= ·) (funext fun out => ?_)
              show (appendChild job.source job.uid >>= _) = (appendChild job.source job.uid >>= _) >>= _
              rw [Prog.bind_assoc]
              rfl

/-- The log changes nothing. -/
theorem handleMove_eq (user srcPath dstPath : Bytes) :
    handleMove user srcPath dstPath = handleMoveLogged user srcPath dstPath >>= fun q => pure q.answer := by
  rw [handleMove, handleMoveLogged, Prog.bind_assoc]
  refine congrArg (planMove user srcPath dstPath >>= ·) (funext fun o => ?_)
  cases o with
  | error ans => rfl
  | ok job =>
      show performMove job = (performMoveLogged job >>= _) >>= _
      rw [performMove_eq, Prog.bind_assoc]
      rfl

/-- An object that was to be moved is in the list it was in or in that of the folder it
was to be moved to. If nothing was to be moved nothing has changed. -/
def StillListed (r : Bytes) (s s' : Store Cell Bytes) : Option MoveJob → Prop
  | none => s' = s
  | some job => ∀ d, Below s r d → job.uid ∈ kids s d → job.uid ∈ kids s' d ∨ job.uid ∈ kids s' job.target

/-- An object of the drive is taken out of its list, and this is reported as failed. -/
def Loses (r : Bytes) (s : Store Cell Bytes) (e : Event Cell Bytes Answer) : Prop :=
  ∃ d x, Below s r d ∧ x ∈ kids s d ∧ TakenUnseen d x e

theorem not_loses_of_get {e : Event Cell Bytes Answer} (h : ∃ k, e.act = .get k) : ¬ Loses r s e := by
  rintro ⟨d, x, -, -, hlost⟩
  exact not_takenUnseen_of_get h hlost

section Perform

variable {job : MoveJob}

/-- The object is the only thing that can be lost from a list here, and the list is that
of the target, where it was not. -/
theorem leads_finishMoveLogged (hclean : CleanItem job.uid) (s : Store Cell Bytes) :
    Leads Alone (finishMoveLogged job) (fun res s' evs =>
      ((∀ ok ∈ res.2, ok = true) → job.uid ∈ kids s' job.source ∨ job.uid ∈ kids s' job.target) ∧
      ∀ e ∈ evs, ∀ d y, TakenUnseen d y e → d = job.target ∧ y = job.uid) s := by
  rw [finishMoveLogged]
  refine Leads.bind ((leads_appendChild hclean job.target s).mono ?_)
  rintro appended s₁ evs₁ ⟨hin, -, hevs₁⟩
  cases appended with
  | false =>
      refine Leads.bind ((leads_appendChild hclean job.source s₁).mono ?_)
      rintro back s₂ evs₂ ⟨hback, -, hevs₂⟩
      refine ⟨fun hall => .inl (hback (hall back (by simp))), ?_⟩
      intro e he d y hlost
      rcases List.mem_append.mp he with he | he
      · exact absurd hlost (hevs₁ e he d y)
      · rw [List.append_nil] at he
        exact absurd hlost (hevs₂ e he d y)
  | true =>
      refine leads_act ?_
      rintro io _ rfl
      have hput : ∀ d y, ¬ TakenUnseen d y ⟨.put (.parent job.uid) job.target, io, s₁⟩ := by
        rintro d y ⟨-, old, new, hact, -⟩
        exact absurd hact (by simp)
      have hkids : ∀ d, kids (exec (A := Answer) io s₁ (.put (.parent job.uid) job.target)).2 d = kids s₁ d := by
        intro d
        rw [kids, put_of_ne (by simp)]
        rfl
      show Leads Alone (if (!decide (2 ≤ io)) = true then _ else _) _ _
      by_cases hio : 2 ≤ io
      · rw [decide_eq_true hio, if_neg (by simp)]
        refine ⟨fun _ => .inr ?_, ?_⟩
        · rw [hkids]
          exact hin rfl
        · intro e he d y hlost
          rcases List.mem_append.mp he with he | he
          · exact absurd hlost (hevs₁ e he d y)
          · obtain rfl := List.mem_singleton.mp he
            exact absurd hlost (hput d y)
      · rw [decide_eq_false hio, if_pos (by simp)]
        refine Leads.bind ((leads_removeChild_frame job.target job.uid false _).mono ?_)
        rintro out s₂ evs₂ ⟨-, hevs₂⟩
        refine Leads.bind ((leads_appendChild hclean job.source s₂).mono ?_)
        rintro back s₃ evs₃ ⟨hback, -, hevs₃⟩
        refine ⟨fun hall => .inl (hback (hall back (by simp))), ?_⟩
        intro e he d y hlost
        simp only [List.append_nil, List.mem_append, List.mem_cons] at he
        rcases he with he | rfl | he | he
        · exact absurd hlost (hevs₁ e he d y)
        · exact absurd hlost (hput d y)
        · exact hevs₂ e he d y hlost
        · exact absurd hlost (hevs₃ e he d y)

/-- An object below the root that some list has is in no other. -/
theorem WellFormed.only_list (h : WellFormed s r) (hne : r ≠ []) {d d' x : Bytes} (hd : Below s r d)
    (hx : x ∈ kids s d) (hx' : x ∈ kids s d') : d' = d := by
  have htop : x ≠ r := fun heq => (h.branching hne).top d hd (heq ▸ hx)
  obtain ⟨d₀, -, -, huniq⟩ := h.once x (.child hd hx) htop
  rw [huniq d hx, huniq d' hx']

/-- **The writes of `handle_move`.** -/
theorem Mounted.leads_performMoveLogged (h : Mounted user r s) (hjob : Underway r s job) :
    Leads Alone (performMoveLogged job) (fun res s' evs => (∀ ok ∈ res.2, ok = true) →
      (StillListed r s s' (some job) ↔ ∀ e ∈ evs, ¬ Loses r s e)) s := by
  have hstays : StillListed r s s (some job) := fun d _ hx => .inl hx
  rw [performMoveLogged]
  by_cases hin : job.uid ∈ kids s job.source
  · have hclean : CleanItem job.uid := clean_of_mem_splitCsv hin
    have honly : ∀ {d}, Below s r d → job.uid ∈ kids s d → d = job.source :=
      fun hd hx => (h.tree.only_list h.root_ne hd hx hin).symm
    refine Leads.bind (((leads_removeChildLoop hin 8).and (leads_removeChild_frame job.source job.uid true s)).mono ?_)
    rintro removed s₁ evs₁ ⟨hremoved, -, hframe⟩
    have hkept : (∀ e ∈ evs₁, ¬ TakenUnseen job.source job.uid e) → ∀ e ∈ evs₁, ¬ Loses r s e := by
      rintro hall e he ⟨d, y, -, -, hlost⟩
      obtain ⟨rfl, rfl⟩ := hframe e he d y hlost
      exact hall e he hlost
    rcases hremoved with ⟨rfl, rfl, hall⟩ | ⟨rfl, hok⟩
    · intro _
      rw [List.append_nil]
      exact iff_of_true hstays (hkept hall)
    · cases removed with
      | false =>
          intro _
          rw [List.append_nil]
          obtain ⟨e, he, hlost⟩ : ∃ e ∈ evs₁, TakenUnseen job.source job.uid e := by
            by_contra hnone
            exact Bool.false_ne_true (hok.mpr (fun e he hlost => hnone ⟨e, he, hlost⟩))
          by_cases hsource : Below s r job.source
          · refine iff_of_false (fun hlisted => ?_) (fun hall => hall e he ⟨_, _, hsource, hin, hlost⟩)
            rcases hlisted _ hsource hin with hmem | hmem
            · exact (mem_kids_unlist.mp hmem).2 ⟨rfl, rfl⟩
            · exact hjob.apart (h.tree.only_list h.root_ne hsource hin (mem_kids_unlist.mp hmem).1).symm
          · refine iff_of_true (fun d hd hx => absurd (honly hd hx ▸ hd) hsource) ?_
            rintro e he ⟨d, y, hd, hy, hlost⟩
            obtain ⟨rfl, rfl⟩ := hframe e he d y hlost
            exact hsource hd
      | true =>
          refine (leads_finishMoveLogged hclean _).mono ?_
          rintro res s₂ evs₂ ⟨hlisted, hevs₂⟩ hback
          refine iff_of_true (fun d hd hx => ?_) ?_
          · rw [honly hd hx]
            exact hlisted hback
          · intro e he
            rcases List.mem_append.mp he with he | he
            · exact hkept (hok.mp rfl) e he
            · rintro ⟨d, y, hd, hy, hlost⟩
              obtain ⟨rfl, rfl⟩ := hevs₂ e he d y hlost
              exact hjob.apart (honly hd hy).symm
  · refine Leads.bind ((looks_removeChildLoop hin 8).mono ?_)
    rintro removed _ evs₁ ⟨rfl, hgets, rfl⟩ _
    rw [List.append_nil]
    exact iff_of_true hstays (fun e he => not_loses_of_get (hgets e he))

/-- **`handle_move`.** -/
theorem Mounted.leads_handleMoveLogged (h : Mounted user r s) (srcPath dstPath : Bytes) :
    Leads Alone (handleMoveLogged user srcPath dstPath) (fun res s' evs => (∀ ok ∈ res.takenBack, ok = true) →
      (StillListed r s s' res.job ↔ ∀ e ∈ evs, ¬ Loses r s e)) s := by
  rw [handleMoveLogged]
  refine Leads.bind ((h.looks_planMove srcPath dstPath).mono ?_)
  rintro plan _ evs ⟨rfl, hgets, hplan⟩
  have hsilent : ∀ e ∈ evs, ¬ Loses r s e := fun e he => not_loses_of_get (hgets e he)
  cases plan with
  | error ans =>
      intro _
      rw [List.append_nil]
      exact iff_of_true rfl hsilent
  | ok job =>
      refine Leads.bind ((h.leads_performMoveLogged (hplan job rfl)).mono ?_)
      rintro res s₁ evs₁ hdone hback
      rw [List.append_nil, List.forall_mem_append]
      exact (hdone hback).trans (and_iff_right hsilent).symm

end Perform

/-- A run of `handle_move`. -/
def move (user srcPath dstPath : Bytes) (outcomes : List Nat) (s : Store Cell Bytes) :
    Played Cell Bytes Answer Answer :=
  play (handleMove user srcPath dstPath) (outcomes.map .alone) s

/-- The log of this run. -/
def moveLog (user srcPath dstPath : Bytes) (outcomes : List Nat) (s : Store Cell Bytes) : Logged :=
  (play (handleMoveLogged user srcPath dstPath) (outcomes.map .alone) s).value

/-- **When a move does not lose what it moves.** If what is to be taken back is taken back,
the object is in the list it was in or in that of its destination, exactly if no operation
that took an object of the drive out of its list was reported as failed. -/
theorem stillListed_move_iff (h : Mounted user r s) (srcPath dstPath : Bytes) (outcomes : List Nat)
    (hback : ∀ ok ∈ (moveLog user srcPath dstPath outcomes s).takenBack, ok = true) :
    StillListed r s (move user srcPath dstPath outcomes s).store (moveLog user srcPath dstPath outcomes s).job ↔
      ∀ e ∈ (move user srcPath dstPath outcomes s).events, ¬ Loses r s e := by
  have hrun := (h.leads_handleMoveLogged srcPath dstPath).play_alone outcomes hback
  rw [move, handleMove_eq, play_map]
  exact hrun

/-- Two folders. -/
def sideBySide : Store Cell Bytes := serve (ascii "u") (twoFolders.take 2) (fun _ => none)

theorem mounted_sideBySide : Mounted (ascii "u") (newRoot (ascii "u")) sideBySide := by
  obtain ⟨used, htree⟩ : ∃ used, Tree (ascii "u") (newRoot (ascii "u")) used sideBySide :=
    tree_serve (tree_empty (ascii "u")) (by decide +kernel) (by decide +kernel)
  exact ⟨by decide +kernel, htree.root_ne, by decide +kernel, by decide +kernel, htree.wellFormed⟩

/-- The list of the destination cannot be read, and the object is put back. -/
theorem stillListed_move_iff_sideBySide : StillListed (newRoot (ascii "u")) sideBySide
    (move (ascii "u") (ascii "/a") (ascii "/b") (List.replicate 21 2 ++ List.replicate 16 0) sideBySide).store
    (moveLog (ascii "u") (ascii "/a") (ascii "/b") (List.replicate 21 2 ++ List.replicate 16 0) sideBySide).job := by
  refine (stillListed_move_iff mounted_sideBySide (ascii "/a") (ascii "/b") _ (by decide +kernel)).mpr ?_
  have hio : ∀ e ∈ (move (ascii "u") (ascii "/a") (ascii "/b") (List.replicate 21 2 ++ List.replicate 16 0)
      sideBySide).events, e.io ≠ 1 := by decide +kernel
  rintro e he ⟨d, x, -, -, hone, -⟩
  exact hio e he hone

/-- **An object that is lost.** The 21st operation of the request is the one that takes the
object out of the list; it takes effect and is reported as failed. -/
theorem not_stillListed_sideBySide :
    Mounted (ascii "u") (newRoot (ascii "u")) sideBySide ∧
    (∀ ok ∈ (moveLog (ascii "u") (ascii "/a") (ascii "/b") (List.replicate 20 2 ++ [1]) sideBySide).takenBack,
      ok = true) ∧
    ¬ StillListed (newRoot (ascii "u")) sideBySide
      (move (ascii "u") (ascii "/a") (ascii "/b") (List.replicate 20 2 ++ [1]) sideBySide).store
      (moveLog (ascii "u") (ascii "/a") (ascii "/b") (List.replicate 20 2 ++ [1]) sideBySide).job := by
  refine ⟨mounted_sideBySide, by decide +kernel, ?_⟩
  have hjob : (moveLog (ascii "u") (ascii "/a") (ascii "/b") (List.replicate 20 2 ++ [1]) sideBySide).job.map
      (fun job => (job.uid, job.target)) = some (driveNewUid 7 0, driveNewUid 7 1) := by decide +kernel
  obtain ⟨job, hsome, heq⟩ := Option.map_eq_some_iff.mp hjob
  obtain ⟨huid, htarget⟩ := Prod.mk.inj heq
  rw [hsome]
  intro hlisted
  rcases hlisted _ .self (by rw [huid]; decide +kernel) with hmem | hmem
  · rw [huid] at hmem
    exact absurd hmem (by decide +kernel)
  · rw [huid, htarget] at hmem
    exact absurd hmem (by decide +kernel)

end NCloud.Frontend.Drive
