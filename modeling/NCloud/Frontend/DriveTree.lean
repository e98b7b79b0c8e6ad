import Mathlib.Data.List.Nodup
import NCloud.Frontend.Drive

/-!
# Drive stays a tree

The requests of one user, one after another, on a store whose operations succeed.

The lists are what `resolve_path` goes by, the parent columns are what a move or a
delete takes for the folder an object is in. `Tree` says that the two agree, for all
lists there are and not only for those below the root: what a delete leaves behind when
it has gone down 4096 levels is not a part of the tree any more but still has lists and
parents.
-/

namespace NCloud.Frontend.Drive

open Process Wire KeyValue

/-! ## The drive as it is stored -/

section View

variable (s : Store Cell Bytes)

/-- The objects a folder lists. -/
def kids (d : Bytes) : List Bytes := items (s (.children d))

/-- What `get_str` reads. -/
def nameOf (x : Bytes) : Bytes := (s (.name x)).getD []

def parentOf (x : Bytes) : Bytes := (s (.parent x)).getD []

def typeOf (x : Bytes) : Bytes := (s (.type x)).getD []

/-- What can be reached from an object through the lists. -/
inductive Below (top : Bytes) : Bytes → Prop where
  | self : Below top top
  | child {d x : Bytes} : Below top d → x ∈ kids s d → Below top x

end View

/-- The drive below `r` is a tree. -/
structure WellFormed (s : Store Cell Bytes) (r : Bytes) : Prop where
  /-- Every object but the root is in one list, once. -/
  once : ∀ x, Below s r x → x ≠ r →
    ∃ d, Below s r d ∧ (kids s d).count x = 1 ∧ ∀ d', x ∈ kids s d' → d' = d
  /-- Its parent column names the folder that lists it. -/
  parent : ∀ x d, Below s r x → x ∈ kids s d → s (.parent x) = some d
  /-- The way up leads to the root, and does not come back. -/
  up : ∀ x, Below s r x → ∃ n, (parentOf s)^[n] x = r
  acyclic : ∀ x, Below s r x → ∀ n, 0 < n → (parentOf s)^[n] x ≠ x
  folders : ∀ d, Below s r d → kids s d ≠ [] → s (.type d) = some folder
  valid : ∀ x, Below s r x → x ≠ r → ∃ name, s (.name x) = some name ∧ validComponent name = true
  names : ∀ d x y, Below s r d → x ∈ kids s d → y ∈ kids s d → nameOf s x = nameOf s y → x = y

/-- The invariant, with the uids that have been handed out. -/
structure Tree (user r : Bytes) (used : Bytes → Prop) (s : Store Cell Bytes) : Prop where
  root : s (.root user) = some r ∨ s (.root user) = none ∧ r = newRoot user ∧ kids s r = []
  root_ne : r ≠ []
  root_unused : ¬ used r
  nil_unused : ¬ used []
  root_parent : parentOf s r = []
  /-- Nothing is stored for other uids. -/
  unused : ∀ x, ¬ used x → x ≠ r → s (.type x) = none ∧ s (.parent x) = none ∧ s (.children x) = none
  listed : ∀ d x, x ∈ kids s d → used x
  nodup : ∀ d, (kids s d).Nodup
  unique : ∀ d d' x, x ∈ kids s d → x ∈ kids s d' → d = d'
  parent : ∀ d x, x ∈ kids s d → s (.parent x) = some d
  folders : ∀ d x, x ∈ kids s d → s (.type d) = some folder
  valid : ∀ d x, x ∈ kids s d → ∃ name, s (.name x) = some name ∧ validComponent name = true
  names : ∀ d x y, x ∈ kids s d → y ∈ kids s d → nameOf s x = nameOf s y → x = y

variable {user r : Bytes} {used : Bytes → Prop} {s s' : Store Cell Bytes} {α : Type}

theorem kids_congr {d : Bytes} (h : s' (.children d) = s (.children d)) : kids s' d = kids s d := by
  rw [kids, h]
  rfl

theorem nameOf_congr {x : Bytes} (h : s' (.name x) = s (.name x)) : nameOf s' x = nameOf s x := by
  rw [nameOf, h]
  rfl

namespace Tree

/-- The way up from a listed object. -/
theorem parentOf_of_mem (h : Tree user r used s) {d x : Bytes} (hx : x ∈ kids s d) : parentOf s x = d := by
  rw [parentOf, h.parent d x hx]
  rfl

theorem ne_root (h : Tree user r used s) {d x : Bytes} (hx : x ∈ kids s d) : x ≠ r := by
  rintro rfl
  exact h.root_unused (h.listed d x hx)

theorem ne_nil (h : Tree user r used s) {d x : Bytes} (hx : x ∈ kids s d) : x ≠ [] := by
  rintro rfl
  exact h.nil_unused (h.listed d [] hx)

theorem parentOf_nil (h : Tree user r used s) : parentOf s [] = [] := by
  rw [parentOf, (h.unused [] h.nil_unused (Ne.symm h.root_ne)).2.1]
  rfl

/-- What is below the root is the root or listed. -/
theorem below_cases {x : Bytes} (hx : Below s r x) : x = r ∨ ∃ d, Below s r d ∧ x ∈ kids s d := by
  cases hx with
  | self => exact .inl rfl
  | child hd hx => exact .inr ⟨_, hd, hx⟩

theorem up (h : Tree user r used s) {x : Bytes} (hx : Below s r x) : ∃ n, (parentOf s)^[n] x = r := by
  induction hx with
  | self => exact ⟨0, rfl⟩
  | child _ hx ih =>
      obtain ⟨n, hn⟩ := ih
      refine ⟨n + 1, ?_⟩
      rw [Function.iterate_succ_apply, h.parentOf_of_mem hx]
      exact hn

/-- Above the root there is nothing. -/
theorem iterate_nil (h : Tree user r used s) (n : Nat) : (parentOf s)^[n] [] = [] :=
  Function.iterate_fixed h.parentOf_nil n

theorem iterate_root (h : Tree user r used s) (n : Nat) : (parentOf s)^[n + 1] r = [] := by
  rw [Function.iterate_succ_apply, h.root_parent]
  exact h.iterate_nil n

theorem acyclic (h : Tree user r used s) {x : Bytes} (hx : Below s r x) {n : Nat} (hn : 0 < n) :
    (parentOf s)^[n] x ≠ x := by
  intro hcycle
  obtain ⟨m, hm⟩ := h.up hx
  -- going round often enough leads above the root
  have hround : (parentOf s)^[n * (m + 1)] x = x := by
    rw [Function.iterate_mul]
    exact Function.iterate_fixed hcycle (m + 1)
  have habove : (parentOf s)^[n * (m + 1)] x = [] := by
    obtain ⟨k, hk⟩ : ∃ k, n * (m + 1) = (k + 1) + m := ⟨n * (m + 1) - m - 1, by
      have := Nat.le_mul_of_pos_left (m + 1) hn
      omega⟩
    rw [hk, Function.iterate_add_apply, hm]
    exact h.iterate_root k
  rw [hround] at habove
  rcases below_cases hx with rfl | ⟨d, -, hmem⟩
  · exact h.root_ne habove
  · exact h.ne_nil hmem habove

/-- **The invariant gives a tree.** -/
theorem wellFormed (h : Tree user r used s) : WellFormed s r where
  once := by
    intro x hx hne
    rcases below_cases hx with rfl | ⟨d, hd, hmem⟩
    · exact absurd rfl hne
    · exact ⟨d, hd, List.count_eq_one_of_mem (h.nodup d) hmem, fun d' hd' => h.unique d' d x hd' hmem⟩
  parent := fun x d _ hmem => h.parent d x hmem
  up := fun x hx => h.up hx
  acyclic := fun x hx n hn => h.acyclic hx hn
  folders := by
    intro d _ hne
    obtain ⟨x, hx⟩ := List.exists_mem_of_ne_nil _ hne
    exact h.folders d x hx
  valid := by
    intro x hx hne
    rcases below_cases hx with rfl | ⟨d, -, hmem⟩
    · exact absurd rfl hne
    · exact h.valid d x hmem
  names := fun d x y _ hx hy => h.names d x y hx hy

/-! ## Changes -/

/-- A list with an object that nothing is stored for. -/
theorem kids_unused (h : Tree user r used s) {x : Bytes} (hx : ¬ used x) (hne : x ≠ r) : kids s x = [] := by
  rw [kids, (h.unused x hx hne).2.2]
  rfl

/-- An object is listed at the end of a folder. -/
structure Linked (user : Bytes) (s s' : Store Cell Bytes) (uid d name : Bytes) : Prop where
  root : s' (.root user) = s (.root user)
  kids_self : kids s' d = kids s d ++ [uid]
  kids_other : ∀ d', d' ≠ d → kids s' d' = kids s d'
  children : ∀ d', d' ≠ d → d' ≠ uid → s' (.children d') = s (.children d')
  type_other : ∀ x, x ≠ uid → s' (.type x) = s (.type x)
  name_other : ∀ x, x ≠ uid → s' (.name x) = s (.name x)
  parent_other : ∀ x, x ≠ uid → s' (.parent x) = s (.parent x)
  type_self : s' (.type d) = some folder
  type_new : kids s uid ≠ [] → s' (.type uid) = s (.type uid)
  name_new : s' (.name uid) = some name
  parent_new : s' (.parent uid) = some d

theorem link (h : Tree user r used s) {uid d name : Bytes} (hl : Linked user s s' uid d name)
    (hroot : s (.root user) = some r) (hun : ∀ d', uid ∉ kids s d') (hr : uid ≠ r) (hnil : uid ≠ [])
    (hd : d = r ∨ used d ∨ d = uid) (hvalid : validComponent name = true)
    (hno : ∀ y ∈ kids s d, nameOf s y ≠ name) : Tree user r (fun x => used x ∨ x = uid) s' := by
  -- who is listed where
  have hmem : ∀ d' x, x ∈ kids s' d' → x ∈ kids s d' ∨ (d' = d ∧ x = uid) := by
    intro d' x hx
    by_cases hdd : d' = d
    · subst hdd
      rw [hl.kids_self, List.mem_append, List.mem_singleton] at hx
      exact hx.imp_right (fun hx => ⟨rfl, hx⟩)
    · exact .inl (hl.kids_other d' hdd ▸ hx)
  have hold : ∀ d' x, x ∈ kids s d' → x ≠ uid := fun d' x hx heq => hun d' (heq ▸ hx)
  have hname : ∀ x, x ≠ uid → nameOf s' x = nameOf s x := fun x hx => nameOf_congr (hl.name_other x hx)
  have hnameNew : nameOf s' uid = name := by
    rw [nameOf, hl.name_new]
    rfl
  refine { root := .inl (hl.root.trans hroot), root_ne := h.root_ne, root_unused := ?_,
           nil_unused := ?_, root_parent := ?_, unused := ?_, listed := ?_, nodup := ?_, unique := ?_,
           parent := ?_, folders := ?_, valid := ?_, names := ?_ }
  · rintro (hu | hu)
    · exact h.root_unused hu
    · exact hr hu.symm
  · rintro (hu | hu)
    · exact h.nil_unused hu
    · exact hnil hu.symm
  · rw [parentOf, hl.parent_other r (Ne.symm hr)]
    exact h.root_parent
  · intro x hx hxr
    have hxu : x ≠ uid := fun heq => hx (.inr heq)
    have hxd : x ≠ d := by
      rintro rfl
      rcases hd with hd | hd | hd
      · exact hxr hd
      · exact hx (.inl hd)
      · exact hxu hd
    obtain ⟨ht, hp, hc⟩ := h.unused x (fun hu => hx (.inl hu)) hxr
    exact ⟨(hl.type_other x hxu).trans ht, (hl.parent_other x hxu).trans hp,
      (hl.children x hxd hxu).trans hc⟩
  · intro d' x hx
    rcases hmem d' x hx with hx | ⟨-, rfl⟩
    · exact .inl (h.listed d' x hx)
    · exact .inr rfl
  · intro d'
    by_cases hdd : d' = d
    · subst hdd
      rw [hl.kids_self]
      refine List.nodup_append.mpr ⟨h.nodup d', List.nodup_singleton uid, ?_⟩
      intro x hx y hy
      rw [List.mem_singleton] at hy
      subst hy
      exact hold d' x hx
    · rw [hl.kids_other d' hdd]
      exact h.nodup d'
  · intro d₁ d₂ x h₁ h₂
    rcases hmem d₁ x h₁ with h₁ | ⟨rfl, rfl⟩
    · rcases hmem d₂ x h₂ with h₂ | ⟨rfl, rfl⟩
      · exact h.unique d₁ d₂ x h₁ h₂
      · exact absurd h₁ (hun d₁)
    · rcases hmem d₂ x h₂ with h₂ | ⟨rfl, -⟩
      · exact absurd h₂ (hun d₂)
      · rfl
  · intro d' x hx
    rcases hmem d' x hx with hx | ⟨rfl, rfl⟩
    · exact (hl.parent_other x (hold d' x hx)).trans (h.parent d' x hx)
    · exact hl.parent_new
  · intro d' x hx
    rcases hmem d' x hx with hx | ⟨rfl, -⟩
    · by_cases hdu : d' = uid
      · subst hdu
        exact (hl.type_new (List.ne_nil_of_mem hx)).trans (h.folders d' x hx)
      · exact (hl.type_other d' hdu).trans (h.folders d' x hx)
    · exact hl.type_self
  · intro d' x hx
    rcases hmem d' x hx with hx | ⟨rfl, rfl⟩
    · obtain ⟨n, hn, hv⟩ := h.valid d' x hx
      exact ⟨n, (hl.name_other x (hold d' x hx)).trans hn, hv⟩
    · exact ⟨name, hl.name_new, hvalid⟩
  · intro d' x y hx hy heq
    rcases hmem d' x hx with hx | ⟨rfl, rfl⟩
    · rcases hmem d' y hy with hy | ⟨rfl, rfl⟩
      · rw [hname x (hold d' x hx), hname y (hold d' y hy)] at heq
        exact h.names d' x y hx hy heq
      · rw [hname x (hold d' x hx), hnameNew] at heq
        exact absurd heq (hno x hx)
    · rcases hmem d' y hy with hy | ⟨-, rfl⟩
      · rw [hname y (hold d' y hy), hnameNew] at heq
        exact absurd heq.symm (hno y hy)
      · rfl

/-- Objects and whole lists are dropped. What is dropped is listed only by what is. -/
structure Dropped (user : Bytes) (s s' : Store Cell Bytes) (gone : Bytes → Prop) : Prop where
  root : s' (.root user) = s (.root user)
  kids_self : ∀ d x, x ∈ kids s' d → x ∈ kids s d ∧ ¬ gone x
  sublist : ∀ d, (kids s' d).Sublist (kids s d)
  children : ∀ d, s (.children d) = none → s' (.children d) = none
  kids_gone : ∀ d, gone d → kids s' d = []
  type : ∀ x, s' (.type x) = s (.type x) ∨ gone x ∧ s' (.type x) = none
  name : ∀ x, ¬ gone x → s' (.name x) = s (.name x)
  parent : ∀ x, s' (.parent x) = s (.parent x) ∨ gone x ∧ s' (.parent x) = none

theorem drop (h : Tree user r used s) {gone : Bytes → Prop} (hdr : Dropped user s s' gone) :
    Tree user r used s' := by
  have hkeep : ∀ x, ¬ gone x → s' (.parent x) = s (.parent x) := by
    intro x hx
    rcases hdr.parent x with hp | ⟨hg, -⟩
    · exact hp
    · exact absurd hg hx
  refine { root := ?_, root_ne := h.root_ne, root_unused := h.root_unused, nil_unused := h.nil_unused,
           root_parent := ?_, unused := ?_, listed := ?_, nodup := ?_, unique := ?_, parent := ?_,
           folders := ?_, valid := ?_, names := ?_ }
  · rcases h.root with hroot | ⟨hroot, hnew, hkids⟩
    · exact .inl (hdr.root.trans hroot)
    · have hsub := hdr.sublist r
      rw [hkids] at hsub
      exact .inr ⟨hdr.root.trans hroot, hnew, List.sublist_nil.mp hsub⟩
  · rcases hdr.parent r with hp | ⟨-, hp⟩
    · rw [parentOf, hp]
      exact h.root_parent
    · rw [parentOf, hp]
      rfl
  · intro x hx hxr
    obtain ⟨ht, hp, hc⟩ := h.unused x hx hxr
    refine ⟨?_, ?_, hdr.children x hc⟩
    · rcases hdr.type x with ht' | ⟨-, ht'⟩
      · exact ht'.trans ht
      · exact ht'
    · rcases hdr.parent x with hp' | ⟨-, hp'⟩
      · exact hp'.trans hp
      · exact hp'
  · exact fun d x hx => h.listed d x (hdr.kids_self d x hx).1
  · exact fun d => (hdr.sublist d).nodup (h.nodup d)
  · exact fun d d' x hx hx' => h.unique d d' x (hdr.kids_self d x hx).1 (hdr.kids_self d' x hx').1
  · intro d x hx
    obtain ⟨hmem, hgone⟩ := hdr.kids_self d x hx
    exact (hkeep x hgone).trans (h.parent d x hmem)
  · intro d x hx
    rcases hdr.type d with ht | ⟨hg, -⟩
    · exact ht.trans (h.folders d x (hdr.kids_self d x hx).1)
    · rw [hdr.kids_gone d hg] at hx
      exact absurd hx List.not_mem_nil
  · intro d x hx
    obtain ⟨hmem, hgone⟩ := hdr.kids_self d x hx
    obtain ⟨n, hn, hv⟩ := h.valid d x hmem
    exact ⟨n, (hdr.name x hgone).trans hn, hv⟩
  · intro d x y hx hy heq
    obtain ⟨hmx, hgx⟩ := hdr.kids_self d x hx
    obtain ⟨hmy, hgy⟩ := hdr.kids_self d y hy
    rw [nameOf_congr (hdr.name x hgx), nameOf_congr (hdr.name y hgy)] at heq
    exact h.names d x y hmx hmy heq

/-- A new name that no other object of the folder has. -/
theorem rename (h : Tree user r used s) {uid name : Bytes} (hvalid : validComponent name = true)
    (hno : ∀ d, uid ∈ kids s d → ∀ y ∈ kids s d, y ≠ uid → nameOf s y ≠ name) :
    Tree user r used (Function.update s (.name uid) (some name)) := by
  have hkids : ∀ d, kids (Function.update s (.name uid) (some name)) d = kids s d :=
    fun d => kids_congr (Function.update_of_ne (by simp) ..)
  have hself : nameOf (Function.update s (.name uid) (some name)) uid = name := by
    rw [nameOf, Function.update_self]
    rfl
  have hother : ∀ x, x ≠ uid → nameOf (Function.update s (.name uid) (some name)) x = nameOf s x :=
    fun x hx => nameOf_congr (Function.update_of_ne (by simpa using hx) ..)
  refine { root := ?_, root_ne := h.root_ne, root_unused := h.root_unused, nil_unused := h.nil_unused,
           root_parent := h.root_parent, unused := h.unused, listed := ?_, nodup := ?_, unique := ?_,
           parent := ?_, folders := ?_, valid := ?_, names := ?_ }
  · rw [hkids]
    exact h.root
  · intro d x hx
    rw [hkids] at hx
    exact h.listed d x hx
  · intro d
    rw [hkids]
    exact h.nodup d
  · intro d d' x hx hx'
    rw [hkids] at hx hx'
    exact h.unique d d' x hx hx'
  · intro d x hx
    rw [hkids] at hx
    exact h.parent d x hx
  · intro d x hx
    rw [hkids] at hx
    exact h.folders d x hx
  · intro d x hx
    rw [hkids] at hx
    by_cases hxu : x = uid
    · subst hxu
      exact ⟨name, Function.update_self .., hvalid⟩
    · rw [Function.update_of_ne (by simpa using hxu)]
      exact h.valid d x hx
  · intro d x y hx hy heq
    rw [hkids] at hx hy
    by_cases hxu : x = uid
    · by_cases hyu : y = uid
      · rw [hxu, hyu]
      · subst hxu
        rw [hself, hother y hyu] at heq
        exact absurd heq.symm (hno d hx y hy hyu)
    · by_cases hyu : y = uid
      · subst hyu
        rw [hself, hother x hxu] at heq
        exact absurd heq (hno d hy x hx hxu)
      · rw [hother x hxu, hother y hyu] at heq
        exact h.names d x y hx hy heq

/-- The cells of the root are written anew. -/
theorem reroot (h : Tree user r used s) (hroot : s' (.root user) = some r)
    (hkids : ∀ d, kids s' d = kids s d) (hchildren : ∀ d, d ≠ r → s' (.children d) = s (.children d))
    (htype : ∀ x, x ≠ r → s' (.type x) = s (.type x)) (hname : ∀ x, x ≠ r → s' (.name x) = s (.name x))
    (hparent : ∀ x, x ≠ r → s' (.parent x) = s (.parent x)) (htop : s' (.type r) = some folder)
    (hnone : parentOf s' r = []) : Tree user r used s' := by
  refine { root := .inl hroot, root_ne := h.root_ne, root_unused := h.root_unused,
           nil_unused := h.nil_unused, root_parent := hnone, unused := ?_, listed := ?_, nodup := ?_,
           unique := ?_, parent := ?_, folders := ?_, valid := ?_, names := ?_ }
  · intro x hx hxr
    rw [htype x hxr, hparent x hxr, hchildren x hxr]
    exact h.unused x hx hxr
  · intro d x hx
    exact h.listed d x (hkids d ▸ hx)
  · intro d
    rw [hkids]
    exact h.nodup d
  · intro d d' x hx hx'
    rw [hkids] at hx hx'
    exact h.unique d d' x hx hx'
  · intro d x hx
    rw [hkids] at hx
    exact (hparent x (h.ne_root hx)).trans (h.parent d x hx)
  · intro d x hx
    rw [hkids] at hx
    by_cases hd : d = r
    · subst hd
      exact htop
    · exact (htype d hd).trans (h.folders d x hx)
  · intro d x hx
    rw [hkids] at hx
    obtain ⟨n, hn, hv⟩ := h.valid d x hx
    exact ⟨n, (hname x (h.ne_root hx)).trans hn, hv⟩
  · intro d x y hx hy heq
    rw [hkids] at hx hy
    rw [nameOf_congr (hname x (h.ne_root hx)), nameOf_congr (hname y (h.ne_root hy))] at heq
    exact h.names d x y hx hy heq

/-- Cells the tree does not consist of. -/
def Aside : Cell → Prop
  | .root _ => False
  | .type _ => False
  | .name _ => False
  | .parent _ => False
  | .children _ => False
  | _ => True

/-- They can be written at will. -/
theorem aside (h : Tree user r used s) (hcell : ∀ k, ¬ Aside k → s' k = s k) : Tree user r used s' := by
  have hkids : ∀ d, kids s' d = kids s d := fun d => kids_congr (hcell _ id)
  have hname : ∀ x, nameOf s' x = nameOf s x := fun x => nameOf_congr (hcell _ id)
  refine { root := ?_, root_ne := h.root_ne, root_unused := h.root_unused, nil_unused := h.nil_unused,
           root_parent := ?_, unused := ?_, listed := ?_, nodup := ?_, unique := ?_, parent := ?_,
           folders := ?_, valid := ?_, names := ?_ }
  · rw [hcell _ id, hkids]
    exact h.root
  · rw [parentOf, hcell _ id]
    exact h.root_parent
  · intro x hx hxr
    rw [hcell (.type x) id, hcell (.parent x) id, hcell (.children x) id]
    exact h.unused x hx hxr
  · intro d x hx
    exact h.listed d x (hkids d ▸ hx)
  · intro d
    rw [hkids]
    exact h.nodup d
  · intro d d' x hx hx'
    rw [hkids] at hx hx'
    exact h.unique d d' x hx hx'
  · intro d x hx
    rw [hkids] at hx
    rw [hcell _ id]
    exact h.parent d x hx
  · intro d x hx
    rw [hkids] at hx
    rw [hcell _ id]
    exact h.folders d x hx
  · intro d x hx
    rw [hkids] at hx
    rw [hcell _ id]
    exact h.valid d x hx
  · intro d x y hx hy heq
    rw [hkids] at hx hy
    rw [hname, hname] at heq
    exact h.names d x y hx hy heq

end Tree

/-! ## What the programs do -/

section Reads

theorem run_findChild (part : Bytes) (cs : List Bytes) (s : Store Cell Bytes) :
    run (findChild part cs) s = (cs.find? (fun c => decide (nameOf s c = part)), s) := by
  induction cs with
  | nil => rfl
  | cons c cs ih =>
      rw [findChild, run_bind, run_getStr]
      show run (if nameOf s c = part then pure (some c) else findChild part cs) s = _
      split
      · rename_i h
        rw [List.find?_cons_of_pos (by simpa using h)]
        rfl
      · rename_i h
        rw [List.find?_cons_of_neg (by simpa using h)]
        exact ih

/-- What `resolve_path` comes to is in some list on the way. -/
theorem ends_walk {top cur : Bytes} (hcur : Below s top cur) (parts : List Bytes) :
    Ends (walk cur parts) (fun o s' => s' = s ∧ ∀ x, o = some x → Below s top x) s := by
  induction parts generalizing cur with
  | nil => exact ⟨rfl, fun x hx => Option.some.inj hx ▸ hcur⟩
  | cons part parts ih =>
      have hkids : splitCsv ((s (.children cur)).getD default) = kids s cur := rfl
      refine Ends.bind ?_
      rw [Ends, run_getStr, hkids]
      refine Ends.bind ?_
      rw [Ends, run_findChild]
      dsimp only
      cases hfind : (kids s cur).find? (fun c => decide (nameOf s c = part)) with
      | none => exact ⟨rfl, fun x hx => absurd hx (by simp)⟩
      | some child => exact ih (.child hcur (List.mem_of_find?_eq_some hfind))

theorem run_anyNamed (wanted skip : Bytes) (cs : List Bytes) (s : Store Cell Bytes) :
    run (anyNamed wanted skip cs) s =
      (cs.any (fun c => !decide (skip ≠ [] ∧ c = skip) && decide (nameOf s c = wanted)), s) := by
  induction cs with
  | nil => rfl
  | cons c cs ih =>
      rw [anyNamed, List.any_cons]
      split
      · rename_i h
        rw [ih, decide_eq_true h]
        rfl
      · rename_i h
        rw [run_bind, run_getStr, decide_eq_false h]
        show run (if nameOf s c = wanted then pure true else anyNamed wanted skip cs) s = _
        split
        · rename_i hn
          rw [decide_eq_true hn]
          rfl
        · rename_i hn
          rw [ih, decide_eq_false hn]
          rfl

/-- `child_name_exists`. -/
theorem run_childNameExists (d wanted skip : Bytes) (s : Store Cell Bytes) :
    run (childNameExists d wanted skip) s =
      ((kids s d).any (fun c => !decide (skip ≠ [] ∧ c = skip) && decide (nameOf s c = wanted)), s) := by
  rw [childNameExists, run_bind, run_getStr, run_anyNamed]
  rfl

/-- Where it finds nothing. -/
theorem noName_of_childNameExists {d wanted skip : Bytes}
    (h : (run (childNameExists d wanted skip) s).1 = false) {c : Bytes} (hc : c ∈ kids s d)
    (hskip : skip = [] ∨ c ≠ skip) : nameOf s c ≠ wanted := by
  rw [run_childNameExists] at h
  have hany := List.any_eq_false.mp h c hc
  intro hname
  refine hany ?_
  rw [decide_eq_true hname, decide_eq_false]
  · rfl
  · rintro ⟨hne, rfl⟩
    rcases hskip with hskip | hskip
    · exact hne hskip
    · exact hskip rfl

/-- Programs that only read. -/
def IsGet : Act Cell Bytes Answer → Prop
  | .get _ => True
  | _ => False

theorem ends_of_gets {p : FeProg α} (hp : p.Only IsGet (fun _ => True)) (s : Store Cell Bytes) :
    Ends p (fun _ s' => s' = s) s := by
  refine Ends.of_only (T := fun s' => s' = s) ?_ hp rfl
  intro a s' ha hs
  cases a with
  | get k => exact hs
  | _ => exact ha.elim

theorem only_getStr (k : Cell) : (getStr k : FeProg Bytes).Only IsGet (fun _ => True) := by
  refine ⟨trivial, fun r => ?_⟩
  cases r <;> trivial

theorem only_descendsLoop (ancestor : Bytes) (left : Nat) (seen : List Bytes) (cur : Bytes) :
    (descendsLoop ancestor left seen cur).Only IsGet (fun _ => True) := by
  induction left generalizing seen cur with
  | zero =>
      rw [descendsLoop]
      split
      · trivial
      · split <;> trivial
  | succ left ih =>
      rw [descendsLoop]
      split
      · trivial
      · split
        · trivial
        · show Prog.Only _ _ (if cur ∈ seen then _ else _)
          split
          · trivial
          · exact Prog.Only.bind (only_getStr _) (fun parent => ih _ parent)

end Reads

/-! ### The root -/

/-- A tree whose root is there. -/
structure Rooted (user r : Bytes) (used : Bytes → Prop) (s : Store Cell Bytes) : Prop
    extends Tree user r used s where
  root_set : s (.root user) = some r
  root_folder : s (.type r) = some folder

/-- Cells written in a row. -/
def written (s : Store Cell Bytes) (l : List (Cell × Bytes)) : Store Cell Bytes :=
  l.foldl (fun s e => Function.update s e.1 (some e.2)) s

theorem run_putAll (l : List (Cell × Bytes)) (s : Store Cell Bytes) :
    run (putAll l) s = (true, written s l) := by
  induction l generalizing s with
  | nil => rfl
  | cons e l ih =>
      obtain ⟨k, v⟩ := e
      rw [putAll, run_bind, run_put]
      exact ih _

/-- The root is there, and the lists are what they were. -/
structure Opened (user r : Bytes) (used : Bytes → Prop) (s s' : Store Cell Bytes) : Prop where
  rooted : Rooted user r used s'
  same : ∀ d, kids s' d = kids s d

theorem Opened.trans {s₁ s₂ s₃ : Store Cell Bytes} (h₁ : Opened user r used s₁ s₂)
    (h₂ : Opened user r used s₂ s₃) : Opened user r used s₁ s₃ :=
  ⟨h₂.rooted, fun d => (h₂.same d).trans (h₁.same d)⟩

theorem Opened.below (h : Opened user r used s s') {top x : Bytes} (hx : Below s top x) :
    Below s' top x := by
  induction hx with
  | self => exact .self
  | child _ hx ih => exact .child ih (by rw [h.same]; exact hx)

/-- The cells of the root do not belong to any other object. -/
theorem opened_rootCells (h : Tree user r used s) (hroot : s (.root user) = some r) :
    Opened user r used s (written s (rootCells user r)) := by
  have hkids : ∀ d, kids (written s (rootCells user r)) d = kids s d :=
    fun d => kids_congr (by simp [written, rootCells, Function.update])
  have htree : Tree user r used (written s (rootCells user r)) := h.reroot
    (by simpa [written, rootCells, Function.update] using hroot) hkids
    (fun d _ => by simp [written, rootCells, Function.update])
    (fun x hx => by simp [written, rootCells, Function.update, hx])
    (fun x hx => by simp [written, rootCells, Function.update, hx])
    (fun x hx => by simp [written, rootCells, Function.update, hx])
    (by simp [written, rootCells, Function.update])
    (by simp [parentOf, written, rootCells, Function.update])
  exact ⟨⟨htree, by simpa [written, rootCells, Function.update] using hroot,
    by simp [written, rootCells, Function.update]⟩, hkids⟩

/-- The same with the column that names the root, and an empty list. -/
theorem opened_newRoot (h : Tree user r used s) (hempty : kids s r = []) :
    Opened user r used s (written s ((.root user, r) :: rootCells user r ++ [(.children r, [])])) := by
  have hkids : ∀ d,
      kids (written s ((.root user, r) :: rootCells user r ++ [(.children r, [])])) d = kids s d := by
    intro d
    by_cases hd : d = r
    · subst hd
      rw [hempty]
      simp [kids, written, rootCells, Function.update]
    · exact kids_congr (by simp [written, rootCells, Function.update, hd])
  have htree : Tree user r used
      (written s ((.root user, r) :: rootCells user r ++ [(.children r, [])])) := h.reroot
    (by simp [written, rootCells, Function.update]) hkids
    (fun d hd => by simp [written, rootCells, Function.update, hd])
    (fun x hx => by simp [written, rootCells, Function.update, hx])
    (fun x hx => by simp [written, rootCells, Function.update, hx])
    (fun x hx => by simp [written, rootCells, Function.update, hx])
    (by simp [written, rootCells, Function.update])
    (by simp [parentOf, written, rootCells, Function.update])
  exact ⟨⟨htree, by simp [written, rootCells, Function.update],
    by simp [written, rootCells, Function.update]⟩, hkids⟩

/-- An empty list where there was none. -/
theorem Rooted.children (h : Rooted user r used s) (hnone : s (.children r) = none) :
    Opened user r used s (Function.update s (.children r) (some [])) := by
  have hkids : ∀ d, kids (Function.update s (.children r) (some [])) d = kids s d := by
    intro d
    by_cases hd : d = r
    · subst hd
      rw [kids, kids, Function.update_self, hnone]
      rfl
    · exact kids_congr (Function.update_of_ne (by simpa using hd) ..)
  refine ⟨⟨h.reroot h.root_set hkids ?_ (fun _ _ => rfl) (fun _ _ => rfl) (fun _ _ => rfl) h.root_folder
    h.root_parent, h.root_set, h.root_folder⟩, hkids⟩
  intro d hd
  exact Function.update_of_ne (by simpa using hd) ..

/-- The list of a root that has been found. -/
theorem ends_rootChildren {s₀ : Store Cell Bytes} (h : Opened user r used s₀ s)
    {f : Read Bytes → FeProg (Option Bytes)} (hfound : ∀ v, f (.found v) = pure (some r))
    (hmiss : f .notFound = put (.children r) [] >>= fun ok => if !ok then pure none else pure (some r)) :
    Ends (getStatus (.children r) >>= f) (fun o s' => o = some r ∧ Opened user r used s₀ s') s := by
  refine Ends.bind ?_
  rw [Ends, run_getStatus]
  cases hc : s (.children r) with
  | some v =>
      show Ends (f (.found v)) _ s
      rw [hfound]
      exact ⟨rfl, h⟩
  | none =>
      show Ends (f .notFound) _ s
      rw [hmiss]
      exact ⟨rfl, h.trans (h.rooted.children hc)⟩

/-- **`ensure_drive_root` finds the root or makes it.** -/
theorem ends_ensureDriveRoot (h : Tree user r used s) :
    Ends (ensureDriveRoot user) (fun o s' => o = some r ∧ Opened user r used s s') s := by
  refine Ends.bind ?_
  rw [Ends, run_getStatus]
  rcases h.root with hroot | ⟨hroot, hnew, hkids⟩
  · rw [hroot]
    show Ends (if r = [] then _ else _) _ s
    rw [if_neg h.root_ne]
    refine Ends.bind ?_
    rw [Ends, run_getStatus]
    cases ht : s (.type r) with
    | none =>
        refine Ends.bind ?_
        rw [Ends, run_putAll]
        exact ends_rootChildren (opened_rootCells h hroot) (fun _ => rfl) rfl
    | some t =>
        show Ends (if t ≠ folder then _ else _) _ s
        split
        · refine Ends.bind ?_
          rw [Ends, run_putAll]
          exact ends_rootChildren (opened_rootCells h hroot) (fun _ => rfl) rfl
        · rename_i hf
          exact ends_rootChildren ⟨⟨h, hroot, by rw [ht, not_not.mp hf]⟩, fun _ => rfl⟩ (fun _ => rfl) rfl
  · rw [hroot]
    refine Ends.bind ?_
    rw [Ends, run_putAll, ← hnew]
    exact ⟨rfl, opened_newRoot h hkids⟩

/-! ### Paths -/

/-- What a path comes to. -/
structure Resolved (r : Bytes) (x type : Bytes) (s : Store Cell Bytes) : Prop where
  below : Below s r x
  folder : type = folder → s (.type x) = some folder

theorem type_of_typeOf {x : Bytes} (h : typeOf s x = folder) : s (.type x) = some folder := by
  rw [typeOf] at h
  cases ht : s (.type x) with
  | none =>
      rw [ht] at h
      exact absurd h (by decide)
  | some t =>
      rw [ht] at h
      exact congrArg some h

/-- **`resolve_path`.** -/
theorem ends_resolvePath (h : Tree user r used s) (path : Bytes) :
    Ends (resolvePath user path) (fun o s' => Opened user r used s s' ∧
      ∀ x type, o = some (x, type) → Resolved r x type s') s := by
  refine Ends.bind ((ends_ensureDriveRoot h).mono ?_)
  rintro _ s₁ ⟨rfl, hopen⟩
  show Ends (if path = [] ∨ path = [slash] then _ else _) _ s₁
  split
  · refine ⟨hopen, ?_⟩
    rintro x type ⟨⟩
    exact ⟨.self, fun _ => hopen.rooted.root_folder⟩
  · refine Ends.bind ((ends_walk .self (pathParts path)).mono ?_)
    rintro o _ ⟨rfl, hbelow⟩
    cases o with
    | none => exact ⟨hopen, fun x type hx => absurd hx (by simp)⟩
    | some cur =>
        refine Ends.bind ?_
        rw [Ends, run_getStr]
        refine ⟨hopen, ?_⟩
        rintro x type ⟨⟩
        exact ⟨hbelow cur rfl, type_of_typeOf⟩

/-- **`resolve_move_destination` comes to a folder.** -/
theorem ends_firstFolder (h : Rooted user r used s) (paths : List Bytes) :
    Ends (firstFolder user paths) (fun o s' => Opened user r used s s' ∧
      ∀ path x, o = some (path, x) → Resolved r x folder s') s := by
  induction paths generalizing s with
  | nil => exact ⟨⟨h, fun _ => rfl⟩, nofun⟩
  | cons path paths ih =>
      refine Ends.bind ((ends_resolvePath h.toTree path).mono ?_)
      rintro o s₁ ⟨hopen, hres⟩
      have hnext : Ends (firstFolder user paths) (fun o s' => Opened user r used s s' ∧
          ∀ path x, o = some (path, x) → Resolved r x folder s') s₁ :=
        (ih hopen.rooted).mono (fun o s' hs' => ⟨hopen.trans hs'.1, hs'.2⟩)
      cases o with
      | none => exact hnext
      | some q =>
          obtain ⟨x, type⟩ := q
          show Ends (if type = folder then _ else _) _ s₁
          split
          · rename_i ht
            refine ⟨hopen, ?_⟩
            rintro path' x' ⟨⟩
            exact ⟨(hres x type rfl).below, fun _ => (hres x type rfl).folder ht⟩
          · exact hnext

/-! ### Lists -/

/-- **`remove_child`.** -/
theorem run_removeChild (d x : Bytes) (requirePresent : Bool) (s : Store Cell Bytes) :
    run (removeChild d x requirePresent) s =
      if x ∈ kids s d then
        (true, Function.update s (.children d) (some (joinCsv ((kids s d).filter (· ≠ x)))))
      else (!requirePresent, s) := by
  rw [removeChild, removeChildLoop, run_bind, run_getStr]
  show run (if x ∉ kids s d then pure (!requirePresent) else _) s = _
  by_cases hx : x ∈ kids s d
  · rw [if_neg (not_not_intro hx), if_pos hx]
    -- there is a list, since the object is in it
    have hold : s (.children d) = some ((s (.children d)).getD default) := by
      cases hc : s (.children d) with
      | none =>
          rw [kids, hc] at hx
          exact absurd hx List.not_mem_nil
      | some v => rfl
    rw [run_bind, run_cput, if_pos hold, decide_eq_true hold]
    rfl
  · rw [if_pos hx, if_neg hx]
    rfl

theorem kids_remove_self (d x : Bytes) (s : Store Cell Bytes) :
    kids (Function.update s (.children d) (some (joinCsv ((kids s d).filter (· ≠ x))))) d
      = (kids s d).filter (· ≠ x) := by
  rw [kids, Function.update_self]
  exact splitCsv_joinCsv (fun y hy => clean_of_mem_splitCsv (List.mem_filter.mp hy).1)

/-- An item that is in the list already. -/
theorem run_appendCsvLoop_found {k : Cell} {x old : Bytes} (hold : s k = some old)
    (hx : x ∈ splitCsv old) (attempts : Nat) :
    run (appendCsvLoop k x false 0 (attempts + 1)) s = (true, s) := by
  rw [appendCsvLoop, run_bind, run_getStatus, hold]
  show run (if x ∈ splitCsv old ∧ false = false then _ else _) s = _
  rw [if_pos ⟨hx, rfl⟩]
  rfl

/-- **`append_child`.** -/
theorem ends_appendChild {d x : Bytes} (hclean : CleanItem x) (hx : x ∉ kids s d) :
    Ends (appendChild d x) (fun ok s' => ok = true ∧ ∃ v, s' = Function.update s (.children d) (some v) ∧
      splitCsv v = kids s d ++ [x]) s := by
  have hplace : ∀ l : List Bytes, x ∉ l →
      cutItems false 0 (placeItem x false l) = l ++ [x] := by
    intro l hl
    rw [cutItems_of_le (.inl rfl), placeItem, if_neg hl]
    rfl
  have hsplit : ∀ l : List Bytes, (∀ y ∈ l, CleanItem y) → splitCsv (joinCsv (l ++ [x])) = l ++ [x] := by
    intro l hl
    refine splitCsv_joinCsv (fun y hy => ?_)
    rcases List.mem_append.mp hy with hy | hy
    · exact hl y hy
    · rw [List.mem_singleton.mp hy]
      exact hclean
  rw [appendChild, appendCsvItemCas, if_neg hclean.ne_nil, appendCsvLoop]
  refine Ends.bind ?_
  rw [Ends, run_getStatus]
  cases hc : s (.children d) with
  | some old =>
      have hkids : kids s d = splitCsv old := by rw [kids, hc]; rfl
      rw [hkids] at hx ⊢
      have hnext := hsplit (splitCsv old) (fun y => clean_of_mem_splitCsv)
      show Ends (if x ∈ splitCsv old ∧ false = false then _ else _) _ s
      rw [if_neg (fun h => hx h.1), hplace _ hx]
      show Ends (if joinCsv (splitCsv old ++ [x]) = old then _ else _) _ s
      have hne : joinCsv (splitCsv old ++ [x]) ≠ old := by
        intro heq
        rw [heq] at hnext
        have := congrArg List.length hnext
        simp at this
      rw [if_neg hne]
      refine Ends.bind ?_
      rw [Ends, run_cput, if_pos hc, decide_eq_true hc]
      exact ⟨rfl, _, rfl, hnext⟩
  | none =>
      have hkids : kids s d = [] := by rw [kids, hc]; rfl
      rw [hkids, List.nil_append]
      have hone : splitCsv (joinCsv [x]) = [x] := hsplit [] (fun y hy => absurd hy List.not_mem_nil)
      refine Ends.bind ?_
      rw [hplace [] List.not_mem_nil, Ends, run_put, Ends]
      -- the second turn finds what the first one wrote
      rw [run_appendCsvLoop_found (Function.update_self ..) (by rw [List.nil_append, hone]; simp)]
      exact ⟨rfl, _, rfl, hone⟩

/-! ### Contents -/

/-- Operations that change only some cells. -/
def OnCells (P : Cell → Prop) : Act Cell Bytes Answer → Prop
  | .get _ => True
  | .put k _ => P k
  | .cput k _ _ => P k
  | .del k => P k
  | .answer _ => False

/-- Programs made of them leave the others alone. -/
theorem ends_onCells {P : Cell → Prop} {p : FeProg α} (hp : p.Only (OnCells P) (fun _ => True))
    (s : Store Cell Bytes) : Ends p (fun _ s' => ∀ k, ¬ P k → s' k = s k) s := by
  refine Ends.of_only (T := fun s' => ∀ k, ¬ P k → s' k = s k) ?_ hp (fun _ _ => rfl)
  intro a s' ha hs k hk
  have hne : ∀ k', P k' → k ≠ k' := fun k' hk' heq => hk (by rw [heq]; exact hk')
  cases a with
  | get k' => exact hs k hk
  | put k' v => exact (put_of_ne (A := Answer) (hne k' ha)).trans (hs k hk)
  | cput k' old new => exact (cput_of_ne (A := Answer) (hne k' ha)).trans (hs k hk)
  | del k' => exact (del_of_ne (A := Answer) (hne k' ha)).trans (hs k hk)
  | answer ans => exact ha.elim

theorem onCells_of_isGet {P : Cell → Prop} (a : Act Cell Bytes Answer) (h : IsGet a) : OnCells P a := by
  cases a with
  | get k => trivial
  | _ => exact h.elim

theorem only_gets {P : Cell → Prop} {p : FeProg α} (hp : p.Only IsGet (fun _ => True)) :
    p.Only (OnCells P) (fun _ => True) :=
  hp.mono onCells_of_isGet (fun _ h => h)

theorem only_delAll {P : Cell → Prop} {l : List Cell} (h : ∀ k ∈ l, P k) :
    (delAll l).Only (OnCells P) (fun _ => True) := by
  induction l with
  | nil => trivial
  | cons k l ih =>
      exact ⟨h k List.mem_cons_self, fun _ => ih (fun k' hk' => h k' (List.mem_cons_of_mem _ hk'))⟩

/-- The cells with the contents of a file. -/
def Contents (uid : Bytes) : Cell → Prop
  | .bytes x => x = uid
  | .chunks x => x = uid
  | .chunk x _ => x = uid
  | _ => False

theorem only_delChunks (uid : Bytes) (n : Nat) :
    (delAll ((List.range n).map (Cell.chunk uid))).Only (OnCells (Contents uid)) (fun _ => True) := by
  refine only_delAll (fun k hk => ?_)
  obtain ⟨i, -, rfl⟩ := List.mem_map.mp hk
  exact rfl

theorem only_putChunks (uid : Bytes) (i : Nat) (l : List Bytes) :
    (putChunks uid i l).Only (OnCells (Contents uid)) (fun _ => True) := by
  induction l generalizing i with
  | nil => trivial
  | cons chunk l ih =>
      rw [putChunks]
      refine only_act rfl (fun ok => ?_)
      split
      · exact Prog.Only.bind (only_delChunks uid i) (fun _ => only_act rfl (fun _ => trivial))
      · exact ih (i + 1)

theorem only_putFileChunks (uid data : Bytes) :
    (putFileChunks uid data).Only (OnCells (Contents uid)) (fun _ => True) := by
  rw [putFileChunks]
  refine only_act rfl (fun ok => ?_)
  split
  · trivial
  · exact only_putChunks uid 0 (chunksOf data)

theorem only_deleteFileBytes (uid : Bytes) :
    (deleteFileBytes uid).Only (OnCells (Contents uid)) (fun _ => True) := by
  rw [deleteFileBytes]
  refine only_act rfl (fun _ => Prog.Only.bind (only_gets (only_getStr _)) (fun chunks => ?_))
  split
  · trivial
  · split
    · exact only_act rfl (fun _ => trivial)
    · exact Prog.Only.bind (only_delChunks uid _) (fun _ => only_act rfl (fun _ => trivial))

theorem only_updateUsedLoop (user : Bytes) (delta : Int) (attempts : Nat) :
    (updateUsedLoop user delta attempts).Only (OnCells (· = .usedBytes user)) (fun _ => True) := by
  induction attempts with
  | zero => trivial
  | succ attempts ih =>
      refine ⟨trivial, fun r => ?_⟩
      cases r with
      | unavailable => exact ih
      | notFound => exact ⟨rfl, fun _ => trivial⟩
      | found old =>
          show Prog.Only _ _ (if _ then _ else _)
          split
          · trivial
          · refine ⟨rfl, fun ok => ?_⟩
            cases ok with
            | true => trivial
            | false => exact ih

theorem only_updateDriveUsedBytes (user : Bytes) (delta : Int) :
    (updateDriveUsedBytes user delta).Only (OnCells (· = .usedBytes user)) (fun _ => True) := by
  unfold updateDriveUsedBytes
  split
  · trivial
  · exact only_updateUsedLoop user delta 20

/-- Operations that leave the cells of the tree alone. -/
def OnAside : Act Cell Bytes Answer → Prop
  | .get _ => True
  | .put k _ => Tree.Aside k
  | .cput k _ _ => Tree.Aside k
  | .del k => Tree.Aside k
  | .answer _ => True

/-- So do programs made of them. -/
theorem ends_aside {p : FeProg α} (hp : p.Only OnAside (fun _ => True)) (s : Store Cell Bytes) :
    Ends p (fun _ s' => ∀ k, ¬ Tree.Aside k → s' k = s k) s := by
  refine Ends.of_only (T := fun s' => ∀ k, ¬ Tree.Aside k → s' k = s k) ?_ hp (fun _ _ => rfl)
  intro a s' ha hs k hk
  have hne : ∀ k', Tree.Aside k' → k ≠ k' := fun k' hk' heq => hk (by rw [heq]; exact hk')
  cases a with
  | get k' => exact hs k hk
  | put k' v => exact (put_of_ne (A := Answer) (hne k' ha)).trans (hs k hk)
  | cput k' old new => exact (cput_of_ne (A := Answer) (hne k' ha)).trans (hs k hk)
  | del k' => exact (del_of_ne (A := Answer) (hne k' ha)).trans (hs k hk)
  | answer ans => exact hs k hk

theorem only_aside {P : Cell → Prop} {p : FeProg α} (hP : ∀ k, P k → Tree.Aside k)
    (hp : p.Only (OnCells P) (fun _ => True)) : p.Only OnAside (fun _ => True) := by
  refine hp.mono (fun a ha => ?_) (fun _ h => h)
  cases a with
  | get k => trivial
  | put k v => exact hP k ha
  | cput k old new => exact hP k ha
  | del k => exact hP k ha
  | answer ans => trivial

theorem aside_of_contents {uid : Bytes} (k : Cell) (h : Contents uid k) : Tree.Aside k := by
  cases k <;> trivial

theorem aside_of_usedBytes {user : Bytes} (k : Cell) (h : k = .usedBytes user) : Tree.Aside k := by
  rw [h]
  trivial

/-- The cells of an object. -/
def ObjCell (x : Bytes) : Cell → Prop
  | .type y => y = x
  | .name y => y = x
  | .parent y => y = x
  | .owner y => y = x
  | .size y => y = x
  | .children y => y = x
  | .bytes y => y = x
  | .chunks y => y = x
  | .chunk y _ => y = x
  | _ => False

theorem objCell_of_contents {x : Bytes} {k : Cell} (h : Contents x k) : ObjCell x k := by
  cases k <;> first | exact h | exact h.elim

/-- The cells of any object. -/
def SomeObjCell (k : Cell) : Prop := ∃ x, ObjCell x k

theorem only_getChunks (uid : Bytes) (l : List Nat) :
    (getChunks uid l).Only (Gets (ObjCell uid)) (fun _ => True) := by
  induction l with
  | nil => trivial
  | cons i l ih => exact Prog.Only.bind (only_gets_getStr rfl) (fun _ => Prog.Only.bind ih (fun _ => trivial))

theorem only_getFileBytes (uid : Bytes) : (getFileBytes uid).Only (Gets (ObjCell uid)) (fun _ => True) := by
  refine Prog.Only.bind (only_gets_getStr rfl) (fun legacy => ?_)
  split
  · trivial
  · refine Prog.Only.bind (only_gets_getStr rfl) (fun chunks => ?_)
    split
    · trivial
    · exact only_getChunks uid _

theorem gets_mono {P P' : Cell → Prop} (h : ∀ k, P k → P' k) (a : Act Cell Bytes Answer) (ha : Gets P a) :
    Gets P' a := by
  cases a with
  | get k => exact h k ha
  | _ => exact ha.elim

theorem isGet_of_gets {P : Cell → Prop} (a : Act Cell Bytes Answer) (ha : Gets P a) : IsGet a := by
  cases a with
  | get k => trivial
  | _ => exact ha.elim

theorem only_isGet {P : Cell → Prop} {p : FeProg α} (hp : p.Only (Gets P) (fun _ => True)) :
    p.Only IsGet (fun _ => True) :=
  hp.mono isGet_of_gets (fun _ h => h)

theorem only_subtreeBytesInner (left : Nat) (uid : Bytes) (seen : List Bytes) :
    (subtreeBytesInner left uid seen).Only (Gets SomeObjCell) (fun _ => True) := by
  induction left generalizing uid seen with
  | zero => trivial
  | succ left ih =>
      rw [subtreeBytesInner]
      split
      · trivial
      · refine Prog.Only.bind (only_gets_getStr ⟨uid, rfl⟩) (fun type => ?_)
        split
        · refine Prog.Only.bind (only_gets_getStr ⟨uid, rfl⟩) (fun size => ?_)
          refine Prog.Only.bind ((only_getFileBytes uid).mono ?_ (fun _ h => h)) (fun _ => trivial)
          exact gets_mono (fun _ hk => ⟨uid, hk⟩)
        · refine Prog.Only.bind (only_gets_getStr ⟨uid, rfl⟩) (fun children => ?_)
          generalize (0, uid :: seen) = q
          generalize splitCsv children = kids
          induction kids generalizing q with
          | nil => trivial
          | cons c kids ihk =>
              rw [List.foldlM_cons]
              exact Prog.Only.bind (Prog.Only.bind (ih c q.2) (fun _ => trivial)) (fun q' => ihk q')

end NCloud.Frontend.Drive
