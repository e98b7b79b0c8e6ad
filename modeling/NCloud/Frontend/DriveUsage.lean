import Mathlib.Algebra.BigOperators.Group.List.Basic
import NCloud.Frontend.DriveRequests

/-!
# How much a drive holds

The bytes of a drive are those of the files below its root. `subtree_file_bytes` and
`collect_subtree` go down the lists and stop after 4096 levels; `nodes` is what they come
to, in their order. A tree is walked without ever coming to an object a second time, so
what has been seen does not matter, and if no file is deeper than that the traversal
comes to all of them.
-/

namespace NCloud.Frontend.Drive

open Process Wire KeyValue

variable {user r : Bytes} {used : Bytes → Prop} {s s' : Store Cell Bytes}

/-- What is below `r` branches: nothing comes up a second time, and only folders list
anything. This is the part of `Tree` that says nothing about names, parents and what is
not below `r`. -/
structure Branching (r : Bytes) (s : Store Cell Bytes) : Prop where
  top_ne : r ≠ []
  top : ∀ d, Below s r d → r ∉ kids s d
  nil : ∀ d, Below s r d → [] ∉ kids s d
  nodup : ∀ d, Below s r d → (kids s d).Nodup
  unique : ∀ d d' x, Below s r d → Below s r d' → x ∈ kids s d → x ∈ kids s d' → d = d'
  folders : ∀ d x, Below s r d → x ∈ kids s d → s (.type d) = some folder

/-- A file has no list. -/
theorem Tree.kids_of_type (h : Tree user r used s) {x : Bytes} (hx : typeOf s x ≠ folder) :
    kids s x = [] := by
  refine List.eq_nil_iff_forall_not_mem.mpr (fun y hy => hx ?_)
  rw [typeOf, h.folders x y hy]
  rfl

theorem Tree.branching (h : Tree user r used s) : Branching r s where
  top_ne := h.root_ne
  top := fun _ _ hr => h.ne_root hr rfl
  nil := fun _ _ hn => h.ne_nil hn rfl
  nodup := fun d _ => h.nodup d
  unique := fun d d' x _ _ hx hx' => h.unique d d' x hx hx'
  folders := fun d x _ hx => h.folders d x hx

/-! ## Levels -/

/-- An object so many levels below another. -/
inductive Level (s : Store Cell Bytes) (top : Bytes) : Nat → Bytes → Prop where
  | self : Level s top 0 top
  | child {n : Nat} {d x : Bytes} : Level s top n d → x ∈ kids s d → Level s top (n + 1) x

namespace Level

variable {top x y d : Bytes} {n m : Nat}

theorem toBelow (h : Level s top n x) : Below s top x := by
  induction h with
  | self => exact .self
  | child _ hx ih => exact .child ih hx

theorem of_below (h : Below s top x) : ∃ n, Level s top n x := by
  induction h with
  | self => exact ⟨0, .self⟩
  | child _ hx ih =>
      obtain ⟨n, hn⟩ := ih
      exact ⟨n + 1, .child hn hx⟩

theorem trans (h : Level s top n x) (h' : Level s x m y) : Level s top (n + m) y := by
  induction h' with
  | self => exact h
  | child _ hy ih => exact .child ih hy

/-- The first step down. -/
theorem succ_iff : Level s top (n + 1) y ↔ ∃ c ∈ kids s top, Level s c n y := by
  constructor
  · intro h
    induction n generalizing y with
    | zero =>
        cases h with
        | child hd hy =>
            cases hd
            exact ⟨y, hy, .self⟩
    | succ n ih =>
        cases h with
        | child hd hy =>
            obtain ⟨c, hc, hcd⟩ := ih hd
            exact ⟨c, hc, .child hcd hy⟩
  · rintro ⟨c, hc, hy⟩
    have h := (Level.child .self hc).trans hy
    rwa [Nat.zero_add, Nat.add_comm] at h

/-- The way up along the parent columns. -/
theorem iterate (h : Tree user r used s) (hx : Level s top n x) : (parentOf s)^[n] x = top := by
  induction hx with
  | self => rfl
  | child _ hx ih =>
      rw [Function.iterate_succ_apply, h.parentOf_of_mem hx]
      exact ih

/-- An object is on one level. -/
theorem unique (h : Branching r s) (hn : Level s r n x) (hm : Level s r m x) : n = m := by
  induction hn generalizing m with
  | self =>
      cases hm with
      | self => rfl
      | child hd hx => exact absurd hx (h.top _ hd.toBelow)
  | child hd hx ih =>
      cases hm with
      | self => exact absurd hx (h.top _ hd.toBelow)
      | child hd' hx' =>
          obtain rfl := h.unique _ _ _ hd.toBelow hd'.toBelow hx hx'
          rw [ih hd']

/-- So far up there is one object. -/
theorem unique_top {c c' : Bytes} (h : Branching r s) (hc : Below s r c) (hc' : Below s r c')
    (hy : Level s c n y) (hy' : Level s c' n y) : c = c' := by
  induction n generalizing y with
  | zero =>
      cases hy
      cases hy'
      rfl
  | succ n ih =>
      cases hy with
      | child hd hx =>
          cases hy' with
          | child hd' hx' =>
              obtain ⟨i, hi⟩ := of_below hc
              obtain ⟨i', hi'⟩ := of_below hc'
              obtain rfl := h.unique _ _ _ (hi.trans hd).toBelow (hi'.trans hd').toBelow hx hx'
              exact ih hd hd'

/-- More lists. -/
theorem mono (hsub : ∀ d x, x ∈ kids s d → x ∈ kids s' d) (h : Level s top n x) : Level s' top n x := by
  induction h with
  | self => exact .self
  | child _ hx ih => exact .child ih (hsub _ _ hx)

/-- Only the lists on the way matter. -/
theorem agree (hsame : ∀ d, Below s top d → kids s' d = kids s d) :
    Level s' top n x ↔ Level s top n x := by
  constructor
  · intro h
    induction h with
    | self => exact .self
    | child _ hx ih => exact .child ih (hsame _ ih.toBelow ▸ hx)
  · intro h
    induction h with
    | self => exact .self
    | child hd hx ih => exact .child ih (by rw [hsame _ hd.toBelow]; exact hx)

end Level

theorem below_iff_level {top x : Bytes} : Below s top x ↔ ∃ n, Level s top n x :=
  ⟨Level.of_below, fun ⟨_, h⟩ => h.toBelow⟩

theorem below_agree {top x : Bytes} (hsame : ∀ d, Below s top d → kids s' d = kids s d) :
    Below s' top x ↔ Below s top x := by
  rw [below_iff_level, below_iff_level]
  exact exists_congr (fun _ => Level.agree hsame)

theorem Below.trans {top x y : Bytes} (h : Below s top x) (h' : Below s x y) : Below s top y := by
  induction h' with
  | self => exact h
  | child _ hy ih => exact .child ih hy

/-! ### Lists that change -/

section Change

variable {d uid x : Bytes} {n m : Nat}

theorem mem_kids_unlist {y d' : Bytes} :
    y ∈ kids (unlist s d uid) d' ↔ y ∈ kids s d' ∧ ¬ (d' = d ∧ y = uid) := by
  rw [kids_unlist]
  split
  · rename_i hd
    subst hd
    simp [List.mem_filter]
  · rename_i hd
    exact ⟨fun hy => ⟨hy, fun hc => hd hc.1⟩, fun hy => hy.1⟩

namespace Branching

variable (h : Branching r s)
include h

/-- Nothing is below itself. -/
theorem acyclic (hx : Below s r x) (n : Nat) : ¬ Level s x (n + 1) x := by
  intro hcycle
  obtain ⟨m, hm⟩ := Level.of_below hx
  have := (hm.trans hcycle).unique h hm
  omega

/-- What is below an object and in some list is the object or listed below it. -/
theorem below_of_child {y : Bytes} (huid : Below s r uid) (hy : Below s r y) (hx : Below s uid x)
    (hmem : x ∈ kids s y) : x = uid ∨ Below s uid y := by
  rcases Tree.below_cases hx with heq | ⟨d', hd', hmem'⟩
  · exact .inl heq
  · exact .inr (h.unique y d' x hy (huid.trans hd') hmem hmem' ▸ hd')

/-- **An object is taken out of its list**: what was below it is gone, and nothing else. -/
theorem level_unlist (hd : Below s r d) (huid : uid ∈ kids s d) :
    Level (unlist s d uid) r n x ↔ Level s r n x ∧ ¬ Below s uid x := by
  have hsub : ∀ d' y, y ∈ kids (unlist s d uid) d' → y ∈ kids s d' :=
    fun _ _ hy => (mem_kids_unlist.mp hy).1
  constructor
  · intro hx
    refine ⟨hx.mono hsub, ?_⟩
    induction hx with
    | self =>
        intro hb
        rcases Tree.below_cases hb with heq | ⟨d', hd', hmem⟩
        · exact h.top d hd (heq ▸ huid)
        · exact h.top d' ((Below.child hd huid).trans hd') hmem
    | child hy hx ih =>
        intro hb
        obtain ⟨hmem, hne⟩ := mem_kids_unlist.mp hx
        have hyb : Below s r _ := (hy.mono hsub).toBelow
        rcases h.below_of_child (.child hd huid) hyb hb hmem with rfl | hb
        · exact hne ⟨h.unique _ _ _ hyb hd hmem huid, rfl⟩
        · exact ih hb
  · rintro ⟨hx, hb⟩
    induction hx with
    | self => exact .self
    | child _ hx ih =>
        refine .child (ih (fun hd => hb (.child hd hx))) (mem_kids_unlist.mpr ⟨hx, ?_⟩)
        rintro ⟨-, rfl⟩
        exact hb .self

/-- Below it nothing has changed. -/
theorem kids_unlist_below (hd : Below s r d) (huid : uid ∈ kids s d) {y : Bytes} (hy : Below s uid y) :
    kids (unlist s d uid) y = kids s y := by
  have hne : y ≠ d := by
    rintro rfl
    obtain ⟨k, hk⟩ := Level.of_below hy
    exact h.acyclic (.child hd huid) k (.child hk huid)
  rw [kids_unlist, if_neg hne]

/-- **An object is listed in a folder**, and with it comes what is below it. -/
theorem level_link (hmem : ∀ d' y, y ∈ kids s' d' ↔ y ∈ kids s d' ∨ (d' = d ∧ y = uid)) (hd : Level s r m d)
    (hout : ¬ Below s uid d) :
    Level s' r n x ↔ Level s r n x ∨ ∃ j, Level s uid j x ∧ n = m + 1 + j := by
  have hsub : ∀ d' y, y ∈ kids s d' → y ∈ kids s' d' := fun d' y hy => (hmem d' y).mpr (.inl hy)
  constructor
  · intro hx
    induction hx with
    | self => exact .inl .self
    | child _ hx ih =>
        rcases (hmem _ _).mp hx with hx | ⟨rfl, rfl⟩
        · rcases ih with hy | ⟨j, hj, rfl⟩
          · exact .inl (.child hy hx)
          · exact .inr ⟨j + 1, .child hj hx, by omega⟩
        · rcases ih with hy | ⟨j, hj, rfl⟩
          · exact .inr ⟨0, .self, by rw [hy.unique h hd]⟩
          · exact absurd hj.toBelow hout
  · rintro (hx | ⟨j, hj, rfl⟩)
    · exact hx.mono hsub
    · have hone : Level s' r (m + 1) uid := .child (hd.mono hsub) ((hmem _ _).mpr (.inr ⟨rfl, rfl⟩))
      exact hone.trans (hj.mono hsub)

/-- The same without the levels. -/
theorem below_link (hmem : ∀ d' y, y ∈ kids s' d' ↔ y ∈ kids s d' ∨ (d' = d ∧ y = uid)) (hd : Below s r d)
    (hout : ¬ Below s uid d) : Below s' r x ↔ Below s r x ∨ Below s uid x := by
  obtain ⟨m, hm⟩ := Level.of_below hd
  rw [below_iff_level, below_iff_level, below_iff_level]
  constructor
  · rintro ⟨n, hn⟩
    rcases (h.level_link hmem hm hout).mp hn with hn | ⟨j, hj, -⟩
    · exact .inl ⟨n, hn⟩
    · exact .inr ⟨j, hj⟩
  · rintro (⟨n, hn⟩ | ⟨j, hj⟩)
    · exact ⟨n, (h.level_link hmem hm hout).mpr (.inl hn)⟩
    · exact ⟨m + 1 + j, (h.level_link hmem hm hout).mpr (.inr ⟨j, hj, rfl⟩)⟩

theorem below_unlist (hd : Below s r d) (huid : uid ∈ kids s d) :
    Below (unlist s d uid) r x ↔ Below s r x ∧ ¬ Below s uid x := by
  rw [below_iff_level, below_iff_level]
  constructor
  · rintro ⟨n, hn⟩
    obtain ⟨hn, hb⟩ := (h.level_unlist hd huid).mp hn
    exact ⟨⟨n, hn⟩, hb⟩
  · rintro ⟨⟨n, hn⟩, hb⟩
    exact ⟨n, (h.level_unlist hd huid).mpr ⟨hn, hb⟩⟩

end Branching

end Change

/-! ## Listings -/

/-- The objects fewer than `n` levels below one, each before what is below it. -/
def nodes (s : Store Cell Bytes) : Nat → Bytes → List Bytes
  | 0, _ => []
  | n + 1, x => x :: (kids s x).flatMap (nodes s n)

theorem mem_nodes {n : Nat} {x y : Bytes} : y ∈ nodes s n x ↔ ∃ k, k < n ∧ Level s x k y := by
  induction n generalizing x with
  | zero => exact ⟨fun h => absurd h List.not_mem_nil, fun ⟨k, hk, _⟩ => by omega⟩
  | succ n ih =>
      rw [nodes, List.mem_cons, List.mem_flatMap]
      constructor
      · rintro (rfl | ⟨c, hc, hy⟩)
        · exact ⟨0, Nat.succ_pos n, .self⟩
        · obtain ⟨k, hk, hl⟩ := ih.mp hy
          exact ⟨k + 1, Nat.succ_lt_succ hk, Level.succ_iff.mpr ⟨c, hc, hl⟩⟩
      · rintro ⟨k, hk, hl⟩
        cases k with
        | zero =>
            cases hl
            exact .inl rfl
        | succ k =>
            obtain ⟨c, hc, hl⟩ := Level.succ_iff.mp hl
            exact .inr ⟨c, hc, ih.mpr ⟨k, by omega, hl⟩⟩

theorem nodes_agree {n : Nat} {x : Bytes} (hsame : ∀ d, Below s x d → kids s' d = kids s d) :
    nodes s' n x = nodes s n x := by
  induction n generalizing x with
  | zero => rfl
  | succ n ih =>
      rw [nodes, nodes, hsame x .self]
      congr 1
      refine List.flatMap_congr (fun c hc => ih (fun d hd => hsame d ?_))
      obtain ⟨k, hk⟩ := Level.of_below hd
      exact (Level.succ_iff.mpr ⟨c, hc, hk⟩).toBelow

namespace Branching

variable (h : Branching r s) {x : Bytes}
include h

/-- Two children of one folder have nothing in common below them. -/
theorem level_disjoint {c c' y : Bytes} {k k' : Nat} (hx : Below s r x) (hc : c ∈ kids s x)
    (hc' : c' ∈ kids s x) (hy : Level s c k y) (hy' : Level s c' k' y) : c = c' := by
  obtain ⟨m, hm⟩ := Level.of_below hx
  -- both are as far above
  have hlevel := ((hm.child hc).trans hy).unique h ((hm.child hc').trans hy')
  obtain rfl : k = k' := by omega
  exact hy.unique_top h (.child hx hc) (.child hx hc') hy'

/-- **A traversal comes to no object twice.** -/
theorem nodup_nodes (hx : Below s r x) (n : Nat) : (nodes s n x).Nodup := by
  induction n generalizing x with
  | zero => exact List.nodup_nil
  | succ n ih =>
      refine List.nodup_cons.mpr ⟨?_, List.nodup_flatMap.mpr ⟨fun c hc => ih (.child hx hc), ?_⟩⟩
      · intro hmem
        obtain ⟨c, hc, hxc⟩ := List.mem_flatMap.mp hmem
        obtain ⟨k, -, hl⟩ := mem_nodes.mp hxc
        exact h.acyclic hx k (Level.succ_iff.mpr ⟨c, hc, hl⟩)
      · refine (h.nodup x hx).imp_of_mem ?_
        intro c c' hc hc' hne y hy hy'
        obtain ⟨k, -, hl⟩ := mem_nodes.mp hy
        obtain ⟨k', -, hl'⟩ := mem_nodes.mp hy'
        exact hne (h.level_disjoint hx hc hc' hl hl')

theorem ne_nil (hx : Below s r x) : x ≠ [] := by
  rintro rfl
  rcases Tree.below_cases hx with heq | ⟨d, hd, hin⟩
  · exact h.top_ne heq.symm
  · exact h.nil d hd hin

/-- What is below an object is not the empty uid. -/
theorem nil_notMem_nodes (hx : Below s r x) (n : Nat) : [] ∉ nodes s n x := by
  intro hmem
  obtain ⟨k, -, hl⟩ := mem_nodes.mp hmem
  exact h.ne_nil (hx.trans hl.toBelow) rfl

/-- A file has no list. -/
theorem kids_of_type (hx : Below s r x) (ht : typeOf s x ≠ folder) : kids s x = [] := by
  refine List.eq_nil_iff_forall_not_mem.mpr (fun y hy => ht ?_)
  rw [typeOf, h.folders x y hx hy]
  rfl

end Branching

/-! ## Bytes -/

/-- The size of a file. -/
def sizeOf (s : Store Cell Bytes) (x : Bytes) : Nat := parseSizeOr ((s (.size x)).getD []) 0

/-- What an object adds to the bytes in use. -/
def weight (s : Store Cell Bytes) (x : Bytes) : Nat := if typeOf s x = file then sizeOf s x else 0

/-- What some objects add. -/
def bytesOf (s : Store Cell Bytes) (l : List Bytes) : Nat := (l.map (weight s)).sum

@[simp] theorem bytesOf_nil (s : Store Cell Bytes) : bytesOf s [] = 0 := rfl

@[simp] theorem bytesOf_cons (s : Store Cell Bytes) (x : Bytes) (l : List Bytes) :
    bytesOf s (x :: l) = weight s x + bytesOf s l := by
  simp [bytesOf]

@[simp] theorem bytesOf_append (s : Store Cell Bytes) (l l' : List Bytes) :
    bytesOf s (l ++ l') = bytesOf s l + bytesOf s l' := by
  simp [bytesOf]

theorem bytesOf_congr {l : List Bytes} (h : ∀ x ∈ l, weight s' x = weight s x) :
    bytesOf s' l = bytesOf s l := by
  rw [bytesOf, bytesOf, List.map_congr_left h]

theorem bytesOf_reverse (s : Store Cell Bytes) (l : List Bytes) : bytesOf s l.reverse = bytesOf s l := by
  rw [bytesOf, bytesOf, List.map_reverse, List.sum_reverse]

/-- Only files count. -/
theorem type_of_weight {x : Bytes} (h : weight s x ≠ 0) : typeOf s x = file := by
  by_contra ht
  exact h (if_neg ht)

/-- What has no bytes can be left out. -/
theorem bytesOf_eq_nonzero (s : Store Cell Bytes) (l : List Bytes) :
    bytesOf s l = bytesOf s (l.filter (fun x => decide (weight s x ≠ 0))) := by
  induction l with
  | nil => rfl
  | cons x l ih =>
      by_cases hx : weight s x = 0
      · rw [bytesOf_cons, hx, Nat.zero_add, List.filter_cons_of_neg (by simpa using hx), ih]
      · rw [List.filter_cons_of_pos (by simpa using hx), bytesOf_cons, bytesOf_cons, ih]

/-- The files below `r` have `n` bytes in all. -/
def Total (s : Store Cell Bytes) (r : Bytes) (n : Nat) : Prop :=
  ∃ files : List Bytes, files.Nodup ∧ (∀ x, x ∈ files ↔ Below s r x ∧ typeOf s x = file) ∧
    n = (files.map (sizeOf s)).sum

theorem Total.unique {n m : Nat} (hn : Total s r n) (hm : Total s r m) : n = m := by
  obtain ⟨l, hnd, hl, rfl⟩ := hn
  obtain ⟨l', hnd', hl', rfl⟩ := hm
  have hperm : l.Perm l' := (List.perm_ext_iff_of_nodup hnd hnd').mpr
    (fun x => (hl x).trans (hl' x).symm)
  exact (hperm.map _).sum_eq

/-- **The total from a listing.** What is not listed or listed too much has no bytes. -/
theorem Total.eq_bytesOf {n : Nat} (hn : Total s r n) {l : List Bytes} (hnd : l.Nodup)
    (hl : ∀ x, weight s x ≠ 0 → (x ∈ l ↔ Below s r x)) : n = bytesOf s l := by
  obtain ⟨files, hnf, hf, rfl⟩ := hn
  have hfiles : (files.map (sizeOf s)).sum = bytesOf s files := by
    rw [bytesOf, List.map_congr_left]
    exact fun x hx => (if_pos ((hf x).mp hx).2).symm
  have hperm : (files.filter (fun x => decide (weight s x ≠ 0))).Perm
      (l.filter (fun x => decide (weight s x ≠ 0))) := by
    refine (List.perm_ext_iff_of_nodup (hnf.filter _) (hnd.filter _)).mpr (fun x => ?_)
    rw [List.mem_filter, List.mem_filter, decide_eq_true_eq]
    refine and_congr_left (fun hx => ?_)
    rw [hf x, hl x hx]
    exact and_iff_left (type_of_weight hx)
  rw [hfiles, bytesOf_eq_nonzero s files, bytesOf_eq_nonzero s l]
  exact (hperm.map _).sum_eq

/-- The same files. -/
theorem Total.congr {n : Nat} (hn : Total s r n)
    (hfile : ∀ x, (Below s' r x ∧ typeOf s' x = file) ↔ (Below s r x ∧ typeOf s x = file))
    (hsize : ∀ x, Below s r x → typeOf s x = file → sizeOf s' x = sizeOf s x) : Total s' r n := by
  obtain ⟨files, hnd, hf, rfl⟩ := hn
  refine ⟨files, hnd, fun x => (hf x).trans (hfile x).symm, ?_⟩
  rw [List.map_congr_left]
  intro x hx
  obtain ⟨hb, ht⟩ := (hf x).mp hx
  exact (hsize x hb ht).symm

/-- One more file. -/
theorem Total.insert {n : Nat} (hn : Total s r n) {uid : Bytes} (hnew : ¬ Below s r uid)
    (hfile : ∀ x, (Below s' r x ∧ typeOf s' x = file) ↔
      (Below s r x ∧ typeOf s x = file) ∨ (x = uid ∧ typeOf s' uid = file))
    (hsize : ∀ x, Below s r x → typeOf s x = file → sizeOf s' x = sizeOf s x) :
    Total s' r (n + weight s' uid) := by
  by_cases ht : typeOf s' uid = file
  · obtain ⟨files, hnd, hf, rfl⟩ := hn
    refine ⟨uid :: files, List.nodup_cons.mpr ⟨fun hx => hnew ((hf uid).mp hx).1, hnd⟩, fun x => ?_, ?_⟩
    · rw [List.mem_cons, hf x, hfile x, or_comm, and_iff_left ht]
    · have hmap : files.map (sizeOf s') = files.map (sizeOf s) := List.map_congr_left (fun x hx =>
        hsize x ((hf x).mp hx).1 ((hf x).mp hx).2)
      rw [List.map_cons, List.sum_cons, hmap, weight, if_pos ht, Nat.add_comm]
  · rw [weight, if_neg ht]
    refine hn.congr (fun x => ?_) hsize
    rw [hfile x]
    exact ⟨fun hx => hx.resolve_right (fun hu => ht hu.2), .inl⟩

/-- Some files fewer. -/
theorem Total.split {n : Nat} (hn : Total s r n) {gone : Bytes → Prop}
    (hfile : ∀ x, (Below s' r x ∧ typeOf s' x = file) ↔ (Below s r x ∧ typeOf s x = file) ∧ ¬ gone x)
    (hsize : ∀ x, Below s r x → typeOf s x = file → ¬ gone x → sizeOf s' x = sizeOf s x)
    {l : List Bytes} (hnd : l.Nodup) (hl : ∀ x, weight s x ≠ 0 → (x ∈ l ↔ Below s r x ∧ gone x)) :
    ∃ m, Total s' r m ∧ n = m + bytesOf s l := by
  classical
  obtain ⟨files, hnf, hf, hsum⟩ := id hn
  refine ⟨((files.filter (fun x => decide (¬ gone x))).map (sizeOf s')).sum,
    ⟨files.filter (fun x => decide (¬ gone x)), hnf.filter _, fun x => ?_, rfl⟩, ?_⟩
  · rw [List.mem_filter, decide_eq_true_eq, hf x, hfile x]
  · have hkeep : ((files.filter (fun x => decide (¬ gone x))).map (sizeOf s')).sum
        = bytesOf s (files.filter (fun x => decide (¬ gone x))) := by
      rw [bytesOf, List.map_congr_left]
      intro x hx
      obtain ⟨hx, hg⟩ := List.mem_filter.mp hx
      obtain ⟨hb, ht⟩ := (hf x).mp hx
      rw [hsize x hb ht (by simpa using hg), weight, if_pos ht]
    have hdisj : ∀ x ∈ files.filter (fun x => decide (¬ gone x)),
        ∀ y ∈ l.filter (fun y => decide (weight s y ≠ 0)), x ≠ y := by
      rintro x hx _ hy rfl
      obtain ⟨hy, hw⟩ := List.mem_filter.mp hy
      have hg := ((hl x (by simpa using hw)).mp hy).2
      exact absurd hg (by simpa using (List.mem_filter.mp hx).2)
    have hall := hn.eq_bytesOf
      (List.nodup_append.mpr ⟨hnf.filter (fun x => decide (¬ gone x)), hnd.filter (fun y => decide (weight s y ≠ 0)),
        hdisj⟩) ?_
    · rw [bytesOf_append, ← bytesOf_eq_nonzero] at hall
      rw [hkeep]
      exact hall
    · intro x hx
      have ht : typeOf s x = file := type_of_weight hx
      rw [List.mem_append, List.mem_filter, List.mem_filter, decide_eq_true_eq, decide_eq_true_eq, hf x,
        hl x hx]
      constructor
      · rintro (⟨⟨hb, -⟩, -⟩ | ⟨⟨hb, -⟩, -⟩)
        · exact hb
        · exact hb
      · intro hb
        by_cases hg : gone x
        · exact .inr ⟨⟨hb, hg⟩, hx⟩
        · exact .inl ⟨⟨hb, ht⟩, hg⟩

/-- The size column of a file. -/
def Sized (s : Store Cell Bytes) (x : Bytes) : Prop :=
  ∃ n, s (.size x) = some (Decimal.text n) ∧ n < 2 ^ 64

theorem parseSizeOr_text {n : Nat} (h : n < 2 ^ 64) (fallback : Nat) :
    parseSizeOr (Decimal.text n) fallback = n := by
  have hne : Decimal.text n ≠ [] := Decimal.digits_ne_nil n n
  rw [parseSizeOr, if_neg hne, Decimal.stoul_text h]
  rfl

theorem Sized.parse {x : Bytes} (h : Sized s x) (fallback : Nat) :
    parseSizeOr ((s (.size x)).getD []) fallback = sizeOf s x := by
  obtain ⟨n, hn, hlt⟩ := h
  rw [sizeOf, hn]
  exact (parseSizeOr_text hlt fallback).trans (parseSizeOr_text hlt 0).symm

/-! ## Traversals -/

/-- One child in the loop of `subtree_file_bytes_inner`. -/
def addSubtree (left : Nat) (q : Nat × List Bytes) (child : Bytes) : FeProg (Nat × List Bytes) := do
  let (bytes, seen) ← subtreeBytesInner left child q.2
  return (sizeT (q.1 + bytes), seen)

/-- **`subtree_file_bytes_inner`** reads what is below an object, and adds up its bytes. -/
theorem reads_subtreeBytesInner (h : Branching r s) {P : Cell → Prop} {left : Nat} {x : Bytes}
    {seen : List Bytes} (hx : Below s r x) (hP : ∀ y ∈ nodes s left x, ∀ k, ObjCell y k → P k)
    (hseen : ∀ y ∈ nodes s left x, y ∉ seen)
    (hsized : ∀ y ∈ nodes s left x, typeOf s y = file → Sized s y)
    (hsum : bytesOf s (nodes s left x) < 2 ^ 64) :
    Reads P s (subtreeBytesInner left x seen)
      (bytesOf s (nodes s left x), (nodes s left x).reverse ++ seen) := by
  induction left generalizing x seen with
  | zero => rfl
  | succ left ih =>
      have hxs : ¬ (x = [] ∨ x ∈ seen) := by
        rintro (hnil | hmem)
        · exact h.ne_nil hx hnil
        · exact hseen x List.mem_cons_self hmem
      have hcell : ∀ k, ObjCell x k → P k := hP x List.mem_cons_self
      rw [subtreeBytesInner, if_neg hxs]
      refine Reads.bind (reads_getStr (hcell _ rfl)) ?_
      show Reads P s (if typeOf s x = file then _ else _) _
      split
      · rename_i htype
        have hkids : kids s x = [] := h.kids_of_type hx (by rw [htype]; decide)
        have hw : weight s x = sizeOf s x := if_pos htype
        have hnodes : nodes s (left + 1) x = [x] := by rw [nodes, hkids]; rfl
        refine Reads.bind (reads_getStr (hcell _ rfl)) ?_
        -- what the contents would say is not asked for
        obtain ⟨contents, hcontents⟩ := exists_reads
          ((only_getFileBytes x).mono (gets_mono hcell) (fun _ h => h)) s
        refine Reads.bind hcontents ?_
        show (parseSizeOr ((s (.size x)).getD []) contents.length, x :: seen) = _
        rw [(hsized x List.mem_cons_self htype).parse, hnodes, bytesOf_cons, hw]
        rfl
      · rename_i htype
        have hw : weight s x = 0 := if_neg htype
        refine Reads.bind (reads_getStr (hcell _ rfl)) ?_
        show Reads P s ((kids s x).foldlM _ (0, x :: seen)) _
        -- the children one after another
        have hloop : ∀ (cs : List Bytes) (acc : Nat) (seen' : List Bytes), (∀ c ∈ cs, c ∈ kids s x) →
            (cs.flatMap (nodes s left)).Nodup →
            (∀ y ∈ cs.flatMap (nodes s left), y ∉ seen') →
            acc + bytesOf s (cs.flatMap (nodes s left)) < 2 ^ 64 →
            Reads P s (cs.foldlM (addSubtree left) (acc, seen'))
              (acc + bytesOf s (cs.flatMap (nodes s left)),
                (cs.flatMap (nodes s left)).reverse ++ seen') := by
          intro cs
          induction cs with
          | nil => exact fun _ _ _ _ _ _ => rfl
          | cons c cs ihc =>
              intro acc seen' hcs hnd hdis hlt
              rw [List.flatMap_cons] at hnd hdis hlt ⊢
              rw [bytesOf_append] at hlt ⊢
              obtain ⟨-, hnd', hdisj⟩ := List.nodup_append.mp hnd
              have hck : c ∈ kids s x := hcs c List.mem_cons_self
              have hsub : ∀ y ∈ nodes s left c, y ∈ nodes s (left + 1) x := fun y hy =>
                List.mem_cons_of_mem _ (List.mem_flatMap.mpr ⟨c, hck, hy⟩)
              have hone := @ih c seen' (.child hx hck) (fun y hy => hP y (hsub y hy))
                (fun y hy => hdis y (List.mem_append_left _ hy)) (fun y hy => hsized y (hsub y hy))
                (by omega)
              have hT : sizeT (acc + bytesOf s (nodes s left c)) = acc + bytesOf s (nodes s left c) :=
                Nat.mod_eq_of_lt (by omega)
              have hrest := ihc (acc + bytesOf s (nodes s left c)) ((nodes s left c).reverse ++ seen')
                (fun c' hc' => hcs c' (List.mem_cons_of_mem _ hc')) hnd' ?_ (by omega)
              · rw [List.foldlM_cons, List.reverse_append, List.append_assoc, ← Nat.add_assoc]
                refine Reads.bind (Reads.bind hone ?_) hrest
                show (sizeT (acc + bytesOf s (nodes s left c)), _) = _
                rw [hT]
              · intro y hy hmem
                rcases List.mem_append.mp hmem with hmem | hmem
                · exact hdisj y (List.mem_reverse.mp hmem) y hy rfl
                · exact hdis y (List.mem_append_right _ hy) hmem
        have hnd := List.nodup_cons.mp (h.nodup_nodes hx (left + 1))
        rw [nodes, bytesOf_cons, hw, Nat.zero_add] at hsum
        have hall := hloop (kids s x) 0 (x :: seen) (fun _ hc => hc) hnd.2 ?_ (by omega)
        · rw [Nat.zero_add] at hall
          rw [nodes, bytesOf_cons, hw, Nat.zero_add, List.reverse_cons, List.append_assoc]
          exact hall
        · intro y hy hmem
          rcases List.mem_cons.mp hmem with rfl | hmem
          · exact hnd.1 hy
          · exact hseen y (List.mem_cons_of_mem _ hy) hmem

theorem run_subtreeBytesInner (h : Branching r s) {left : Nat} {x : Bytes} {seen : List Bytes}
    (hx : Below s r x) (hseen : ∀ y ∈ nodes s left x, y ∉ seen)
    (hsized : ∀ y ∈ nodes s left x, typeOf s y = file → Sized s y)
    (hsum : bytesOf s (nodes s left x) < 2 ^ 64) :
    run (subtreeBytesInner left x seen) s =
      ((bytesOf s (nodes s left x), (nodes s left x).reverse ++ seen), s) :=
  (reads_subtreeBytesInner (P := fun _ => True) h hx (fun _ _ _ _ => trivial) hseen hsized hsum).run_eq

/-- **`collect_subtree_inner`** reads what is below an object, and lists it. -/
theorem reads_collectInner {P : Cell → Prop} {left : Nat} {x : Bytes} {out : List Bytes}
    (hP : ∀ y ∈ nodes s left x, ∀ k, ObjCell y k → P k)
    (hkids : ∀ y ∈ nodes s left x, typeOf s y ≠ folder → kids s y = []) (hnd : (nodes s left x).Nodup)
    (hnil : [] ∉ nodes s left x) (hout : ∀ y ∈ nodes s left x, y ∉ out) :
    Reads P s (collectInner left x out) (out ++ nodes s left x) := by
  induction left generalizing x out with
  | zero => rw [nodes, List.append_nil]; rfl
  | succ left ih =>
      have hxs : ¬ (x = [] ∨ x ∈ out) := by
        rintro (hx | hmem)
        · exact hnil (hx ▸ List.mem_cons_self)
        · exact hout x List.mem_cons_self hmem
      have hcell : ∀ k, ObjCell x k → P k := hP x List.mem_cons_self
      rw [collectInner, if_neg hxs]
      refine Reads.bind (reads_getStr (hcell _ rfl)) ?_
      show Reads P s (if typeOf s x ≠ folder then _ else _) _
      split
      · rename_i htype
        rw [nodes, hkids x List.mem_cons_self htype]
        rfl
      · refine Reads.bind (reads_getStr (hcell _ rfl)) ?_
        show Reads P s ((kids s x).foldlM _ (out ++ [x])) _
        -- the children one after another
        have hloop : ∀ (cs out' : List Bytes), (∀ c ∈ cs, c ∈ kids s x) → (cs.flatMap (nodes s left)).Nodup →
            [] ∉ cs.flatMap (nodes s left) → (∀ y ∈ cs.flatMap (nodes s left), y ∉ out') →
            Reads P s (cs.foldlM (fun out child => collectInner left child out) out')
              (out' ++ cs.flatMap (nodes s left)) := by
          intro cs
          induction cs with
          | nil => exact fun out' _ _ _ _ => by rw [List.flatMap_nil, List.append_nil]; rfl
          | cons c cs ihc =>
              intro out' hcs hnd hnil hdis
              rw [List.flatMap_cons] at hnd hnil hdis ⊢
              obtain ⟨hndc, hnd', hdisj⟩ := List.nodup_append.mp hnd
              have hsub : ∀ y ∈ nodes s left c, y ∈ nodes s (left + 1) x := fun y hy =>
                List.mem_cons_of_mem _ (List.mem_flatMap.mpr ⟨c, hcs c List.mem_cons_self, hy⟩)
              rw [List.foldlM_cons, ← List.append_assoc]
              refine Reads.bind (ih (fun y hy => hP y (hsub y hy)) (fun y hy => hkids y (hsub y hy)) hndc
                (fun h => hnil (List.mem_append_left _ h)) (fun y hy => hdis y (List.mem_append_left _ hy))) ?_
              refine ihc _ (fun c' hc' => hcs c' (List.mem_cons_of_mem _ hc')) hnd'
                (fun h => hnil (List.mem_append_right _ h)) ?_
              intro y hy hmem
              rcases List.mem_append.mp hmem with hmem | hmem
              · exact hdis y (List.mem_append_right _ hy) hmem
              · exact hdisj y hmem y hy rfl
        have hnd' := List.nodup_cons.mp hnd
        have hall := hloop (kids s x) (out ++ [x]) (fun _ hc => hc) hnd'.2
          (fun h => hnil (List.mem_cons_of_mem _ h)) ?_
        · rw [List.append_assoc] at hall
          exact hall
        · intro y hy hmem
          rcases List.mem_append.mp hmem with hmem | hmem
          · exact hout y (List.mem_cons_of_mem _ hy) hmem
          · exact hnd'.1 (List.mem_singleton.mp hmem ▸ hy)

theorem run_collectInner {left : Nat} {x : Bytes} {out : List Bytes}
    (hkids : ∀ y ∈ nodes s left x, typeOf s y ≠ folder → kids s y = []) (hnd : (nodes s left x).Nodup)
    (hnil : [] ∉ nodes s left x) (hout : ∀ y ∈ nodes s left x, y ∉ out) :
    run (collectInner left x out) s = (out ++ nodes s left x, s) :=
  (reads_collectInner (P := fun _ => True) (fun _ _ _ _ => trivial) hkids hnd hnil hout).run_eq

end NCloud.Frontend.Drive
