import NCloud.Frontend.DrivePaths

/-!
# What a delete removes

`handle_delete_path` takes an object out of its list, collects what is below it and
deletes the cells of what it has collected, last first. A folder and a file have
different rows; which ones are deleted depends on the type, and the chunks of a file on
the count that is stored. In a drive whose objects have the rows of their type and no
others, the cells of every collected object are gone in the end and no other cell has
changed. `collect_subtree` goes down 4096 levels.
-/

namespace NCloud.Frontend.Drive

open Process Wire KeyValue

variable {user r x : Bytes} {s s' : Store Cell Bytes} {α : Type}

/-! ## Drives without loose rows -/

/-- No chunk of a file is beyond the count that is stored. -/
structure Chunked (s : Store Cell Bytes) (x : Bytes) : Prop where
  count : s (.chunks x) ≠ some []
  chunk : ∀ i, s (.chunk x i) ≠ none → ∃ n, Decimal.stoul ((s (.chunks x)).getD []) = some n ∧ i < n

/-- The rows of an object are those of its type. -/
structure Rows (s : Store Cell Bytes) (x : Bytes) : Prop where
  folder : typeOf s x = folder → ∀ k, Contents x k → s k = none
  file : typeOf s x ≠ Drive.folder → s (.children x) = none ∧ Chunked s x

/-- A drive that is in order. -/
structure Sound (user r : Bytes) (s : Store Cell Bytes) : Prop where
  root : s (.root user) = some r
  root_ne : r ≠ []
  root_folder : s (.type r) = some folder
  root_children : s (.children r) ≠ none
  tree : WellFormed s r
  rows : ∀ x, Below s r x → Rows s x

/-- Two objects have no cell in common. -/
theorem objCell_unique {y : Bytes} {k : Cell} (hx : ObjCell x k) (hy : ObjCell y k) : x = y := by
  cases k <;> first | exact hx.symm.trans hy | exact hx.elim

theorem typeOf_agree (h : ∀ k, ObjCell x k → s' k = s k) : typeOf s' x = typeOf s x :=
  typeOf_congr (h (.type x) rfl)

/-- Only the cells of the object matter. -/
theorem Rows.congr (h : Rows s x) (hcells : ∀ k, ObjCell x k → s' k = s k) : Rows s' x where
  folder := by
    intro ht k hk
    rw [hcells k (objCell_of_contents hk)]
    exact h.folder ((typeOf_agree hcells).symm.trans ht) k hk
  file := by
    intro ht
    obtain ⟨hchildren, hchunked⟩ := h.file (fun heq => ht ((typeOf_agree hcells).trans heq))
    refine ⟨(hcells (.children x) rfl).trans hchildren, ?_, ?_⟩
    · rw [hcells (.chunks x) rfl]
      exact hchunked.count
    · intro i hi
      rw [hcells (.chunk x i) rfl] at hi
      rw [hcells (.chunks x) rfl]
      exact hchunked.chunk i hi

/-- A tree does not come back to its root, nor to anything else. -/
theorem WellFormed.branching (h : WellFormed s r) (hne : r ≠ []) : Branching r s := by
  have htop : ∀ d, Below s r d → r ∉ kids s d := by
    intro d hd hmem
    obtain ⟨n, hn⟩ := h.up d hd
    refine h.acyclic r .self (n + 1) (Nat.succ_pos n) ?_
    have hparent : parentOf s r = d := by
      rw [parentOf, h.parent r d .self hmem]
      rfl
    rw [Function.iterate_succ_apply, hparent]
    exact hn
  refine { top_ne := hne, top := htop, nil := ?_, nodup := ?_, unique := ?_, folders := ?_ }
  · intro d _ hmem
    exact (clean_of_mem_splitCsv hmem).ne_nil rfl
  · intro d hd
    refine List.nodup_iff_count_le_one.mpr (fun y => ?_)
    by_cases hy : y ∈ kids s d
    · have hne : y ≠ r := fun heq => htop d hd (heq ▸ hy)
      obtain ⟨d', -, hcount, huniq⟩ := h.once y (.child hd hy) hne
      rw [huniq d hy, hcount]
    · rw [List.count_eq_zero_of_not_mem hy]
      exact Nat.zero_le 1
  · intro d d' y hd hd' hy hy'
    have hparent := h.parent y d (.child hd hy) hy
    rw [h.parent y d' (.child hd' hy') hy'] at hparent
    exact (Option.some.inj hparent).symm
  · intro d y hd hy
    exact h.folders d hd (List.ne_nil_of_mem hy)

theorem Sound.branching (h : Sound user r s) : Branching r s :=
  h.tree.branching h.root_ne

/-! ## Paths -/

/-- Nothing has to be made. -/
theorem Sound.run_ensureDriveRoot (h : Sound user r s) : run (ensureDriveRoot user) s = (some r, s) := by
  obtain ⟨children, hchildren⟩ := Option.ne_none_iff_exists'.mp h.root_children
  rw [ensureDriveRoot, run_bind, run_getStatus, h.root]
  show run (if r = [] then _ else _) s = _
  rw [if_neg h.root_ne, run_bind, run_getStatus, h.root_folder]
  show run (if folder ≠ folder then _ else _) s = _
  rw [if_neg (not_not_intro rfl)]
  show run (getStatus (.children r) >>= _) s = _
  rw [run_bind, run_getStatus, hchildren]
  rfl

/-- `resolve_path` only reads. -/
theorem Sound.run_resolvePath (h : Sound user r s) (path : Bytes) :
    run (resolvePath user path) s = ((walkTo s r (pathParts path)).map (fun x => (x, typeOf s x)), s) := by
  rw [resolvePath, run_bind, h.run_ensureDriveRoot]
  show run (if path = [] ∨ path = [slash] then _ else _) s = _
  split
  · rename_i hpath
    have hparts : pathParts path = [] := by
      rcases hpath with rfl | rfl
      · rfl
      · rfl
    have htype : typeOf s r = folder := by
      rw [typeOf, h.root_folder]
      rfl
    rw [hparts, walkTo, Option.map_some, htype]
    rfl
  · rw [run_bind, run_walk]
    dsimp only
    cases walkTo s r (pathParts path) with
    | none => rfl
    | some cur =>
        show run (getStr (.type cur) >>= fun t => pure (some (cur, t))) s = _
        rw [run_bind, run_getStr]
        rfl

theorem Sound.resolved_eq (h : Sound user r s) (path : Bytes) : resolved user path s = walkTo s r (pathParts path) := by
  rw [resolved, h.run_resolvePath, Option.map_map]
  exact Option.map_id'

/-! ## Contents -/

theorem gone_of_contents (hbytes : s (.bytes x) = none) (hchunks : s (.chunks x) = none)
    (hchunk : ∀ i, s (.chunk x i) = none) {k : Cell} (hk : Contents x k) : s k = none := by
  cases k with
  | bytes y =>
      obtain rfl : y = x := hk
      exact hbytes
  | chunks y =>
      obtain rfl : y = x := hk
      exact hchunks
  | chunk y i =>
      obtain rfl : y = x := hk
      exact hchunk i
  | _ => exact hk.elim

/-- A file without a count has no chunks. -/
theorem Chunked.chunk_none (h : Chunked s x) (hn : Decimal.stoul ((s (.chunks x)).getD []) = none) (i : Nat) :
    s (.chunk x i) = none := by
  by_contra hi
  obtain ⟨n, hn', -⟩ := h.chunk i hi
  rw [hn] at hn'
  exact absurd hn' (by simp)

/-- **`delete_file_bytes`** leaves nothing of a file. -/
theorem ends_deleteFileBytes (h : Chunked s x) :
    Ends (deleteFileBytes x) (fun _ s' => (∀ k, Contents x k → s' k = none) ∧
      ∀ k, ¬ Contents x k → s' k = s k) s := by
  refine Ends.and ?_ (ends_onCells (only_deleteFileBytes x) s)
  refine Ends.bind ?_
  rw [Ends, run_del]
  refine Ends.bind ?_
  have hread : (Function.update s (.bytes x) none (.chunks x)).getD default = (s (.chunks x)).getD [] := rfl
  rw [Ends, run_getStr, hread]
  show Ends (if (s (.chunks x)).getD [] = [] then _ else _) _ _
  split
  · rename_i hnil
    have hchunks : s (.chunks x) = none := by
      cases hc : s (.chunks x) with
      | none => rfl
      | some v =>
          rw [hc] at hnil
          exact absurd (hc.trans (congrArg some hnil)) h.count
    intro k hk
    refine gone_of_contents ?_ ?_ (fun i => ?_) hk
    · exact Function.update_self ..
    · exact hchunks
    · refine h.chunk_none ?_ i
      rw [hnil]
      rfl
  · dsimp only
    cases hn : Decimal.stoul ((s (.chunks x)).getD []) with
    | none =>
        refine Ends.bind ?_
        rw [Ends, run_del]
        intro k hk
        refine gone_of_contents ?_ ?_ (fun i => ?_) hk
        · exact (Function.update_self .. : Function.update s (.bytes x) none (.bytes x) = none)
        · exact Function.update_self ..
        · exact h.chunk_none hn i
    | some n =>
        refine Ends.bind ((ends_delAll _ _).mono ?_)
        intro _ s₁ h₁
        refine Ends.bind ?_
        rw [Ends, run_del]
        intro k hk
        refine gone_of_contents ?_ ?_ (fun i => ?_) hk
        · show s₁ (.bytes x) = none
          rw [h₁, if_neg (by simp)]
          exact Function.update_self ..
        · exact Function.update_self ..
        · show s₁ (.chunk x i) = none
          rw [h₁]
          split
          · rfl
          · rename_i hnot
            show s (.chunk x i) = none
            by_contra hi
            obtain ⟨n', hn', hlt⟩ := h.chunk i hi
            obtain rfl : n = n' := Option.some.inj (hn.symm.trans hn')
            exact hnot (List.mem_map.mpr ⟨i, List.mem_range.mpr hlt, rfl⟩)

/-! ## Objects -/

/-- The cells of some objects are gone, and no others have changed. -/
structure Cleared (l : List Bytes) (s s' : Store Cell Bytes) : Prop where
  gone : ∀ x ∈ l, ∀ k, ObjCell x k → s' k = none
  frame : ∀ k, (∀ x ∈ l, ¬ ObjCell x k) → s' k = s k

/-- One turn of the loop of `handle_delete_path`. -/
theorem ends_deleteNode_cleared {f : FeProg α} {Q : α → Store Cell Bytes → Prop} (hrows : Rows s x)
    (h : ∀ s', Cleared [x] s s' → Ends f Q s') :
    Ends (delAll [.type x, .name x, .parent x, .owner x, .size x] >>= fun _ =>
      if typeOf s x = folder then del (.children x) >>= fun _ => f
      else deleteFileBytes x >>= fun _ => f) Q s := by
  refine Ends.bind ((ends_delAll _ s).mono ?_)
  intro _ s₁ h₁
  have hkeep : ∀ k, k ∉ [Cell.type x, .name x, .parent x, .owner x, .size x] → s₁ k = s k :=
    fun k hk => (h₁ k).trans (if_neg hk)
  have hother : ∀ k, ¬ ObjCell x k → s₁ k = s k := by
    intro k hk
    refine hkeep k (fun hmem => hk ?_)
    simp only [List.mem_cons, List.not_mem_nil, or_false] at hmem
    rcases hmem with rfl | rfl | rfl | rfl | rfl <;> rfl
  split
  · rename_i htype
    refine Ends.bind (h _ ⟨?_, ?_⟩)
    · intro y hy k hk
      obtain rfl := List.mem_singleton.mp hy
      rw [run_del]
      by_cases hc : k = .children y
      · subst hc
        exact Function.update_self ..
      · refine (Function.update_of_ne hc ..).trans ?_
        by_cases hcontents : Contents y k
        · rw [hkeep k (by cases k <;> simp_all [Contents])]
          exact hrows.folder htype k hcontents
        · rw [h₁ k, if_pos]
          cases k <;> simp_all [Contents, ObjCell]
    · intro k hk
      rw [run_del]
      refine (Function.update_of_ne ?_ ..).trans (hother k (hk x List.mem_cons_self))
      rintro rfl
      exact hk x List.mem_cons_self rfl
  · rename_i htype
    obtain ⟨hchildren, hchunked⟩ := hrows.file htype
    have hchunked₁ : Chunked s₁ x := by
      refine ⟨?_, ?_⟩
      · rw [hkeep _ (by simp)]
        exact hchunked.count
      · intro i hi
        rw [hkeep _ (by simp)] at hi
        rw [hkeep _ (by simp)]
        exact hchunked.chunk i hi
    refine Ends.bind ((ends_deleteFileBytes hchunked₁).mono ?_)
    rintro _ s₂ ⟨hgone, hframe⟩
    refine h s₂ ⟨?_, ?_⟩
    · intro y hy k hk
      obtain rfl := List.mem_singleton.mp hy
      by_cases hcontents : Contents y k
      · exact hgone k hcontents
      · rw [hframe k hcontents]
        by_cases hc : k = .children y
        · subst hc
          rw [hkeep _ (by simp)]
          exact hchildren
        · rw [h₁ k, if_pos]
          cases k <;> simp_all [Contents, ObjCell]
    · intro k hk
      have hx := hk x List.mem_cons_self
      exact (hframe k (fun hc => hx (objCell_of_contents hc))).trans (hother k hx)

/-- **The loop of `handle_delete_path`.** -/
theorem ends_deleteNodes_cleared {l : List Bytes} (hnd : l.Nodup) (hrows : ∀ x ∈ l, Rows s x) (freed : Int) :
    Ends (deleteNodes l freed) (fun _ s' => Cleared l s s') s := by
  induction l generalizing freed s with
  | nil => exact ⟨fun _ hx => absurd hx List.not_mem_nil, fun _ _ => rfl⟩
  | cons obj rest ih =>
      obtain ⟨hnot, hnd⟩ := List.nodup_cons.mp hnd
      refine Ends.bind ?_
      rw [Ends, run_getStr]
      have hsize : Ends (addSize freed obj) (fun _ s' => s' = s) s := by
        rw [Ends, run_addSize]
      refine ends_ite_bind hsize rfl ?_
      intro freed'
      refine ends_deleteNode_cleared (hrows obj List.mem_cons_self) ?_
      intro s₁ h₁
      -- the rows of the others are still there
      have hrest : ∀ y ∈ rest, Rows s₁ y := by
        intro y hy
        refine (hrows y (List.mem_cons_of_mem _ hy)).congr (fun k hk => h₁.frame k ?_)
        intro z hz hzk
        rw [List.mem_singleton] at hz
        subst hz
        exact hnot (objCell_unique hzk hk ▸ hy)
      refine (ih hnd hrest freed').mono ?_
      intro _ s₂ h₂
      refine ⟨?_, ?_⟩
      · intro y hy k hk
        rcases List.mem_cons.mp hy with rfl | hy
        · rw [h₂.frame k (fun z hz hzk => hnot (objCell_unique hk hzk ▸ hz))]
          exact h₁.gone y List.mem_cons_self k hk
        · exact h₂.gone y hy k hk
      · intro k hk
        rw [h₂.frame k (fun z hz => hk z (List.mem_cons_of_mem _ hz)), h₁.frame k]
        intro z hz
        obtain rfl := List.mem_singleton.mp hz
        exact hk z List.mem_cons_self

/-! ## The request -/

/-- `x` and what is below it are erased: their cells are gone, the folder `x` was in does
not list it any more, and nothing else has changed but the counter. -/
structure Erased (user x : Bytes) (s s' : Store Cell Bytes) : Prop where
  gone : ∀ y, Below s x y → ∀ k, ObjCell y k → s' k = none
  unlisted : kids s' (parentOf s x) = (kids s (parentOf s x)).filter (· ≠ x)
  frame : ∀ k, (∀ y, Below s x y → ¬ ObjCell y k) → k ≠ .children (parentOf s x) → k ≠ .usedBytes user →
    s' k = s k

/-- What a delete leaves: the cells of what is fewer than 4097 levels below `x` are gone,
and those of all other objects are what they were. -/
structure Trimmed (user x : Bytes) (s s' : Store Cell Bytes) : Prop where
  gone : ∀ n y, Level s x n y → n ≤ 4096 → ∀ k, ObjCell y k → s' k = none
  unlisted : kids s' (parentOf s x) = (kids s (parentOf s x)).filter (· ≠ x)
  frame : ∀ k, (∀ n y, Level s x n y → n ≤ 4096 → ¬ ObjCell y k) → k ≠ .children (parentOf s x) →
    k ≠ .usedBytes user → s' k = s k

/-- An object that is not the root is in the list of the folder its parent column names. -/
theorem Sound.mem_parent (h : Sound user r s) (hx : Below s r x) (hne : x ≠ r) :
    Below s r (parentOf s x) ∧ x ∈ kids s (parentOf s x) := by
  rcases Tree.below_cases hx with heq | ⟨d, hd, hmem⟩
  · exact absurd heq hne
  · have hparent : parentOf s x = d := by
      rw [parentOf, h.tree.parent x d hx hmem]
      rfl
    rw [hparent]
    exact ⟨hd, hmem⟩

section Collect

variable (h : Sound user r s) (hx : Below s r x) (hmem : x ∈ kids s (parentOf s x))
  (hsource : Below s r (parentOf s x))
include h hx hmem

/-- The folder of an object is not below it. -/
theorem Sound.parent_notMem (n : Nat) : ¬ Level s x n (parentOf s x) :=
  fun hlevel => h.branching.acyclic hx n (.child hlevel hmem)

/-- The list an object is taken out of does not belong to what is below it. -/
theorem Sound.unlist_cells {n : Nat} {y : Bytes} (hlevel : Level s x n y) {k : Cell} (hk : ObjCell y k) :
    Drive.unlist s (parentOf s x) x k = s k := by
  refine Function.update_of_ne ?_ ..
  rintro rfl
  obtain rfl : parentOf s x = y := hk
  exact h.parent_notMem hx hmem n hlevel

include hsource

/-- What is collected is what was below the object before. -/
theorem Sound.run_collectSubtree :
    run (collectSubtree x) (Drive.unlist s (parentOf s x) x) = (nodes s 4097 x, Drive.unlist s (parentOf s x) x) := by
  have hbr := h.branching
  have hnodes : nodes (Drive.unlist s (parentOf s x) x) 4097 x = nodes s 4097 x :=
    nodes_agree (fun d hd => hbr.kids_unlist_below hsource hmem hd)
  have hcollect : run (collectInner 4097 x []) (Drive.unlist s (parentOf s x) x) =
      ([] ++ nodes (Drive.unlist s (parentOf s x) x) 4097 x, Drive.unlist s (parentOf s x) x) := by
    refine run_collectInner ?_ ?_ ?_ (fun _ _ => List.not_mem_nil)
    · rw [hnodes]
      intro y hy htype
      obtain ⟨n, -, hlevel⟩ := mem_nodes.mp hy
      have hcells : ∀ k, ObjCell y k → Drive.unlist s (parentOf s x) x k = s k :=
        fun k hk => h.unlist_cells hx hmem hlevel hk
      rw [typeOf_agree hcells] at htype
      rw [kids_congr (hcells (.children y) rfl)]
      exact hbr.kids_of_type (hx.trans hlevel.toBelow) htype
    · rw [hnodes]
      exact hbr.nodup_nodes hx 4097
    · rw [hnodes]
      exact hbr.nil_notMem_nodes hx 4097
  rw [hnodes, List.nil_append] at hcollect
  exact hcollect

omit hsource

/-- What is left when the cells of what was collected are gone. -/
theorem Sound.trimmed (hc : Cleared (nodes s 4097 x).reverse (Drive.unlist s (parentOf s x) x) s') :
    Trimmed user x s s' := by
  have hin : ∀ y, y ∈ (nodes s 4097 x).reverse ↔ ∃ n, n ≤ 4096 ∧ Level s x n y := by
    intro y
    rw [List.mem_reverse, mem_nodes]
    simp only [Nat.lt_succ_iff]
  refine ⟨?_, ?_, ?_⟩
  · intro n y hlevel hn k hk
    exact hc.gone y ((hin y).mpr ⟨n, hn, hlevel⟩) k hk
  · rw [← kids_remove_self]
    refine kids_congr (hc.frame _ ?_)
    intro y hy hk
    obtain rfl : parentOf s x = y := hk
    obtain ⟨n, -, hlevel⟩ := (hin _).mp hy
    exact h.parent_notMem hx hmem n hlevel
  · intro k hk hchildren _
    rw [hc.frame k]
    · exact Function.update_of_ne hchildren ..
    · intro y hy
      obtain ⟨n, hn, hlevel⟩ := (hin y).mp hy
      exact hk n y hlevel hn

end Collect

/-- The counter does not matter. -/
theorem Trimmed.usedBytes {s₁ : Store Cell Bytes} (h : Trimmed user x s s₁)
    (hframe : ∀ k, k ≠ .usedBytes user → s' k = s₁ k) : Trimmed user x s s' where
  gone := by
    intro n y hlevel hn k hk
    rw [hframe k (by rintro rfl; exact hk.elim)]
    exact h.gone n y hlevel hn k hk
  unlisted := by
    rw [← h.unlisted]
    exact kids_congr (hframe _ (by simp))
  frame := by
    intro k hk hchildren hused
    rw [hframe k hused]
    exact h.frame k hk hchildren hused

/-- **`handle_delete_path`.** -/
theorem ends_handleDeletePath_trimmed (h : Sound user r s) {path : Bytes} (hres : resolved user path s = some x)
    (hne : x ≠ r) :
    Ends (handleDeletePath user path) (fun ans s' => ans = .ok [] [] ∧ Trimmed user x s s') s := by
  rw [h.resolved_eq] at hres
  have hbelow : Below s r x := (level_of_walkTo hres).toBelow
  obtain ⟨hsource, hmem⟩ := h.mem_parent hbelow hne
  have hpath : ¬ (path = [] ∨ path = [slash]) := by
    intro hpath
    have hparts : pathParts path = [] := by
      rcases hpath with rfl | rfl
      · rfl
      · rfl
    rw [hparts] at hres
    exact hne (Option.some.inj hres).symm
  show Ends (if path = [] ∨ path = [slash] then _ else _) _ s
  rw [if_neg hpath]
  refine ends_probe (Ends.bind ?_)
  rw [Ends, h.run_resolvePath, hres]
  refine Ends.bind ?_
  rw [Ends, run_getStr]
  refine Ends.bind ?_
  rw [Ends, show (((s (.parent x)).getD default, s).1) = parentOf s x from rfl, run_removeChild, if_pos hmem]
  show Ends (collectSubtree x >>= _) _ (Drive.unlist s (parentOf s x) x)
  refine Ends.bind ?_
  rw [Ends, h.run_collectSubtree hbelow hmem hsource]
  have hrows : ∀ y ∈ (nodes s 4097 x).reverse, Rows (Drive.unlist s (parentOf s x) x) y := by
    intro y hy
    obtain ⟨n, -, hlevel⟩ := mem_nodes.mp (List.mem_reverse.mp hy)
    exact (h.rows y (hbelow.trans hlevel.toBelow)).congr (fun k hk => h.unlist_cells hbelow hmem hlevel hk)
  have hnd := List.nodup_reverse.mpr (h.branching.nodup_nodes hbelow 4097)
  refine Ends.bind ((ends_deleteNodes_cleared hnd hrows 0).mono ?_)
  intro freed s₁ hcleared
  have hdone := h.trimmed hbelow hmem hcleared
  show Ends (if freed > 0 then _ else _) _ s₁
  split
  · refine Ends.bind ((ends_onCells (only_updateDriveUsedBytes user _) s₁).mono ?_)
    intro _ s₂ hframe
    exact ⟨rfl, hdone.usedBytes hframe⟩
  · exact ⟨rfl, hdone⟩

/-- If nothing is too deep, all is erased; and if something is, its name is left. -/
theorem Trimmed.erased_iff (hc : Trimmed user x s s') (h : Sound user r s) (hx : Below s r x) (hne : x ≠ r) :
    Erased user x s s' ↔ ∀ n y, Level s x n y → n ≤ 4096 := by
  have hbr := h.branching
  constructor
  · intro he n y hlevel
    by_contra hn
    have hbelow : Below s r y := hx.trans hlevel.toBelow
    have hyr : y ≠ r := by
      rintro rfl
      rcases Tree.below_cases hlevel.toBelow with heq | ⟨d, hd, hmem⟩
      · exact hne heq.symm
      · exact hbr.top d (hx.trans hd) hmem
    obtain ⟨name, hname, -⟩ := h.tree.valid y hbelow hyr
    have hleft : s' (.name y) = s (.name y) := by
      refine hc.frame (.name y) ?_ (by simp) (by simp)
      rintro m z hz hm rfl
      -- an object is on one level only
      obtain ⟨i, hi⟩ := Level.of_below hx
      have := (hi.trans hz).unique hbr (hi.trans hlevel)
      omega
    rw [he.gone y hlevel.toBelow (.name y) rfl, hname] at hleft
    exact absurd hleft (by simp)
  · intro hshallow
    refine ⟨?_, hc.unlisted, ?_⟩
    · intro y hy k hk
      obtain ⟨n, hn⟩ := Level.of_below hy
      exact hc.gone n y hn (hshallow n y hn) k hk
    · intro k hk
      exact hc.frame k (fun n y hlevel _ => hk y hlevel.toBelow)

/-- **A delete is complete and local** exactly if nothing is more than 4096 levels below
the object. -/
theorem erased_handleDeletePath_iff (h : Sound user r s) {path : Bytes} (hres : resolved user path s = some x)
    (hne : x ≠ r) :
    ((run (handleDeletePath user path) s).1 = .ok [] [] ∧ Erased user x s (run (handleDeletePath user path) s).2) ↔
      ∀ n y, Level s x n y → n ≤ 4096 := by
  obtain ⟨hans, hc⟩ := ends_handleDeletePath_trimmed h hres hne
  have hbelow : Below s r x := by
    rw [h.resolved_eq] at hres
    exact (level_of_walkTo hres).toBelow
  rw [← hc.erased_iff h hbelow hne]
  exact and_iff_right hans

/-! ## Folders in folders -/

/-- A uid of so many letters. -/
def link (i : Nat) : Bytes := List.replicate (i + 1) 97

/-- The uids of the root and `n` folders. -/
def IsLink (n : Nat) (x : Bytes) : Prop := x = link (x.length - 1) ∧ x.length - 1 ≤ n

instance (n : Nat) (x : Bytes) : Decidable (IsLink n x) := inferInstanceAs (Decidable (_ ∧ _))

/-- `n` folders of one name, each in the one before. -/
def nested (user : Bytes) (n : Nat) : Store Cell Bytes
  | .root u => if u = user then some (link 0) else none
  | .type x => if IsLink n x then some folder else none
  | .name x => if IsLink n x then some (if x = link 0 then [slash] else deepName) else none
  | .parent x => if IsLink n x then some x.tail else none
  | .owner x => if IsLink n x then some user else none
  | .children x => if IsLink n x then some (if x.length ≤ n then 97 :: x else []) else none
  | _ => none

section Nested

variable {n i : Nat}

theorem length_link (i : Nat) : (link i).length = i + 1 := List.length_replicate ..

theorem isLink_iff : IsLink n x ↔ ∃ i, i ≤ n ∧ x = link i := by
  constructor
  · rintro ⟨hx, hle⟩
    exact ⟨x.length - 1, hle, hx⟩
  · rintro ⟨i, hle, rfl⟩
    rw [IsLink, length_link]
    exact ⟨rfl, hle⟩

theorem link_injective {i j : Nat} (h : link i = link j) : i = j := by
  have := congrArg List.length h
  rw [length_link, length_link] at this
  omega

theorem kids_nested (user : Bytes) (hi : i ≤ n) :
    kids (nested user n) (link i) = if i < n then [link (i + 1)] else [] := by
  have hlink : IsLink n (link i) := isLink_iff.mpr ⟨i, hi, rfl⟩
  have hcell : nested user n (.children (link i)) = some (if i < n then link (i + 1) else []) := by
    show (if IsLink n (link i) then some (if (link i).length ≤ n then 97 :: link i else []) else none) = _
    rw [if_pos hlink, length_link]
    rfl
  rw [kids, hcell, items_some]
  split
  · have hclean : CleanItem (link (i + 1)) := by
      refine ⟨by simp [link], fun hmem => ?_⟩
      exact absurd (List.eq_of_mem_replicate hmem) (by decide)
    have hsplit : splitCsv (joinCsv [link (i + 1)]) = [link (i + 1)] := splitCsv_joinCsv (by simpa using hclean)
    rw [joinCsv, Csv.join, List.intercalate_singleton] at hsplit
    exact hsplit
  · rfl

theorem kids_nested_of_not (user : Bytes) (h : ¬ IsLink n x) : kids (nested user n) x = [] := by
  have hcell : nested user n (.children x) = none := if_neg h
  rw [kids, hcell]
  rfl

theorem mem_kids_nested {d : Bytes} : x ∈ kids (nested user n) d ↔ ∃ i, i < n ∧ d = link i ∧ x = link (i + 1) := by
  by_cases hd : IsLink n d
  · obtain ⟨i, hi, rfl⟩ := isLink_iff.mp hd
    rw [kids_nested user hi]
    constructor
    · intro hx
      split at hx
      · rename_i hlt
        exact ⟨i, hlt, rfl, List.mem_singleton.mp hx⟩
      · exact absurd hx List.not_mem_nil
    · rintro ⟨j, hj, heq, rfl⟩
      obtain rfl := link_injective heq
      rw [if_pos hj]
      exact List.mem_cons_self
  · rw [kids_nested_of_not user hd]
    constructor
    · intro hx
      exact absurd hx List.not_mem_nil
    · rintro ⟨i, hi, rfl, -⟩
      exact absurd (isLink_iff.mpr ⟨i, by omega, rfl⟩) hd

theorem level_nested {k : Nat} : Level (nested user n) (link i) k x ↔ x = link (i + k) ∧ (k = 0 ∨ i + k ≤ n) := by
  constructor
  · intro h
    induction h with
    | self => exact ⟨rfl, .inl rfl⟩
    | child _ hx ih =>
        obtain ⟨j, hj, hd, rfl⟩ := mem_kids_nested.mp hx
        rw [hd] at ih
        obtain rfl := link_injective ih.1
        exact ⟨rfl, .inr hj⟩
  · rintro ⟨rfl, hk⟩
    induction k with
    | zero => exact .self
    | succ k ih => exact .child (ih (by omega)) (mem_kids_nested.mpr ⟨i + k, by omega, rfl, rfl⟩)

theorem below_nested : Below (nested user n) (link 0) x ↔ ∃ i, i ≤ n ∧ x = link i := by
  rw [below_iff_level]
  constructor
  · rintro ⟨k, hk⟩
    obtain ⟨rfl, hle⟩ := level_nested.mp hk
    exact ⟨0 + k, by omega, rfl⟩
  · rintro ⟨i, hi, rfl⟩
    refine ⟨i, level_nested.mpr ⟨?_, ?_⟩⟩
    · rw [Nat.zero_add]
    · omega

theorem parentOf_nested (hi : i ≤ n) : parentOf (nested user n) (link i) = (link i).tail := by
  have hlink : IsLink n (link i) := isLink_iff.mpr ⟨i, hi, rfl⟩
  have hcell : nested user n (.parent (link i)) = some (link i).tail := if_pos hlink
  rw [parentOf, hcell]
  rfl

theorem iterate_nested (user : Bytes) {m : Nat} (hi : i + m ≤ n) :
    (parentOf (nested user n))^[m] (link (i + m)) = link i := by
  induction m with
  | zero => rfl
  | succ m ih =>
      rw [Function.iterate_succ_apply, ← Nat.add_assoc, parentOf_nested (by omega)]
      exact ih (by omega)

/-- Up to the root and beyond. -/
theorem length_iterate_nested (user : Bytes) (hi : i ≤ n) (m : Nat) :
    ((parentOf (nested user n))^[m] (link i)).length = i + 1 - m := by
  have hnil : parentOf (nested user n) [] = [] := by
    have hnot : ¬ IsLink n [] := by
      rintro ⟨h, -⟩
      exact absurd h (by decide)
    show (if IsLink n [] then some [] else none : Option Bytes).getD [] = []
    rw [if_neg hnot]
    rfl
  induction m generalizing i with
  | zero => exact length_link i
  | succ m ih =>
      rw [Function.iterate_succ_apply, parentOf_nested hi]
      cases i with
      | zero =>
          show ((parentOf (nested user n))^[m] []).length = _
          rw [Function.iterate_fixed hnil]
          simp
      | succ i =>
          show ((parentOf (nested user n))^[m] (link i)).length = _
          rw [ih (by omega)]
          omega

theorem sound_nested (user : Bytes) (n : Nat) : Sound user (link 0) (nested user n) := by
  have hcell : ∀ {i}, i ≤ n → IsLink n (link i) := fun hi => isLink_iff.mpr ⟨_, hi, rfl⟩
  have htype : ∀ {i}, i ≤ n → nested user n (.type (link i)) = some folder := fun hi => if_pos (hcell hi)
  refine { root := if_pos rfl, root_ne := by decide, root_folder := htype (Nat.zero_le n),
           root_children := ?_, tree := ?_, rows := ?_ }
  · show (if IsLink n (link 0) then some (if (link 0).length ≤ n then 97 :: link 0 else []) else none) ≠ none
    rw [if_pos (hcell (Nat.zero_le n))]
    exact Option.some_ne_none _
  · refine { once := ?_, parent := ?_, up := ?_, acyclic := ?_, folders := ?_, valid := ?_, names := ?_ }
    · intro x hx hne
      obtain ⟨i, hi, rfl⟩ := below_nested.mp hx
      cases i with
      | zero => exact absurd rfl hne
      | succ i =>
          refine ⟨link i, below_nested.mpr ⟨i, by omega, rfl⟩, ?_, ?_⟩
          · rw [kids_nested user (by omega), if_pos (by omega)]
            exact List.count_singleton_self
          · intro d hd
            obtain ⟨j, -, rfl, heq⟩ := mem_kids_nested.mp hd
            have := link_injective heq
            rw [show j = i by omega]
    · intro x d _ hmem
      obtain ⟨i, hi, rfl, rfl⟩ := mem_kids_nested.mp hmem
      exact if_pos (hcell (by omega))
    · intro x hx
      obtain ⟨i, hi, rfl⟩ := below_nested.mp hx
      have h := iterate_nested user (i := 0) (m := i) (n := n) (by omega)
      rw [Nat.zero_add] at h
      exact ⟨i, h⟩
    · intro x hx m hm heq
      obtain ⟨i, hi, rfl⟩ := below_nested.mp hx
      have h := length_iterate_nested user hi m
      rw [heq, length_link] at h
      omega
    · intro d hd _
      obtain ⟨i, hi, rfl⟩ := below_nested.mp hd
      exact htype hi
    · intro x hx hne
      obtain ⟨i, hi, rfl⟩ := below_nested.mp hx
      refine ⟨deepName, ?_, by decide⟩
      show (if IsLink n (link i) then some (if link i = link 0 then [slash] else deepName) else none) = _
      rw [if_pos (hcell hi), if_neg hne]
    · intro d x y _ hx hy _
      obtain ⟨i, -, rfl, rfl⟩ := mem_kids_nested.mp hx
      obtain ⟨j, -, heq, rfl⟩ := mem_kids_nested.mp hy
      rw [link_injective heq]
  · intro x hx
    obtain ⟨i, hi, rfl⟩ := below_nested.mp hx
    refine ⟨?_, ?_⟩
    · intro _ k hk
      cases k with
      | bytes y => rfl
      | chunks y => rfl
      | chunk y j => rfl
      | _ => exact hk.elim
    · intro hne
      refine absurd ?_ hne
      rw [typeOf, htype hi]
      rfl

/-- The innermost of the `n` is a file in three chunks. -/
def withFile (user : Bytes) (n : Nat) : Store Cell Bytes
  | .type x => if x = link n then some file else nested user n (.type x)
  | .children x => if x = link n then none else nested user n (.children x)
  | .size x => if x = link n then some (Decimal.text 7) else none
  | .chunks x => if x = link n then some (Decimal.text 3) else none
  | .chunk x i => if x = link n ∧ i < 3 then some deepName else none
  | k => nested user n k

theorem kids_withFile (user : Bytes) (n : Nat) (d : Bytes) : kids (withFile user n) d = kids (nested user n) d := by
  by_cases hd : d = link n
  · have hcell : withFile user n (.children d) = none := if_pos hd
    rw [hd, kids_nested user (Nat.le_refl n), if_neg (Nat.lt_irrefl n), ← hd, kids, hcell]
    rfl
  · exact kids_congr (if_neg hd)

/-- Nobody is in a list that was empty, so the tree is the same. -/
theorem sound_withFile (user : Bytes) (hn : 0 < n) : Sound user (link 0) (withFile user n) := by
  have h := sound_nested user n
  have hne : link 0 ≠ link n := fun heq => absurd (link_injective heq) (by omega)
  have hbelow : ∀ {y}, Below (withFile user n) (link 0) y → Below (nested user n) (link 0) y :=
    fun hy => (below_agree (fun d _ => kids_withFile user n d)).mp hy
  have hbelow' : ∀ {y}, Below (nested user n) (link 0) y → Below (withFile user n) (link 0) y :=
    fun hy => (below_agree (fun d _ => kids_withFile user n d)).mpr hy
  refine { root := h.root, root_ne := h.root_ne, root_folder := (if_neg hne).trans h.root_folder,
           root_children := ?_, tree := ?_, rows := ?_ }
  · have hcell : withFile user n (.children (link 0)) = nested user n (.children (link 0)) := if_neg hne
    rw [hcell]
    exact h.root_children
  · refine { once := ?_, parent := ?_, up := ?_, acyclic := ?_, folders := ?_, valid := ?_, names := ?_ }
    · intro x hx hxr
      obtain ⟨d, hd, hcount, huniq⟩ := h.tree.once x (hbelow hx) hxr
      refine ⟨d, hbelow' hd, (kids_withFile user n d).symm ▸ hcount, fun d' hd' => huniq d' ?_⟩
      rw [← kids_withFile]
      exact hd'
    · intro x d hx hmem
      rw [kids_withFile] at hmem
      exact h.tree.parent x d (hbelow hx) hmem
    · exact fun x hx => h.tree.up x (hbelow hx)
    · exact fun x hx => h.tree.acyclic x (hbelow hx)
    · intro d hd hkids
      rw [kids_withFile] at hkids
      have hlast : d ≠ link n := by
        rintro rfl
        rw [kids_nested user (Nat.le_refl n), if_neg (Nat.lt_irrefl n)] at hkids
        exact hkids rfl
      exact (if_neg hlast).trans (h.tree.folders d (hbelow hd) hkids)
    · exact fun x hx => h.tree.valid x (hbelow hx)
    · intro d x y hd hx hy
      rw [kids_withFile] at hx hy
      exact h.tree.names d x y (hbelow hd) hx hy
  · intro x hx
    by_cases hlast : x = link n
    · -- the file
      have htype : typeOf (withFile user n) x ≠ folder := by
        rw [typeOf, show withFile user n (.type x) = some file from if_pos hlast]
        decide
      have hchunks : withFile user n (.chunks x) = some (Decimal.text 3) := if_pos hlast
      refine ⟨fun hfolder => absurd hfolder htype, fun _ => ⟨if_pos hlast, ?_, ?_⟩⟩
      · rw [hchunks]
        decide
      · intro i hi
        have hlt : i < 3 := by
          by_contra hge
          exact hi (if_neg (fun hand => hge hand.2))
        exact ⟨3, by rw [hchunks]; decide, hlt⟩
    · -- a folder
      refine ⟨fun _ k hk => ?_, fun hfile => ?_⟩
      · cases k with
        | bytes y => rfl
        | chunks y => exact if_neg (fun heq => hlast (hk.symm.trans heq))
        | chunk y j => exact if_neg (fun hand => hlast (hk.symm.trans hand.1))
        | _ => exact hk.elim
      · have htype : typeOf (withFile user n) x = typeOf (nested user n) x := typeOf_congr (if_neg hlast)
        obtain ⟨i, hi, rfl⟩ := below_nested.mp (hbelow hx)
        refine absurd ?_ hfile
        rw [htype, typeOf, show nested user n (.type (link i)) = some folder from
          if_pos (isLink_iff.mpr ⟨i, hi, rfl⟩)]
        rfl

theorem nameOf_nested (user : Bytes) (hn : 0 < n) : nameOf (nested user n) (link 1) = deepName := by
  have hcell : nested user n (.name (link 1)) = some deepName := by
    show (if IsLink n (link 1) then some (if link 1 = link 0 then [slash] else deepName) else none) = _
    rw [if_pos (isLink_iff.mpr ⟨1, hn, rfl⟩)]
    rfl
  rw [nameOf, hcell]
  rfl

/-- The outermost folder. -/
theorem resolved_of_kids (user : Bytes) (hn : 0 < n) {s : Store Cell Bytes} (h : Sound user (link 0) s)
    (hkids : kids s (link 0) = kids (nested user n) (link 0))
    (hname : nameOf s (link 1) = nameOf (nested user n) (link 1)) : resolved user deepName s = some (link 1) := by
  have hparts : pathParts deepName = [deepName] := by decide
  rw [h.resolved_eq, hparts, walkTo, hkids, kids_nested user (Nat.zero_le n), if_pos hn]
  rw [List.find?_cons_of_pos (by rw [hname, nameOf_nested user hn]; exact decide_eq_true rfl)]
  rfl

theorem resolved_nested (user : Bytes) (hn : 0 < n) : resolved user deepName (nested user n) = some (link 1) :=
  resolved_of_kids user hn (sound_nested user n) rfl rfl

end Nested

/-- A folder in a folder, with a file in it. -/
theorem erased_handleDeletePath_iff_withFile :
    withFile deepUser 3 (.chunk (link 3) 2) = some deepName ∧
      (run (handleDeletePath deepUser deepName) (withFile deepUser 3)).1 = .ok [] [] ∧
      Erased deepUser (link 1) (withFile deepUser 3) (run (handleDeletePath deepUser deepName) (withFile deepUser 3)).2 := by
  have h : Sound deepUser (link 0) (withFile deepUser 3) := sound_withFile deepUser (by decide)
  have hres := resolved_of_kids deepUser (by decide : 0 < 3) h (kids_withFile deepUser 3 _) rfl
  refine ⟨by decide, (erased_handleDeletePath_iff h hres (by decide)).mpr ?_⟩
  intro k y hlevel
  rw [Level.agree (fun d _ => kids_withFile deepUser 3 d)] at hlevel
  obtain ⟨-, hk⟩ := level_nested.mp hlevel
  omega

/-- **4098 folders.** The last of them is 4097 levels below the one that is deleted. -/
theorem not_erased_nested : Sound deepUser (link 0) (nested deepUser 4098) ∧
    resolved deepUser deepName (nested deepUser 4098) = some (link 1) ∧
    ¬ ((run (handleDeletePath deepUser deepName) (nested deepUser 4098)).1 = .ok [] [] ∧
      Erased deepUser (link 1) (nested deepUser 4098)
        (run (handleDeletePath deepUser deepName) (nested deepUser 4098)).2) := by
  have h := sound_nested deepUser 4098
  have hres := resolved_nested (n := 4098) deepUser (Nat.succ_pos _)
  have hne : link 1 ≠ link 0 := by decide
  refine ⟨h, hres, ?_⟩
  rintro ⟨-, he⟩
  have hbelow : Below (nested deepUser 4098) (link 0) (link 1) := below_nested.mpr ⟨1, by omega, rfl⟩
  have hc := (ends_handleDeletePath_trimmed h hres hne).2
  have hdeep := (hc.erased_iff h hbelow hne).mp he 4097 (link 4098) (level_nested.mpr ⟨rfl, .inr (by omega)⟩)
  omega

end NCloud.Frontend.Drive
