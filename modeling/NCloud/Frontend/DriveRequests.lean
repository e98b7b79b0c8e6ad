import NCloud.Frontend.DriveTree

/-!
# Requests to Drive, one after another

What each handler does to the tree. Paths may be written in any way; one that is made of
slashes alone comes to the root, and then a rename gives the root a name that nobody
looks at, and a move or a delete finds that the root is in no list.
-/

namespace NCloud.Frontend.Drive

open Process Wire KeyValue

variable {user r : Bytes} {used : Bytes → Prop} {s s' : Store Cell Bytes} {α : Type}

/-- A uid that has not been handed out. -/
structure Fresh (r : Bytes) (used : Bytes → Prop) (uid : Bytes) : Prop where
  clean : CleanItem uid
  unused : ¬ used uid
  ne_root : uid ≠ r

/-- With one more uid handed out. -/
def withUid (used : Bytes → Prop) (uid : Bytes) : Bytes → Prop := fun x => used x ∨ x = uid

/-- One that is handed out and not used. -/
theorem Tree.withUid (h : Tree user r used s) {uid : Bytes} (hf : Fresh r used uid) :
    Tree user r (withUid used uid) s where
  root := h.root
  root_ne := h.root_ne
  root_unused := fun hu => hu.elim h.root_unused (fun heq => hf.ne_root heq.symm)
  nil_unused := fun hu => hu.elim h.nil_unused (fun heq => hf.clean.ne_nil heq.symm)
  root_parent := h.root_parent
  unused := fun x hx hxr => h.unused x (fun hu => hx (.inl hu)) hxr
  listed := fun d x hx => .inl (h.listed d x hx)
  nodup := h.nodup
  unique := h.unique
  parent := h.parent
  folders := h.folders
  valid := h.valid
  names := h.names

/-! ## New objects -/

/-- An object is stored but not listed. -/
structure Stored (user : Bytes) (s s' : Store Cell Bytes) (uid d name : Bytes) : Prop where
  root : s' (.root user) = s (.root user)
  kids_new : kids s' uid = []
  children : ∀ d', d' ≠ uid → s' (.children d') = s (.children d')
  type_other : ∀ x, x ≠ uid → s' (.type x) = s (.type x)
  name_other : ∀ x, x ≠ uid → s' (.name x) = s (.name x)
  parent_other : ∀ x, x ≠ uid → s' (.parent x) = s (.parent x)
  name_new : s' (.name uid) = some name
  parent_new : s' (.parent uid) = some d

/-- What is stored is not listed. -/
theorem Stored.unlisted {uid d name : Bytes} (hst : Stored user s s' uid d name)
    (hu : ∀ d', uid ∉ kids s d') : uid ∉ kids s' d := by
  by_cases hdu : d = uid
  · subst hdu
    rw [hst.kids_new]
    exact List.not_mem_nil
  · rw [kids_congr (hst.children d hdu)]
    exact hu d

/-- **A new object in a folder where nothing has its name.** -/
theorem tree_of_stored (h : Rooted user r used s) {uid d name v : Bytes} (hf : Fresh r used uid)
    (hst : Stored user s s' uid d name) (hd : Below s r d) (htype : s (.type d) = some folder)
    (hvalid : validComponent name = true) (hno : ∀ y ∈ kids s d, nameOf s y ≠ name)
    (hv : splitCsv v = kids s' d ++ [uid]) :
    Tree user r (withUid used uid) (Function.update s' (.children d) (some v)) := by
  have hnew : kids s uid = [] := h.toTree.kids_unused hf.unused hf.ne_root
  have hdu : d ≠ uid := by
    rintro rfl
    rw [(h.unused d hf.unused hf.ne_root).1] at htype
    exact absurd htype (by simp)
  have hkd : kids s' d = kids s d := kids_congr (hst.children d hdu)
  have hlink : Tree.Linked user s (Function.update s' (.children d) (some v)) uid d name := by
    refine { root := hst.root, kids_self := ?_, kids_other := ?_, children := ?_,
             type_other := hst.type_other, name_other := hst.name_other,
             parent_other := hst.parent_other, type_self := ?_, type_new := ?_,
             name_new := hst.name_new, parent_new := hst.parent_new }
    · rw [kids, Function.update_self, ← hkd]
      exact hv
    · intro d' hd'
      have hcell : kids (Function.update s' (.children d) (some v)) d' = kids s' d' :=
        kids_congr (Function.update_of_ne (by simpa using hd') ..)
      rw [hcell]
      by_cases hu : d' = uid
      · subst hu
        rw [hst.kids_new, hnew]
      · exact kids_congr (hst.children d' hu)
    · intro d' hd' hu
      rw [Function.update_of_ne (by simpa using hd')]
      exact hst.children d' hu
    · exact (hst.type_other d hdu).trans htype
    · exact fun hne => absurd hnew hne
  refine h.toTree.link hlink h.root_set ?_ hf.ne_root hf.clean.ne_nil ?_ hvalid hno
  · exact fun d' hx => hf.unused (h.listed d' uid hx)
  · rcases Tree.below_cases hd with rfl | ⟨d', -, hmem⟩
    · exact .inl rfl
    · exact .inr (.inl (h.listed d' d hmem))

/-- A read that only matters if it fails. -/
theorem ends_known {k : Cell} {f : Read Bytes → FeProg α} {Q : α → Store Cell Bytes → Prop}
    (hf : ∀ v, f (.found v) = f .notFound) (h : Ends (f .notFound) Q s) : Ends (getStatus k >>= f) Q s := by
  refine Ends.bind ?_
  rw [Ends, run_getStatus]
  cases hk : s k with
  | none => exact h
  | some v =>
      show Ends (f (.found v)) Q s
      rw [hf]
      exact h

/-- One of two ways to read something. -/
theorem ends_ite_bind {β : Type} {c : Prop} [Decidable c] {p q : FeProg β} {f : β → FeProg α}
    {Q : α → Store Cell Bytes → Prop} (hp : Ends p (fun _ s' => s' = s) s)
    (hq : Ends q (fun _ s' => s' = s) s) (hf : ∀ b, Ends (f b) Q s) :
    Ends (if c then p >>= f else q >>= f) Q s := by
  split
  · refine Ends.bind (hp.mono ?_)
    rintro b _ rfl
    exact hf b
  · refine Ends.bind (hq.mono ?_)
    rintro b _ rfl
    exact hf b

theorem ends_probe {p : FeProg Answer} {Q : Answer → Store Cell Bytes → Prop} (h : Ends p Q s) :
    Ends (probe user p) Q s :=
  ends_known (fun _ => rfl) h

/-- What `child_name_exists` leaves behind. -/
theorem ends_childNameExists (d wanted skip : Bytes) (s : Store Cell Bytes) :
    Ends (childNameExists d wanted skip) (fun b s' => s' = s ∧ (b = false →
      ∀ c ∈ kids s d, skip = [] ∨ c ≠ skip → nameOf s c ≠ wanted)) s := by
  refine ⟨by rw [run_childNameExists], ?_⟩
  intro hb c hc hskip
  exact noName_of_childNameExists hb hc hskip

/-- A write, and then the rest. -/
theorem ends_put {β : Type} {k : Cell} {v : Bytes} {f : Bool → FeProg β}
    {Q : β → Store Cell Bytes → Prop} (h : Ends (f true) Q (Function.update s k (some v))) :
    Ends (put k v >>= f) Q s :=
  h

/-- The cells a new folder is stored in. -/
def folderCells (user d name uid : Bytes) : List (Cell × Bytes) :=
  [(.type uid, folder), (.name uid, name), (.parent uid, d), (.owner uid, user), (.children uid, [])]

theorem stored_folder (user d name uid : Bytes) (s : Store Cell Bytes) :
    Stored user s (written s (folderCells user d name uid)) uid d name where
  root := by simp [written, folderCells, Function.update]
  kids_new := by simp [kids, written, folderCells, Function.update]
  children := fun d' hd' => by simp [written, folderCells, Function.update, hd']
  type_other := fun x hx => by simp [written, folderCells, Function.update, hx]
  name_other := fun x hx => by simp [written, folderCells, Function.update, hx]
  parent_other := fun x hx => by simp [written, folderCells, Function.update, hx]
  name_new := by simp [written, folderCells, Function.update]
  parent_new := by simp [written, folderCells, Function.update]

/-- **`handle_mkdir`.** -/
theorem ends_handleMkdir (h : Tree user r used s) (path name : Bytes) {uid : Bytes} (hf : Fresh r used uid) :
    Ends (handleMkdir user path name uid) (fun _ s' => Tree user r (withUid used uid) s') s := by
  show Ends (if (!validComponent name) = true then _ else _) _ s
  split
  · exact h.withUid hf
  · rename_i hvalid
    have hvalid : validComponent name = true := by simpa using hvalid
    refine ends_probe (Ends.bind ((ends_resolvePath h _).mono ?_))
    rintro o s₁ ⟨hopen, hres⟩
    have hsame : Tree user r (withUid used uid) s₁ := hopen.rooted.toTree.withUid hf
    cases o with
    | none => exact hsame
    | some q =>
        obtain ⟨d, type⟩ := q
        show Ends (if type ≠ folder then _ else _) _ s₁
        split
        · exact hsame
        · rename_i htype
          have htype : type = folder := not_not.mp htype
          refine Ends.bind ((ends_childNameExists d name [] s₁).mono ?_)
          rintro b s₂ ⟨hs, hno⟩
          obtain rfl : s₁ = s₂ := hs.symm
          cases b with
          | true => exact hsame
          | false =>
              have hd := hres d type rfl
              have hstored := stored_folder user d name uid s₁
              have hunlisted := hstored.unlisted (fun d' hx => hf.unused (hopen.rooted.listed d' uid hx))
              refine ends_put (ends_put (ends_put (ends_put (ends_put ?_))))
              refine Ends.bind ((ends_appendChild hf.clean hunlisted).mono ?_)
              rintro _ _ ⟨rfl, v, rfl, hv⟩
              exact tree_of_stored hopen.rooted hf hstored hd.below (hd.folder htype) hvalid
                (fun c hc => hno rfl c hc (.inl rfl)) hv

/-! ## Files -/

theorem ends_putChunks (uid : Bytes) (i : Nat) (l : List Bytes) (s : Store Cell Bytes) :
    Ends (putChunks uid i l) (fun ok _ => ok = true) s := by
  induction l generalizing i s with
  | nil => rfl
  | cons chunk l ih => exact ends_put (ih (i + 1) _)

/-- `put_file_chunks`. -/
theorem ends_putFileChunks (uid data : Bytes) (s : Store Cell Bytes) :
    Ends (putFileChunks uid data) (fun ok s' => ok = true ∧ ∀ k, ¬ Tree.Aside k → s' k = s k) s := by
  refine Ends.and ?_ (ends_aside (only_aside aside_of_contents (only_putFileChunks uid data)) s)
  rw [putFileChunks]
  refine ends_put ?_
  rw [if_neg (by simp)]
  exact ends_putChunks uid 0 (chunksOf data) _

/-- The cells a new file is stored in, but for its contents. -/
def fileCells (user d uid : Bytes) (part : FilePart) : List (Cell × Bytes) :=
  [(.type uid, file), (.name uid, part.filename), (.parent uid, d), (.owner uid, user),
    (.size uid, Decimal.text part.data.length)]

theorem stored_file {user d uid : Bytes} (part : FilePart) (hkids : kids s uid = [])
    (hcell : ∀ k, ¬ Tree.Aside k → s' k = written s (fileCells user d uid part) k) :
    Stored user s s' uid d part.filename where
  root := by rw [hcell _ id]; simp [written, fileCells, Function.update]
  kids_new := by
    rw [kids, hcell _ id]
    simpa [kids, written, fileCells, Function.update] using hkids
  children := fun d' hd' => by rw [hcell _ id]; simp [written, fileCells, Function.update]
  type_other := fun x hx => by rw [hcell _ id]; simp [written, fileCells, Function.update, hx]
  name_other := fun x hx => by rw [hcell _ id]; simp [written, fileCells, Function.update, hx]
  parent_other := fun x hx => by rw [hcell _ id]; simp [written, fileCells, Function.update, hx]
  name_new := by rw [hcell _ id]; simp [written, fileCells, Function.update]
  parent_new := by rw [hcell _ id]; simp [written, fileCells, Function.update]

theorem ends_storeFile (h : Rooted user r used s) {uid d : Bytes} (part : FilePart) (hf : Fresh r used uid)
    (hd : Below s r d) (htype : s (.type d) = some folder) (hvalid : validComponent part.filename = true)
    (hno : ∀ y ∈ kids s d, nameOf s y ≠ part.filename) :
    Ends (storeFile user d uid part) (fun w s' => w.failReason = none ∧ Tree user r (withUid used uid) s') s := by
  refine ends_put (ends_put (ends_put (ends_put (ends_put ?_))))
  refine Ends.bind ((ends_putFileChunks uid part.data _).mono ?_)
  rintro _ s₁ ⟨rfl, hcell⟩
  have hstored : Stored user s s₁ uid d part.filename :=
    stored_file part (h.toTree.kids_unused hf.unused hf.ne_root) hcell
  have hunlisted := hstored.unlisted (fun d' hx => hf.unused (h.listed d' uid hx))
  refine Ends.bind ((ends_appendChild hf.clean hunlisted).mono ?_)
  rintro _ _ ⟨rfl, v, rfl, hv⟩
  exact ⟨rfl, tree_of_stored h hf hstored hd htype hvalid hno hv⟩

/-! ### The quota -/

theorem ends_userDriveUsedBytes (h : Tree user r used s) :
    Ends (userDriveUsedBytes user) (fun _ s' => Tree user r used s') s := by
  refine Ends.bind ((ends_ensureDriveRoot h).mono ?_)
  rintro _ s₁ ⟨rfl, hopen⟩
  refine Ends.bind ((ends_of_gets (only_isGet (only_subtreeBytesInner 4097 r [])) s₁).mono ?_)
  rintro _ _ rfl
  exact hopen.rooted.toTree

/-- The counters are aside. -/
theorem Tree.usedBytes (h : Tree user r used s) (v : Bytes) :
    Tree user r used (Function.update s (.usedBytes user) (some v)) := by
  refine h.aside (fun k hk => Function.update_of_ne ?_ ..)
  rintro rfl
  exact hk trivial

theorem ends_userDriveUsedBytesFast (h : Tree user r used s) :
    Ends (userDriveUsedBytesFast user) (fun _ s' => Tree user r used s') s := by
  refine Ends.bind ?_
  rw [Ends, run_getStr]
  dsimp only
  split
  · exact h
  · refine Ends.bind ((ends_userDriveUsedBytes h).mono ?_)
    intro actual s₁ h₁
    exact ends_put (h₁.usedBytes _)

theorem ends_userDriveUsedBytesReconciled (h : Tree user r used s) :
    Ends (userDriveUsedBytesReconciled user) (fun _ s' => Tree user r used s') s := by
  refine Ends.bind ((ends_userDriveUsedBytes h).mono ?_)
  intro actual s₁ h₁
  refine Ends.bind ?_
  rw [Ends, run_getStr]
  show Ends (if _ then _ else _) _ s₁
  split
  · exact ends_put (h₁.usedBytes _)
  · exact h₁

/-- The quota check may make the root. -/
theorem ends_overQuota (h : Tree user r used s) (size : Nat) :
    Ends (overQuota user size) (fun _ s' => Tree user r used s') s := by
  refine Ends.bind ((ends_userDriveUsedBytesFast h).mono ?_)
  intro used₁ s₁ h₁
  refine Ends.bind ?_
  have hquota : run (userDriveQuotaBytes user) s₁ = ((run (userDriveQuotaBytes user) s₁).1, s₁) := by
    rw [userDriveQuotaBytes, run_bind, run_getStr]
    rfl
  rw [Ends, hquota]
  show Ends (if _ then _ else _) _ s₁
  split
  · refine Ends.bind ((ends_userDriveUsedBytesReconciled h₁).mono ?_)
    intro used₂ s₂ h₂
    show Ends (if _ then _ else _) _ s₂
    split <;> exact h₂
  · show Ends (if _ then _ else _) _ s₁
    split <;> exact h₁

/-- **`handle_upload`.** -/
theorem ends_handleUpload (h : Tree user r used s) (path : Bytes) (part : Option FilePart) {uid : Bytes}
    (hf : Fresh r used uid) :
    Ends (handleUpload user path part uid) (fun _ s' => Tree user r (withUid used uid) s') s := by
  cases part with
  | none => exact h.withUid hf
  | some part =>
      show Ends (if part.filename = [] then _ else _) _ s
      split
      · exact h.withUid hf
      · show Ends (if part.data.length > maxDriveFileBytes then _ else _) _ s
        split
        · exact h.withUid hf
        · refine Ends.bind ((ends_overQuota h _).mono ?_)
          intro excess s₀ h₀
          cases excess with
          | some excess => exact h₀.withUid hf
          | none =>
              refine ends_probe (Ends.bind ((ends_resolvePath h₀ _).mono ?_))
              rintro o s₁ ⟨hopen, hres⟩
              have hsame : Tree user r (withUid used uid) s₁ := hopen.rooted.toTree.withUid hf
              cases o with
              | none => exact hsame
              | some q =>
                  obtain ⟨d, type⟩ := q
                  show Ends (if type ≠ folder then _ else _) _ s₁
                  split
                  · exact hsame
                  · rename_i htype
                    have htype : type = folder := not_not.mp htype
                    show Ends (if (!validComponent part.filename) = true then _ else _) _ s₁
                    split
                    · exact hsame
                    · rename_i hvalid
                      have hvalid : validComponent part.filename = true := by simpa using hvalid
                      refine Ends.bind ((ends_childNameExists d part.filename [] s₁).mono ?_)
                      rintro b s₂ ⟨hs, hno⟩
                      obtain rfl : s₁ = s₂ := hs.symm
                      cases b with
                      | true => exact hsame
                      | false =>
                          have hd := hres d type rfl
                          refine Ends.bind ((ends_storeFile hopen.rooted part hf hd.below (hd.folder htype)
                            hvalid (fun c hc => hno rfl c hc (.inl rfl))).mono ?_)
                          rintro ⟨_, _, _, _, _, _, reason⟩ s₃ ⟨hreason, h₃⟩
                          obtain rfl : reason = none := hreason
                          refine Ends.bind ((ends_aside (only_aside aside_of_usedBytes
                            (only_updateDriveUsedBytes user _)) s₃).mono ?_)
                          intro _ s₄ hcell
                          exact h₃.aside hcell

/-! ## Renaming and moving -/

/-- **`handle_rename`.** -/
theorem ends_handleRename (h : Tree user r used s) (path newName : Bytes) :
    Ends (handleRename user path newName) (fun _ s' => Tree user r used s') s := by
  show Ends (if (!validComponent newName) = true ∨ path = [] ∨ path = [slash] then _ else _) _ s
  split
  · exact h
  · rename_i hbad
    have hvalid : validComponent newName = true := by
      rw [not_or] at hbad
      simpa using hbad.1
    refine ends_probe (Ends.bind ((ends_resolvePath h _).mono ?_))
    rintro o s₁ ⟨hopen, hres⟩
    cases o with
    | none => exact hopen.rooted.toTree
    | some q =>
        obtain ⟨uid, type⟩ := q
        refine Ends.bind ?_
        rw [Ends, run_getStr]
        refine Ends.bind ((ends_childNameExists (parentOf s₁ uid) newName uid s₁).mono ?_)
        rintro b s₂ ⟨hs, hno⟩
        obtain rfl : s₁ = s₂ := hs.symm
        cases b with
        | true => exact hopen.rooted.toTree
        | false =>
            refine ends_put (hopen.rooted.toTree.rename hvalid ?_)
            intro d hd y hy hne
            -- the parent column names the folder that lists the object
            rw [← hopen.rooted.toTree.parentOf_of_mem hd] at hy
            exact hno rfl y hy (.inr hne)

/-- The store when an object has been taken out of a list. -/
def unlist (s : Store Cell Bytes) (d uid : Bytes) : Store Cell Bytes :=
  Function.update s (.children d) (some (joinCsv ((kids s d).filter (· ≠ uid))))

theorem kids_unlist (s : Store Cell Bytes) (d uid d' : Bytes) :
    kids (unlist s d uid) d' = if d' = d then (kids s d).filter (· ≠ uid) else kids s d' := by
  split
  · rename_i hd
    rw [hd, unlist, kids_remove_self]
  · rename_i hd
    exact kids_congr (Function.update_of_ne (by simpa using hd) ..)

theorem ends_removeChild {d x : Bytes} {requirePresent : Bool} {Q : Bool → Store Cell Bytes → Prop}
    (hin : x ∈ kids s d → Q true (unlist s d x)) (hout : x ∉ kids s d → Q (!requirePresent) s) :
    Ends (removeChild d x requirePresent) Q s := by
  rw [Ends, run_removeChild]
  by_cases hx : x ∈ kids s d
  · rw [if_pos hx]
    exact hin hx
  · rw [if_neg hx]
    exact hout hx

/-- An object is taken out of the list it is in. -/
theorem Tree.unlist (h : Tree user r used s) {d uid : Bytes} (huid : uid ∈ kids s d) :
    Tree user r used (unlist s d uid) ∧ ∀ d', uid ∉ kids (Drive.unlist s d uid) d' := by
  have hsub : ∀ d', (kids (Drive.unlist s d uid) d').Sublist (kids s d') := by
    intro d'
    rw [kids_unlist]
    split
    · rename_i hd
      rw [hd]
      exact List.filter_sublist
    · exact List.Sublist.refl _
  have hdrop : Tree.Dropped user s (Drive.unlist s d uid) (fun _ => False) := by
    refine ⟨rfl, ?_, hsub, ?_, nofun, fun _ => .inl rfl, fun _ _ => rfl, fun _ => .inl rfl⟩
    · exact fun d' x hx => ⟨(hsub d').subset hx, id⟩
    · intro d' hnone
      have hd : d' ≠ d := by
        rintro rfl
        rw [kids, hnone] at huid
        exact List.not_mem_nil huid
      exact (Function.update_of_ne (by simpa using hd) ..).trans hnone
  refine ⟨h.drop hdrop, ?_⟩
  · intro d' hx
    have hd : d' = d := h.unique d' d uid ((hsub d').subset hx) huid
    rw [kids_unlist, if_pos hd] at hx
    simpa using (List.mem_filter.mp hx).2

/-- An object that has been handed out already. -/
theorem Tree.of_used {uid : Bytes} (h : Tree user r (fun x => used x ∨ x = uid) s) (hu : used uid) :
    Tree user r used s := by
  have hsame : (fun x => used x ∨ x = uid) = used := by
    funext x
    refine propext ⟨?_, .inl⟩
    rintro (hx | rfl)
    · exact hx
    · exact hu
  exact hsame ▸ h

/-- What a move has made sure of. -/
structure Planned (user r : Bytes) (job : MoveJob) (s : Store Cell Bytes) : Prop where
  root : s (.root user) = some r
  target : Below s r job.target
  folder : s (.type job.target) = some folder
  ne : job.source ≠ job.target
  name : ∀ c ∈ kids s job.target, c ≠ job.uid → nameOf s c ≠ nameOf s job.uid

theorem not_planned {ans : Answer} {P : MoveJob → Prop} (job : MoveJob)
    (h : (.error ans : Except Answer MoveJob) = .ok job) : P job := by
  cases h

/-- **The plan of `handle_move`.** -/
theorem ends_planMove (h : Tree user r used s) (srcPath dstPath : Bytes) :
    Ends (planMove user srcPath dstPath) (fun o s' => Tree user r used s' ∧
      ∀ job, o = .ok job → Planned user r job s') s := by
  show Ends (if srcPath = [] ∨ dstPath = [] ∨ srcPath = [slash] then _ else _) _ s
  split
  · exact ⟨h, not_planned⟩
  · refine ends_known (fun _ => rfl) (Ends.bind ((ends_resolvePath h _).mono ?_))
    rintro o s₁ ⟨hopen, hres⟩
    have hsame : Tree user r used s₁ := hopen.rooted.toTree
    cases o with
    | none => exact ⟨hsame, not_planned⟩
    | some q =>
        obtain ⟨uid, type⟩ := q
        refine Ends.bind ((ends_firstFolder hopen.rooted _).mono ?_)
        rintro o s₂ ⟨hopen₂, hres₂⟩
        have hsame : Tree user r used s₂ := hopen₂.rooted.toTree
        cases o with
        | none => exact ⟨hsame, not_planned⟩
        | some q =>
            obtain ⟨resolved, dstUid⟩ := q
            have hdst := hres₂ resolved dstUid rfl
            refine Ends.bind ?_
            rw [Ends, run_getStr]
            refine ends_ite_bind (ends_of_gets (only_descendsLoop uid 4096 [] dstUid) s₂) rfl ?_
            intro below
            cases below with
            | true => exact ⟨hsame, not_planned⟩
            | false =>
                refine Ends.bind ((ends_childNameExists dstUid (nameOf s₂ uid) uid s₂).mono ?_)
                rintro b s₃ ⟨hs, hno⟩
                obtain rfl : s₂ = s₃ := hs.symm
                cases b with
                | true => exact ⟨hsame, not_planned⟩
                | false =>
                    refine Ends.bind ?_
                    rw [Ends, run_getStr]
                    show Ends (if parentOf s₂ uid = dstUid then _ else _) _ s₂
                    split
                    · exact ⟨hsame, not_planned⟩
                    · rename_i hne
                      refine ⟨hsame, ?_⟩
                      rintro job ⟨⟩
                      exact ⟨hopen₂.rooted.root_set, hdst.below, hdst.folder rfl, hne,
                        fun c hc hcu => hno rfl c hc (.inr hcu)⟩

/-- **The writes of `handle_move`.** -/
theorem ends_performMove (h : Tree user r used s) {job : MoveJob}
    (hplan : Planned user r job s) : Ends (performMove job) (fun _ s' => Tree user r used s') s := by
  refine Ends.bind (ends_removeChild (d := job.source) ?_ (fun _ => h))
  intro huid
  obtain ⟨htree, hun⟩ := h.unlist huid
  obtain ⟨name, hname, hvalid⟩ := h.valid job.source job.uid huid
  refine Ends.bind ((ends_appendChild (clean_of_mem_splitCsv huid) (hun job.target)).mono ?_)
  rintro _ _ ⟨rfl, v, rfl, hv⟩
  refine ends_put ?_
  show Tree user r used (Function.update (Function.update (Drive.unlist s job.source job.uid)
    (.children job.target) (some v)) (.parent job.uid) (some job.target))
  have hlink : Tree.Linked user (Drive.unlist s job.source job.uid) (Function.update (Function.update
      (Drive.unlist s job.source job.uid) (.children job.target) (some v)) (.parent job.uid)
      (some job.target)) job.uid job.target name := by
    refine { root := rfl, kids_self := ?_, kids_other := ?_, children := ?_, type_other := fun _ _ => rfl,
             name_other := fun _ _ => rfl, parent_other := ?_, type_self := hplan.folder,
             type_new := fun _ => rfl, name_new := hname, parent_new := Function.update_self .. }
    · rw [← hv, kids, Function.update_of_ne (by simp), Function.update_self]
      rfl
    · intro d' hd'
      exact kids_congr ((Function.update_of_ne (by simp) ..).trans
        (Function.update_of_ne (by simpa using hd') ..))
    · intro d' hd' _
      exact (Function.update_of_ne (by simp) ..).trans (Function.update_of_ne (by simpa using hd') ..)
    · intro x hx
      exact Function.update_of_ne (by simpa using hx) ..
  refine (htree.link hlink hplan.root hun (h.ne_root huid) (h.ne_nil huid) ?_ hvalid ?_).of_used
    (h.listed job.source job.uid huid)
  · rcases Tree.below_cases hplan.target with hr | ⟨d, -, hmem⟩
    · exact .inl hr
    · exact .inr (.inl (h.listed d job.target hmem))
  · intro y hy
    rw [kids_unlist, if_neg (Ne.symm hplan.ne)] at hy
    have hyu : y ≠ job.uid := by
      rintro rfl
      exact hplan.ne (h.unique _ _ _ huid hy)
    have hne := hplan.name y hy hyu
    rw [nameOf, nameOf, hname] at hne
    exact hne

/-- **`handle_move`.** -/
theorem ends_handleMove (h : Tree user r used s) (srcPath dstPath : Bytes) :
    Ends (handleMove user srcPath dstPath) (fun _ s' => Tree user r used s') s := by
  refine Ends.bind ((ends_planMove h srcPath dstPath).mono ?_)
  rintro o s₁ ⟨htree, hplan⟩
  cases o with
  | error ans => exact htree
  | ok job => exact ends_performMove htree (hplan job rfl)

/-! ## Deleting -/

/-- What `collect_subtree` comes to: the object, and what is listed by folders it has
come to before. -/
structure Collected (s : Store Cell Bytes) (uid : Bytes) (out out' : List Bytes) : Prop where
  subset : out ⊆ out'
  from_list : ∀ y ∈ out', y ∈ out ∨ y = uid ∨ ∃ z ∈ out', y ∈ kids s z

theorem ends_collectInner (left : Nat) (uid : Bytes) (out : List Bytes) (s : Store Cell Bytes) :
    Ends (collectInner left uid out) (fun out' s' => s' = s ∧ Collected s uid out out') s := by
  induction left generalizing uid out with
  | zero => exact ⟨rfl, List.Subset.refl _, fun y hy => .inl hy⟩
  | succ left ih =>
      rw [collectInner]
      have hsame : Collected s uid out (out ++ [uid]) :=
        ⟨List.subset_append_left .., fun y hy => by
          rcases List.mem_append.mp hy with hy | hy
          · exact .inl hy
          · exact .inr (.inl (List.mem_singleton.mp hy))⟩
      split
      · exact ⟨rfl, List.Subset.refl _, fun y hy => .inl hy⟩
      · refine Ends.bind ?_
        rw [Ends, run_getStr]
        show Ends (if typeOf s uid ≠ folder then _ else _) _ s
        split
        · exact ⟨rfl, hsame⟩
        · refine Ends.bind ?_
          rw [Ends, run_getStr]
          -- the children one after another, each from what the ones before have left
          have hloop : ∀ (cs : List Bytes) (acc : List Bytes), (∀ c ∈ cs, c ∈ kids s uid) → uid ∈ acc →
              Collected s uid out acc →
              Ends (cs.foldlM (fun out child => collectInner left child out) acc)
                (fun out' s' => s' = s ∧ Collected s uid out out') s := by
            intro cs
            induction cs with
            | nil => exact fun acc _ _ hacc => ⟨rfl, hacc⟩
            | cons c cs ihc =>
                intro acc hcs huid hacc
                rw [List.foldlM_cons]
                refine Ends.bind ((ih c acc).mono ?_)
                rintro acc' s₁ ⟨hs, hstep⟩
                obtain rfl : s = s₁ := hs.symm
                refine ihc acc' (fun c' hc' => hcs c' (List.mem_cons_of_mem _ hc')) (hstep.subset huid) ?_
                refine ⟨fun y hy => hstep.subset (hacc.subset hy), fun y hy => ?_⟩
                rcases hstep.from_list y hy with hy | rfl | hz
                · rcases hacc.from_list y hy with hy | hy | ⟨z, hz, hy⟩
                  · exact .inl hy
                  · exact .inr (.inl hy)
                  · exact .inr (.inr ⟨z, hstep.subset hz, hy⟩)
                · exact .inr (.inr ⟨uid, hstep.subset huid, hcs y List.mem_cons_self⟩)
                · exact .inr (.inr hz)
          exact hloop _ (out ++ [uid]) (fun c hc => hc) (by simp) hsame

/-- The cells of some objects are deleted. -/
structure Wiped (user : Bytes) (s s' : Store Cell Bytes) (nodes : List Bytes) : Prop where
  root : s' (.root user) = s (.root user)
  type : ∀ x, s' (.type x) = if x ∈ nodes then none else s (.type x)
  name : ∀ x, s' (.name x) = if x ∈ nodes then none else s (.name x)
  parent : ∀ x, s' (.parent x) = if x ∈ nodes then none else s (.parent x)
  children : ∀ x, s' (.children x) = if x ∈ nodes ∧ s (.type x) = some folder then none else s (.children x)

theorem Wiped.nil (user : Bytes) (s : Store Cell Bytes) : Wiped user s s [] :=
  ⟨rfl, fun x => by simp, fun x => by simp, fun x => by simp, fun x => by simp⟩

/-- One object, and then others. -/
theorem Wiped.cons {s₁ : Store Cell Bytes} {obj : Bytes} {rest : List Bytes} (h : Wiped user s s₁ [obj])
    (h' : Wiped user s₁ s' rest) : Wiped user s s' (obj :: rest) where
  root := h'.root.trans h.root
  type := fun x => by
    rw [h'.type, h.type]
    simp only [List.mem_cons, List.not_mem_nil, or_false]
    split <;> simp_all
  name := fun x => by
    rw [h'.name, h.name]
    simp only [List.mem_cons, List.not_mem_nil, or_false]
    split <;> simp_all
  parent := fun x => by
    rw [h'.parent, h.parent]
    simp only [List.mem_cons, List.not_mem_nil, or_false]
    split <;> simp_all
  children := fun x => by
    rw [h'.children, h.children, h.type]
    simp only [List.mem_cons, List.not_mem_nil, or_false]
    by_cases hx : x = obj <;> by_cases hr : x ∈ rest <;> by_cases ht : s (.type x) = some folder <;> simp [hx, hr, ht]

theorem ends_delAll (l : List Cell) (s : Store Cell Bytes) :
    Ends (delAll l) (fun _ s' => ∀ k, s' k = if k ∈ l then none else s k) s := by
  induction l generalizing s with
  | nil => exact fun k => (if_neg List.not_mem_nil).symm
  | cons k l ih =>
      refine Ends.bind ?_
      rw [Ends, run_del]
      refine (ih _).mono ?_
      intro _ s' hs' k'
      rw [hs' k']
      by_cases hk : k' = k
      · simp [hk]
      · simp [hk, Function.update]

/-- One turn of the loop. -/
theorem ends_deleteNode (user : Bytes) {f : FeProg α} {Q : α → Store Cell Bytes → Prop} {obj : Bytes}
    (h : ∀ s', Wiped user s s' [obj] → Ends f Q s') :
    Ends (delAll [.type obj, .name obj, .parent obj, .owner obj, .size obj] >>= fun _ =>
      if typeOf s obj = folder then del (.children obj) >>= fun _ => f
      else deleteFileBytes obj >>= fun _ => f) Q s := by
  refine Ends.bind ((ends_delAll _ s).mono ?_)
  intro _ s₁ h₁
  split
  · rename_i hfolder
    have htype := type_of_typeOf hfolder
    refine Ends.bind (h _ ?_)
    rw [run_del]
    refine ⟨?_, ?_, ?_, ?_, ?_⟩
    · simp [Function.update, h₁]
    · intro x
      simp [Function.update, h₁]
    · intro x
      simp [Function.update, h₁]
    · intro x
      simp [Function.update, h₁]
    · intro x
      by_cases hx : x = obj
      · subst hx
        simp [Function.update, htype]
      · simp [Function.update, h₁, hx]
  · rename_i hfolder
    refine Ends.bind ((ends_aside (only_aside aside_of_contents (only_deleteFileBytes obj)) s₁).mono ?_)
    intro _ s₂ h₂
    refine h s₂ ⟨?_, ?_, ?_, ?_, ?_⟩
    · rw [h₂ _ id]
      simp [h₁]
    · intro x
      rw [h₂ _ id]
      simp [h₁]
    · intro x
      rw [h₂ _ id]
      simp [h₁]
    · intro x
      rw [h₂ _ id]
      simp [h₁]
    · intro x
      have hx : ¬ (x ∈ [obj] ∧ s (.type x) = some folder) := by
        rintro ⟨hx, ht⟩
        rw [List.mem_singleton] at hx
        subst hx
        exact hfolder (by rw [typeOf, ht]; rfl)
      rw [h₂ _ id, if_neg hx]
      simp [h₁]

/-- **The loop of `handle_delete_path`.** -/
theorem ends_deleteNodes (user : Bytes) (nodes : List Bytes) (freed : Int) (s : Store Cell Bytes) :
    Ends (deleteNodes nodes freed) (fun _ s' => Wiped user s s' nodes) s := by
  induction nodes generalizing freed s with
  | nil => exact Wiped.nil user s
  | cons obj rest ih =>
      refine Ends.bind ?_
      rw [Ends, run_getStr]
      have hsize : Ends (addSize freed obj) (fun _ s' => s' = s) s := by
        rw [addSize, Ends, run_bind, run_getStr]
        rfl
      refine ends_ite_bind hsize rfl ?_
      intro freed'
      refine ends_deleteNode user ?_
      intro s₁ h₁
      exact (ih freed' s₁).mono (fun _ s' h' => h₁.cons h')

/-- An object in no list is deleted, with all that has been collected below it. -/
theorem Tree.wipe (h : Tree user r used s) {uid : Bytes} {nodes : List Bytes} (hun : ∀ d, uid ∉ kids s d)
    (hfrom : ∀ y ∈ nodes, y = uid ∨ ∃ z ∈ nodes, y ∈ kids s z) (hw : Wiped user s s' nodes) :
    Tree user r used s' := by
  have hlist : ∀ d, (kids s' d = kids s d ∧ d ∉ nodes) ∨ kids s' d = [] := by
    intro d
    rw [kids, hw.children]
    by_cases hd : d ∈ nodes
    · right
      split
      · rfl
      · -- what is not a folder has no list
        rename_i htype
        refine List.eq_nil_iff_forall_not_mem.mpr (fun x hx => ?_)
        exact htype ⟨hd, h.folders d x hx⟩
    · exact .inl ⟨by rw [if_neg (fun hx => hd hx.1)]; rfl, hd⟩
  have hdrop : Tree.Dropped user s s' (· ∈ nodes) := by
    refine ⟨hw.root, ?_, ?_, ?_, ?_, ?_, ?_, ?_⟩
    · intro d x hx
      rcases hlist d with ⟨hd, hnot⟩ | hd
      · rw [hd] at hx
        refine ⟨hx, fun hmem => ?_⟩
        rcases hfrom x hmem with rfl | ⟨z, hz, hxz⟩
        · exact hun d hx
        · exact hnot (h.unique d z x hx hxz ▸ hz)
      · rw [hd] at hx
        exact absurd hx List.not_mem_nil
    · intro d
      rcases hlist d with ⟨hd, -⟩ | hd
      · rw [hd]
      · rw [hd]
        exact List.nil_sublist _
    · intro d hnone
      rw [hw.children]
      split
      · rfl
      · exact hnone
    · intro d hd
      rcases hlist d with ⟨-, hnot⟩ | hnil
      · exact absurd hd hnot
      · exact hnil
    · intro x
      rw [hw.type]
      split
      · rename_i hx
        exact .inr ⟨hx, rfl⟩
      · exact .inl rfl
    · intro x hx
      rw [hw.name, if_neg hx]
    · intro x
      rw [hw.parent]
      split
      · rename_i hx
        exact .inr ⟨hx, rfl⟩
      · exact .inl rfl
  exact h.drop hdrop

/-- **`handle_delete_path`.** -/
theorem ends_handleDeletePath (h : Tree user r used s) (path : Bytes) :
    Ends (handleDeletePath user path) (fun _ s' => Tree user r used s') s := by
  show Ends (if path = [] ∨ path = [slash] then _ else _) _ s
  split
  · exact h
  · refine ends_probe (Ends.bind ((ends_resolvePath h _).mono ?_))
    rintro o s₁ ⟨hopen, hres⟩
    have htree : Tree user r used s₁ := hopen.rooted.toTree
    cases o with
    | none => exact htree
    | some q =>
        obtain ⟨uid, type⟩ := q
        refine Ends.bind ?_
        rw [Ends, run_getStr]
        refine Ends.bind (ends_removeChild (d := parentOf s₁ uid) ?_ (fun _ => htree))
        intro huid
        obtain ⟨hun, hnot⟩ := htree.unlist huid
        refine Ends.bind ((ends_collectInner 4097 uid [] (Drive.unlist s₁ (parentOf s₁ uid) uid)).mono ?_)
        rintro nodes s₂ ⟨rfl, hcol⟩
        refine Ends.bind ((ends_deleteNodes user nodes.reverse 0 _).mono ?_)
        intro freed s₃ hwiped
        have hend : Tree user r used s₃ := by
          refine hun.wipe hnot (fun y hy => ?_) hwiped
          rcases hcol.from_list y (List.mem_reverse.mp hy) with hy | hy | ⟨z, hz, hy⟩
          · exact absurd hy List.not_mem_nil
          · exact .inl hy
          · exact .inr ⟨z, List.mem_reverse.mpr hz, hy⟩
        show Ends (if freed > 0 then _ else _) _ s₃
        split
        · refine Ends.bind ((ends_aside (only_aside aside_of_usedBytes
            (only_updateDriveUsedBytes user _)) s₃).mono ?_)
          intro _ s₄ hcell
          exact hend.aside hcell
        · exact hend

/-! ## Sequences of requests -/

/-- Requests that change the drive; those that make an object come with what
`drive_new_uid` takes from clock and counter. -/
inductive Request where
  | mkdir (path name : Bytes) (ns seq : Nat)
  | upload (path : Bytes) (part : Option FilePart) (ns seq : Nat)
  | rename (path newName : Bytes)
  | move (srcPath dstPath : Bytes)
  | delete (path : Bytes)

namespace Request

/-- The handler. -/
def handle (user : Bytes) : Request → FeProg Answer
  | mkdir path name ns seq => handleMkdir user path name (driveNewUid ns seq)
  | upload path part ns seq => handleUpload user path part (driveNewUid ns seq)
  | rename path newName => handleRename user path newName
  | move srcPath dstPath => handleMove user srcPath dstPath
  | delete path => handleDeletePath user path

/-- The uid it hands out. -/
def uid : Request → Option Bytes
  | mkdir _ _ ns seq => some (driveNewUid ns seq)
  | upload _ _ ns seq => some (driveNewUid ns seq)
  | _ => none

end Request

/-- The store after some requests. -/
def serve (user : Bytes) (reqs : List Request) (s : Store Cell Bytes) : Store Cell Bytes :=
  reqs.foldl (fun s req => (run (req.handle user) s).2) s

/-- Uids have no commas. -/
theorem clean_driveNewUid (ns seq : Nat) : CleanItem (driveNewUid ns seq) where
  ne_nil := by
    rw [driveNewUid, List.append_assoc]
    exact List.append_ne_nil_of_left_ne_nil (Decimal.digits_ne_nil ns ns) _
  notMem := by
    have hdigit : ¬ Decimal.IsDigit comma := by decide
    have hunder : comma ∉ ascii "_" := by decide
    intro hmem
    rcases List.mem_append.mp hmem with hmem | hmem
    · rcases List.mem_append.mp hmem with hmem | hmem
      · exact hdigit (Decimal.isDigit_of_mem_digits hmem)
      · exact hunder hmem
    · exact hdigit (Decimal.isDigit_of_mem_digits hmem)

/-- What has been handed out after a request. -/
def usedAfter (used : Bytes → Prop) (req : Request) : Bytes → Prop := fun x => used x ∨ req.uid = some x

/-- **One request.** -/
theorem ends_handle (h : Tree user r used s) {req : Request}
    (hnew : ∀ uid, req.uid = some uid → ¬ used uid ∧ uid ≠ r) :
    Ends (req.handle user) (fun _ s' => Tree user r (usedAfter used req) s') s := by
  have hnone : req.uid = none → usedAfter used req = used := by
    intro hreq
    funext x
    rw [usedAfter, hreq]
    exact propext ⟨fun hx => hx.resolve_right nofun, .inl⟩
  have hsome : ∀ ns seq, req.uid = some (driveNewUid ns seq) →
      Fresh r used (driveNewUid ns seq) ∧ withUid used (driveNewUid ns seq) = usedAfter used req := by
    intro ns seq hreq
    obtain ⟨hunused, hroot⟩ := hnew _ hreq
    refine ⟨⟨clean_driveNewUid ns seq, hunused, hroot⟩, ?_⟩
    funext x
    rw [usedAfter, hreq, withUid, Option.some.injEq, eq_comm (a := x)]
  cases req with
  | mkdir path name ns seq =>
      obtain ⟨hf, hused⟩ := hsome ns seq rfl
      rw [← hused]
      exact ends_handleMkdir h path name hf
  | upload path part ns seq =>
      obtain ⟨hf, hused⟩ := hsome ns seq rfl
      rw [← hused]
      exact ends_handleUpload h path part hf
  | rename path newName =>
      rw [hnone rfl]
      exact ends_handleRename h path newName
  | move srcPath dstPath =>
      rw [hnone rfl]
      exact ends_handleMove h srcPath dstPath
  | delete path =>
      rw [hnone rfl]
      exact ends_handleDeletePath h path

/-- **Any number of requests.** -/
theorem tree_serve (h : Tree user r used s) {reqs : List Request} (hdistinct : (reqs.filterMap Request.uid).Nodup)
    (hnew : ∀ uid ∈ reqs.filterMap Request.uid, ¬ used uid ∧ uid ≠ r) :
    ∃ used', Tree user r used' (serve user reqs s) := by
  induction reqs generalizing s used with
  | nil => exact ⟨used, h⟩
  | cons req reqs ih =>
      have hmem : ∀ uid, req.uid = some uid → uid ∈ (req :: reqs).filterMap Request.uid :=
        fun uid huid => List.mem_filterMap.mpr ⟨req, List.mem_cons_self, huid⟩
      have hone : Tree user r (usedAfter used req) (run (req.handle user) s).2 :=
        ends_handle h (fun uid huid => hnew uid (hmem uid huid))
      have hrest : ∀ uid ∈ reqs.filterMap Request.uid, uid ∈ (req :: reqs).filterMap Request.uid := by
        intro uid huid
        obtain ⟨req', hreq', huid⟩ := List.mem_filterMap.mp huid
        exact List.mem_filterMap.mpr ⟨req', List.mem_cons_of_mem _ hreq', huid⟩
      refine ih hone ?_ ?_
      · exact (List.Sublist.filterMap _ (List.sublist_cons_self req reqs)).nodup hdistinct
      · intro uid huid
        refine ⟨?_, (hnew uid (hrest uid huid)).2⟩
        rintro (hu | hu)
        · exact (hnew uid (hrest uid huid)).1 hu
        · rw [List.filterMap_cons_some hu] at hdistinct
          exact (List.nodup_cons.mp hdistinct).1 huid

/-- A user without a drive. -/
theorem tree_empty (user : Bytes) : Tree user (newRoot user) (fun _ => False) (fun _ => none) where
  root := .inr ⟨rfl, rfl, rfl⟩
  root_ne := by simp [newRoot, ascii]
  root_unused := id
  nil_unused := id
  root_parent := rfl
  unused := fun _ _ _ => ⟨rfl, rfl, rfl⟩
  listed := nofun
  nodup := fun _ => List.nodup_nil
  unique := nofun
  parent := nofun
  folders := nofun
  valid := nofun
  names := nofun

/-- **Drive stays a tree.** -/
theorem wellFormed_serve (h : Tree user r used s) {reqs : List Request}
    (hdistinct : (reqs.filterMap Request.uid).Nodup)
    (hnew : ∀ uid ∈ reqs.filterMap Request.uid, ¬ used uid ∧ uid ≠ r) (n : Nat) {root : Bytes}
    (hroot : serve user (reqs.take n) s (.root user) = some root) :
    WellFormed (serve user (reqs.take n) s) root := by
  have hsub := List.Sublist.filterMap Request.uid (List.take_sublist n reqs)
  obtain ⟨used', htree⟩ := tree_serve h (hsub.nodup hdistinct) (fun uid huid => hnew uid (hsub.subset huid))
  have hr : root = r := by
    rcases htree.root with hr | ⟨hr, -⟩
    · exact Option.some.inj (hroot.symm.trans hr)
    · rw [hr] at hroot
      exact absurd hroot (by simp)
  rw [hr]
  exact htree.wellFormed

/-- Two folders, one moved into the other by a path with too many slashes, then renamed. -/
def twoFolders : List Request :=
  [.mkdir (ascii "/") (ascii "a") 7 0, .mkdir [] (ascii "b") 7 1, .move (ascii "//a/") (ascii "b"),
    .rename (ascii "/b/a") (ascii "c"), .delete (ascii "b//c")]

theorem wellFormed_serve_twoFolders :
    serve (ascii "u") (twoFolders.take 4) (fun _ => none) (.root (ascii "u")) = some (newRoot (ascii "u")) ∧
      WellFormed (serve (ascii "u") (twoFolders.take 4) (fun _ => none)) (newRoot (ascii "u")) := by
  have hroot : serve (ascii "u") (twoFolders.take 4) (fun _ => none) (.root (ascii "u"))
      = some (newRoot (ascii "u")) := by decide +kernel
  exact ⟨hroot, wellFormed_serve (tree_empty (ascii "u")) (by decide +kernel) (by decide +kernel) 4 hroot⟩

end NCloud.Frontend.Drive
