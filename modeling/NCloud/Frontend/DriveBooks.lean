import NCloud.Frontend.DriveQuota

/-!
# What requests do to the books

A new folder changes nothing, a new file is added to lists and counter, a move takes the
bytes somewhere else, and a delete takes them out. What a delete has unlisted is what it
then collects, since no bytes are too deep, and what it adds up while deleting.
-/

namespace NCloud.Frontend.Drive

open Process Wire KeyValue

variable {user r : Bytes} {used : Bytes → Prop} {s s' : Store Cell Bytes} {T : Nat}

/-! ## An object is listed -/

/-- An object is listed at the end of a folder; nothing is said about its own cells. -/
structure Grown (s s' : Store Cell Bytes) (uid d : Bytes) : Prop where
  kids_self : kids s' d = kids s d ++ [uid]
  kids_other : ∀ d', d' ≠ d → kids s' d' = kids s d'
  type : ∀ x, x ≠ uid → s' (.type x) = s (.type x)
  name : ∀ x, x ≠ uid → s' (.name x) = s (.name x)
  size : ∀ x, x ≠ uid → s' (.size x) = s (.size x)

namespace Grown

variable {uid d : Bytes} {m : Nat}

theorem mem (h : Grown s s' uid d) (d' y : Bytes) : y ∈ kids s' d' ↔ y ∈ kids s d' ∨ (d' = d ∧ y = uid) := by
  by_cases hd : d' = d
  · subst hd
    rw [h.kids_self, List.mem_append, List.mem_singleton, and_iff_right rfl]
  · rw [h.kids_other d' hd]
    exact ⟨.inl, fun hy => hy.resolve_right (fun hc => hd hc.1)⟩

/-- An object without children. -/
theorem level_leaf (hkids : kids s uid = []) {n : Nat} {x : Bytes} (h : Level s uid n x) : n = 0 ∧ x = uid := by
  induction h with
  | self => exact ⟨rfl, rfl⟩
  | child _ hx ih =>
      rw [ih.2, hkids] at hx
      exact absurd hx List.not_mem_nil

theorem below_leaf (hkids : kids s uid = []) {x : Bytes} (h : Below s uid x) : x = uid := by
  obtain ⟨n, hn⟩ := Level.of_below h
  exact (level_leaf hkids hn).2

/-- **A new object.** -/
theorem held (h : Grown s s' uid d) (hbr : Branching r s) (hheld : Held r T s) (hd : Below s r d)
    (hkids : kids s uid = []) (hnew : ¬ Below s r uid) (hsized : typeOf s' uid = file → Sized s' uid) :
    Held r (T + weight s' uid) s' := by
  have hout : ¬ Below s uid d := fun hb => hnew (below_leaf hkids hb ▸ hd)
  have hbelow : ∀ x, Below s' r x ↔ Below s r x ∨ x = uid := by
    intro x
    rw [hbr.below_link h.mem hd hout]
    exact or_congr_right ⟨below_leaf hkids, fun hx => hx ▸ .self⟩
  have hne : ∀ x, Below s r x → x ≠ uid := fun x hx heq => hnew (heq ▸ hx)
  refine ⟨?_, ?_, ?_⟩
  · rw [typeOf_congr (h.type r (hne r .self))]
    exact hheld.top
  · intro x hx ht
    rcases (hbelow x).mp hx with hx | rfl
    · rw [typeOf_congr (h.type x (hne x hx))] at ht
      exact (hheld.sized x hx ht).congr (h.size x (hne x hx))
    · exact hsized ht
  · refine hheld.total.insert hnew (fun x => ?_) (fun x hx _ => sizeOf_congr (h.size x (hne x hx)))
    rw [hbelow x]
    constructor
    · rintro ⟨hx | rfl, ht⟩
      · exact .inl ⟨hx, by rw [← typeOf_congr (h.type x (hne x hx))]; exact ht⟩
      · exact .inr ⟨rfl, ht⟩
    · rintro (⟨hx, ht⟩ | ⟨rfl, ht⟩)
      · exact ⟨.inl hx, by rw [typeOf_congr (h.type x (hne x hx))]; exact ht⟩
      · exact ⟨.inr rfl, ht⟩

theorem shallow (h : Grown s s' uid d) (hbr : Branching r s) (hsh : Shallow r s) (hd : Level s r m d)
    (hkids : kids s uid = []) (hnew : ¬ Below s r uid) (hm : weight s' uid ≠ 0 → m + 1 ≤ 4096) :
    Shallow r s' := by
  have hout : ¬ Below s uid d := fun hb => hnew (below_leaf hkids hb ▸ hd.toBelow)
  intro n x hx hw
  rcases (hbr.level_link h.mem hd hout).mp hx with hx | ⟨j, hj, rfl⟩
  · have hne : x ≠ uid := fun heq => hnew (heq ▸ hx.toBelow)
    rw [weight_congr (h.type x hne) (h.size x hne)] at hw
    exact hsh n x hx hw
  · obtain ⟨rfl, rfl⟩ := level_leaf hkids hj
    exact hm hw

/-- An object that is stored and then listed. -/
theorem of_append {s₁ : Store Cell Bytes} {v : Bytes} (hkids : ∀ d', kids s₁ d' = kids s d')
    (htype : ∀ x, x ≠ uid → s₁ (.type x) = s (.type x)) (hname : ∀ x, x ≠ uid → s₁ (.name x) = s (.name x))
    (hsize : ∀ x, x ≠ uid → s₁ (.size x) = s (.size x)) (hv : splitCsv v = kids s₁ d ++ [uid]) :
    Grown s (Function.update s₁ (.children d) (some v)) uid d where
  kids_self := by
    rw [kids, Function.update_self, ← hkids]
    exact hv
  kids_other := fun d' hd' => by
    have hcell : kids (Function.update s₁ (.children d) (some v)) d' = kids s₁ d' :=
      kids_congr (Function.update_of_ne (by simpa using hd') ..)
    rw [hcell, hkids]
  type := htype
  name := hname
  size := hsize

end Grown

/-! ## Folders -/

/-- Why a path and a name are refused. -/
def Refused (r path name : Bytes) (s s₁ : Store Cell Bytes) : Prop :=
  ∀ d, walkTo s r (pathParts path) = some d →
    typeOf s₁ d ≠ folder ∨ validComponent name = false ∨ kids s d ≠ []

theorem pathParts_default (path : Bytes) :
    pathParts (if path = [] then [slash] else path) = pathParts path := by
  split
  · rename_i h
    rw [h]
    rfl
  · rfl

/-- A folder without children has none with a name. -/
theorem ends_childNameExists_ne (d wanted skip : Bytes) (s : Store Cell Bytes) :
    Ends (childNameExists d wanted skip) (fun b s' => s' = s ∧ (b = true → kids s d ≠ [])) s := by
  rw [Ends, run_childNameExists]
  refine ⟨rfl, fun hb hnil => ?_⟩
  rw [hnil] at hb
  exact absurd hb (by simp)

/-- A new folder in the lists. -/
structure FolderMade (user : Bytes) (s s' : Store Cell Bytes) (uid d name : Bytes) : Prop where
  grown : Grown s s' uid d
  type : s' (.type uid) = some folder
  name : s' (.name uid) = some name
  counters : SameCounters user s s'

theorem folderMade (h : Tree user r used s) {uid d name v : Bytes} (hf : Fresh r used uid)
    (hv : splitCsv v = kids (written s (folderCells user d name uid)) d ++ [uid]) :
    FolderMade user s (Function.update (written s (folderCells user d name uid)) (.children d) (some v))
      uid d name where
  grown := by
    refine .of_append (fun d' => ?_) (stored_folder user d name uid s).type_other
      (stored_folder user d name uid s).name_other (fun x _ => ?_) hv
    · by_cases hd' : d' = uid
      · rw [hd', (stored_folder user d name uid s).kids_new, h.kids_unused hf.unused hf.ne_root]
      · exact kids_congr ((stored_folder user d name uid s).children d' hd')
    · simp [written, folderCells, Function.update]
  type := by simp [written, folderCells, Function.update]
  name := by simp [written, folderCells, Function.update]
  counters := ⟨by simp [written, folderCells, Function.update], by simp [written, folderCells, Function.update]⟩

/-- **`handle_mkdir`** refuses, or makes a folder. -/
theorem ends_handleMkdir_cases (h : Tree user r used s) {path name uid : Bytes} (hf : Fresh r used uid)
    {Q : Store Cell Bytes → Prop} (hinvalid : validComponent name = false → Q s)
    (hrefused : ∀ s₁, Reopened user r used s s₁ → Refused r path name s s₁ → Q s₁)
    (hmade : ∀ s₁ d s₂, Reopened user r used s s₁ → walkTo s r (pathParts path) = some d →
      FolderMade user s₁ s₂ uid d name → Q s₂) :
    Ends (handleMkdir user path name uid) (fun _ s' => Q s') s := by
  show Ends (if (!validComponent name) = true then _ else _) _ s
  split
  · rename_i hbad
    exact hinvalid (by simpa using hbad)
  · refine ends_probe (Ends.bind ((ends_resolvePath_walkTo h _).mono ?_))
    rintro o s₁ ⟨hopen, rfl⟩
    rw [pathParts_default]
    cases hwalk : walkTo s r (pathParts path) with
    | none =>
        refine hrefused s₁ hopen (fun d hd => ?_)
        rw [hwalk] at hd
        exact absurd hd (by simp)
    | some d =>
        have hrefused : (typeOf s₁ d ≠ folder ∨ kids s d ≠ []) → Q s₁ := by
          intro hwhy
          refine hrefused s₁ hopen (fun d' hd => ?_)
          obtain rfl : d = d' := Option.some.inj (hwalk.symm.trans hd)
          exact hwhy.imp_right .inr
        show Ends (if typeOf s₁ d ≠ folder then _ else _) _ s₁
        split
        · rename_i htype
          exact hrefused (.inl htype)
        · refine Ends.bind ((ends_childNameExists_ne d name [] s₁).mono ?_)
          rintro b s₂ ⟨hs, hb⟩
          obtain rfl : s₁ = s₂ := hs.symm
          cases b with
          | true => exact hrefused (.inr (hopen.same d ▸ hb rfl))
          | false =>
              have hstored := stored_folder user d name uid s₁
              have hunlisted := hstored.unlisted (fun d' hx => hf.unused (hopen.rooted.listed d' uid hx))
              refine ends_put (ends_put (ends_put (ends_put (ends_put ?_))))
              refine Ends.bind ((ends_appendChild hf.clean hunlisted).mono ?_)
              rintro _ _ ⟨rfl, v, rfl, hv⟩
              exact hmade s₁ d _ hopen hwalk (folderMade hopen.rooted.toTree hf hv)

/-- A folder has no bytes. -/
theorem FolderMade.weight {uid d name : Bytes} (h : FolderMade user s s' uid d name) : weight s' uid = 0 := by
  refine if_neg ?_
  rw [typeOf, h.type]
  exact (by decide : folder ≠ file)

/-- An unused uid is not in the tree. -/
theorem Tree.notBelow_of_unused (h : Tree user r used s) {uid : Bytes} (hf : Fresh r used uid) :
    ¬ Below s r uid := by
  intro hb
  rcases Tree.below_cases hb with heq | ⟨d, -, hmem⟩
  · exact hf.ne_root heq
  · exact hf.unused (h.listed d uid hmem)

theorem FolderMade.books {uid d name : Bytes} (h : FolderMade user s s' uid d name)
    (htree : Tree user r used s) (hf : Fresh r used uid) (hd : Below s r d) (hb : Books user r T s) :
    Books user r T s' := by
  have hkids : kids s uid = [] := htree.kids_unused hf.unused hf.ne_root
  have hnew := htree.notBelow_of_unused hf
  have hheld := h.grown.held htree.branching hb.toHeld hd hkids hnew (fun ht => by
    rw [typeOf, h.type] at ht
    exact absurd ht (by decide))
  rw [h.weight] at hheld
  obtain ⟨m, hm⟩ := Level.of_below hd
  exact ⟨hheld, h.grown.shallow htree.branching hb.shallow hm hkids hnew (fun hw => absurd h.weight hw),
    hb.counter.congr h.counters, h.counters.limit ▸ hb.fits, h.counters.limit ▸ hb.cap⟩

/-- **A new folder changes nothing in the books.** -/
theorem ends_handleMkdir_books (htree : Tree user r used s) (h : Books user r T s) (path name : Bytes)
    {uid : Bytes} (hf : Fresh r used uid) :
    Ends (handleMkdir user path name uid) (fun _ s' => Books user r T s') s := by
  refine ends_handleMkdir_cases htree hf (fun _ => h) (fun s₁ hopen _ => h.agree hopen.agree hopen.counters) ?_
  intro s₁ d s₂ hopen hwalk hmade
  rw [← hopen.walkTo] at hwalk
  exact hmade.books hopen.rooted.toTree hf (level_of_walkTo hwalk).toBelow
    (h.agree hopen.agree hopen.counters)

/-! ## Files -/

/-- A new file in the lists. -/
structure FileMade (user : Bytes) (s s' : Store Cell Bytes) (uid d : Bytes) (part : FilePart) : Prop where
  grown : Grown s s' uid d
  type : s' (.type uid) = some file
  size : s' (.size uid) = some (Decimal.text part.data.length)
  counters : SameCounters user s s'

theorem ends_storeFile_made (h : Tree user r used s) {uid d : Bytes} (part : FilePart) (hf : Fresh r used uid) :
    Ends (storeFile user d uid part) (fun w s' => w.failReason = none ∧ FileMade user s s' uid d part) s := by
  refine ends_put (ends_put (ends_put (ends_put (ends_put ?_))))
  refine Ends.bind (((ends_putFileChunks uid part.data _).and
    (ends_onCells (only_putFileChunks uid part.data) _)).mono ?_)
  rintro _ s₁ ⟨⟨rfl, hcell⟩, hframe⟩
  have hkids : kids s uid = [] := h.kids_unused hf.unused hf.ne_root
  have hstored : Stored user s s₁ uid d part.filename := stored_file part hkids hcell
  have hunlisted := hstored.unlisted (fun d' hx => hf.unused (h.listed d' uid hx))
  -- cells that are neither contents nor written before
  have hrest : ∀ k, ¬ Contents uid k → s₁ k = written s (fileCells user d uid part) k := hframe
  refine Ends.bind ((ends_appendChild hf.clean hunlisted).mono ?_)
  rintro _ _ ⟨rfl, v, rfl, hv⟩
  refine ⟨rfl, ?_⟩
  show FileMade user s (Function.update s₁ (.children d) (some v)) uid d part
  refine ⟨.of_append (fun d' => ?_) hstored.type_other hstored.name_other (fun x hx => ?_) hv, ?_, ?_, ?_, ?_⟩
  · by_cases hd' : d' = uid
    · rw [hd', hstored.kids_new, hkids]
    · exact kids_congr (hstored.children d' hd')
  · rw [hrest _ id]
    simp [written, fileCells, Function.update, hx]
  · rw [Function.update_of_ne (by simp), hrest _ id]
    simp [written, fileCells, Function.update]
  · rw [Function.update_of_ne (by simp), hrest _ id]
    simp [written, fileCells, Function.update]
  · rw [Function.update_of_ne (by simp), hrest _ id]
    simp [written, fileCells, Function.update]
  · rw [Function.update_of_ne (by simp), hrest _ id]
    simp [written, fileCells, Function.update]

/-- The bytes of a new file. -/
theorem FileMade.weight {uid d : Bytes} {part : FilePart} (h : FileMade user s s' uid d part)
    (hsize : part.data.length ≤ maxDriveFileBytes) : weight s' uid = part.data.length := by
  have htype : typeOf s' uid = file := by
    rw [typeOf, h.type]
    rfl
  rw [Drive.weight, if_pos htype, sizeOf, h.size]
  refine parseSizeOr_text ?_ 0
  simp only [maxDriveFileBytes, mib] at hsize
  omega

theorem FileMade.sized {uid d : Bytes} {part : FilePart} (h : FileMade user s s' uid d part)
    (hsize : part.data.length ≤ maxDriveFileBytes) : Sized s' uid := by
  refine ⟨part.data.length, h.size, ?_⟩
  simp only [maxDriveFileBytes, mib] at hsize
  omega

/-- The file in the books. -/
theorem FileMade.held {uid d : Bytes} {part : FilePart} (h : FileMade user s s' uid d part)
    (htree : Tree user r used s) (hf : Fresh r used uid) (hd : Below s r d) (hheld : Held r T s)
    (hsize : part.data.length ≤ maxDriveFileBytes) : Held r (T + part.data.length) s' := by
  have hnew := h.grown.held htree.branching hheld hd (htree.kids_unused hf.unused hf.ne_root)
    (htree.notBelow_of_unused hf) (fun _ => h.sized hsize)
  rwa [h.weight hsize] at hnew

/-- **`handle_upload`** refuses, or adds a file. -/
theorem ends_handleUpload_cases (htree : Tree user r used s) (h : Books user r T s) {path uid : Bytes}
    {part : FilePart} (hf : Fresh r used uid) {Q : Store Cell Bytes → Prop}
    (hbad : part.filename = [] ∨ maxDriveFileBytes < part.data.length → Q s)
    (hfull : ∀ s₀, Audited user r used T s s₀ → limitOf user s < T + part.data.length → Q s₀)
    (hrefused : ∀ s₀ s₁, Audited user r used T s s₀ → Reopened user r used s₀ s₁ →
      Refused r path part.filename s s₁ → Q s₁)
    (hmade : ∀ s₀ s₁ d s₂, Audited user r used T s s₀ → Reopened user r used s₀ s₁ →
      part.data.length ≤ maxDriveFileBytes → T + part.data.length ≤ limitOf user s →
      walkTo s r (pathParts path) = some d → FileMade user s₁ s₂ uid d part →
      Q (Function.update s₂ (.usedBytes user) (some (Decimal.text (T + part.data.length))))) :
    Ends (handleUpload user path (some part) uid) (fun _ s' => Q s') s := by
  show Ends (if part.filename = [] then _ else _) _ s
  split
  · rename_i hname
    exact hbad (.inl hname)
  · show Ends (if part.data.length > maxDriveFileBytes then _ else _) _ s
    split
    · rename_i hlarge
      exact hbad (.inr hlarge)
    · rename_i hlarge
      have hsize : part.data.length ≤ maxDriveFileBytes := Nat.not_lt.mp hlarge
      refine Ends.bind ((ends_overQuota_books htree h hsize).mono ?_)
      rintro o s₀ ⟨haud, hquota⟩
      cases o with
      | some excess =>
          refine hfull s₀ haud (Nat.not_le.mp (fun hle => ?_))
          exact absurd (hquota.mpr hle) (by simp)
      | none =>
          have hroom := hquota.mp rfl
          refine ends_probe (Ends.bind ((ends_resolvePath_walkTo haud.tree _).mono ?_))
          rintro o s₁ ⟨hopen, rfl⟩
          rw [haud.walk]
          cases hwalk : walkTo s r (pathParts path) with
          | none =>
              refine hrefused s₀ s₁ haud hopen (fun d hd => ?_)
              rw [hwalk] at hd
              exact absurd hd (by simp)
          | some d =>
              have hrefused : (typeOf s₁ d ≠ folder ∨ validComponent part.filename = false ∨ kids s d ≠ []) →
                  Q s₁ := by
                intro hwhy
                refine hrefused s₀ s₁ haud hopen (fun d' hd => ?_)
                obtain rfl : d = d' := Option.some.inj (hwalk.symm.trans hd)
                exact hwhy
              show Ends (if typeOf s₁ d ≠ folder then _ else _) _ s₁
              split
              · rename_i htype
                exact hrefused (.inl htype)
              · show Ends (if (!validComponent part.filename) = true then _ else _) _ s₁
                split
                · rename_i hvalid
                  exact hrefused (.inr (.inl (by simpa using hvalid)))
                · refine Ends.bind ((ends_childNameExists_ne d part.filename [] s₁).mono ?_)
                  rintro b s₂ ⟨hs, hb⟩
                  obtain rfl : s₁ = s₂ := hs.symm
                  cases b with
                  | true => exact hrefused (.inr (.inr (haud.kids d ▸ hopen.same d ▸ hb rfl)))
                  | false =>
                      refine Ends.bind ((ends_storeFile_made hopen.rooted.toTree part hf).mono ?_)
                      rintro ⟨_, _, _, _, _, _, reason⟩ s₃ ⟨hreason, hstored⟩
                      obtain rfl : reason = none := hreason
                      have hcount : s₃ (.usedBytes user) = some (Decimal.text T) :=
                        hstored.counters.used.trans (hopen.counters.used.trans haud.counter)
                      refine Ends.bind ?_
                      have hlen : int64 (part.data.length : Int) = part.data.length := by
                        simp only [maxDriveFileBytes, mib] at hsize
                        exact int64_eq (by omega) (by omega)
                      have hT := h.small
                      simp only [maxDriveFileBytes, defaultDriveQuotaBytes, mib] at hsize hT
                      rw [Ends, hlen, run_updateDriveUsedBytes hcount (by omega) (by omega) (by omega)]
                      exact hmade s₀ s₁ d s₃ haud hopen (Nat.not_lt.mp hlarge) hroom hwalk hstored

/-- **A new file is added**, if it is not put too deep. -/
theorem ends_handleUpload_books (htree : Tree user r used s) (h : Books user r T s) (path : Bytes)
    (part : Option FilePart) {uid : Bytes} (hf : Fresh r used uid)
    (hdeep : ∀ p d, part = some p → p.data ≠ [] → walkTo s r (pathParts path) = some d →
      (pathParts path).length < 4096) :
    Ends (handleUpload user path part uid) (fun _ s' => ∃ T', Books user r T' s') s := by
  cases part with
  | none => exact ⟨T, h⟩
  | some part =>
      refine ends_handleUpload_cases htree h hf (fun _ => ⟨T, h⟩) (fun s₀ haud _ => ⟨T, haud.books⟩)
        (fun s₀ s₁ haud hopen _ => ⟨T, haud.books.agree hopen.agree hopen.counters⟩) ?_
      intro s₀ s₁ d s₂ haud hopen hsize hroom hwalk hmade
      have hbooks : Books user r T s₁ := haud.books.agree hopen.agree hopen.counters
      have hlevel : Level s₁ r (pathParts path).length d :=
        level_of_walkTo ((hopen.walkTo r _).trans ((haud.walk _).trans hwalk))
      have htree₁ : Tree user r used s₁ := hopen.rooted.toTree
      have hlimit : limitOf user s₂ = limitOf user s :=
        hmade.counters.limit.trans (hopen.counters.limit.trans haud.limit)
      refine ⟨T + part.data.length, (hmade.held htree₁ hf hlevel.toBelow hbooks.toHeld hsize).usedBytes _,
        ?_, .inl (Function.update_self ..), ?_, ?_⟩
      · refine Shallow.agree ?_ ?_ (agree_usedBytes s₂ r user _)
        · refine hmade.grown.shallow htree₁.branching hbooks.shallow hlevel (htree₁.kids_unused hf.unused hf.ne_root)
            (htree₁.notBelow_of_unused hf) (fun hw => ?_)
          rw [hmade.weight hsize] at hw
          exact hdeep part d rfl (fun hnil => hw (by rw [hnil]; rfl)) hwalk
        · exact (hmade.held htree₁ hf hlevel.toBelow hbooks.toHeld hsize).top
      · show T + part.data.length ≤ limitOf user s₂
        rw [hlimit]
        exact hroom
      · show limitOf user s₂ ≤ defaultDriveQuotaBytes
        rw [hlimit]
        exact h.cap

/-! ## Renaming and moving -/

/-- **A new name changes nothing in the books.** -/
theorem ends_handleRename_books (htree : Tree user r used s) (h : Books user r T s) (path newName : Bytes) :
    Ends (handleRename user path newName) (fun _ s' => Books user r T s') s := by
  show Ends (if (!validComponent newName) = true ∨ path = [] ∨ path = [slash] then _ else _) _ s
  split
  · exact h
  · refine ends_probe (Ends.bind ((ends_resolvePath_walkTo htree _).mono ?_))
    rintro o s₁ ⟨hopen, rfl⟩
    have hsame : Books user r T s₁ := h.agree hopen.agree hopen.counters
    cases walkTo s r (pathParts path) with
    | none => exact hsame
    | some uid =>
        refine Ends.bind ?_
        rw [Ends, run_getStr]
        refine Ends.bind ((ends_childNameExists_ne (parentOf s₁ uid) newName uid s₁).mono ?_)
        rintro b s₂ ⟨hs, -⟩
        obtain rfl : s₁ = s₂ := hs.symm
        cases b with
        | true => exact hsame
        | false => exact ends_put (hsame.agree ⟨fun _ _ => rfl, fun _ _ _ => rfl, id, fun _ _ => rfl⟩ ⟨rfl, rfl⟩)

/-- **`resolve_move_destination`** comes to a folder at the end of one of its paths. -/
theorem ends_firstFolder_walkTo (h : Rooted user r used s) (paths : List Bytes) :
    Ends (firstFolder user paths) (fun o s' => Reopened user r used s s' ∧
      ∀ path x, o = some (path, x) → path ∈ paths ∧ walkTo s r (pathParts path) = some x ∧
        typeOf s' x = folder) s := by
  induction paths generalizing s with
  | nil => exact ⟨⟨⟨h, fun _ => rfl⟩, fun _ _ => rfl⟩, nofun⟩
  | cons path paths ih =>
      refine Ends.bind ((ends_resolvePath_walkTo h.toTree path).mono ?_)
      rintro o s₁ ⟨hopen, rfl⟩
      have hnext : Ends (firstFolder user paths) (fun o s' => Reopened user r used s s' ∧
          ∀ p x, o = some (p, x) → p ∈ path :: paths ∧ walkTo s r (pathParts p) = some x ∧
            typeOf s' x = folder) s₁ := by
        refine (ih hopen.rooted).mono ?_
        rintro o s₂ ⟨hopen₂, hfound⟩
        refine ⟨hopen.trans hopen₂, fun p x hx => ?_⟩
        obtain ⟨hp, hwalk, htype⟩ := hfound p x hx
        exact ⟨List.mem_cons_of_mem _ hp, (hopen.walkTo r _).symm.trans hwalk, htype⟩
      cases hwalk : walkTo s r (pathParts path) with
      | none => exact hnext
      | some x =>
          show Ends (if typeOf s₁ x = folder then _ else _) _ s₁
          split
          · rename_i htype
            refine ⟨hopen, ?_⟩
            rintro p y ⟨⟩
            exact ⟨List.mem_cons_self, hwalk, htype⟩
          · exact hnext

/-- **`is_descendant_of`** says no only at the end of the way up. -/
theorem descendsLoop_false (h : Tree user r used s) {ancestor : Bytes} (hne : ancestor ≠ []) {left : Nat}
    {seen : List Bytes} {cur : Bytes} (hfalse : (run (descendsLoop ancestor left seen cur) s).1 = false)
    (n : Nat) : (parentOf s)^[n] cur ≠ ancestor := by
  induction left generalizing seen cur n with
  | zero =>
      rw [descendsLoop] at hfalse
      split at hfalse
      · rename_i hnil
        rw [hnil, h.iterate_nil]
        exact Ne.symm hne
      · split at hfalse
        · exact absurd hfalse (by simp)
        · exact absurd hfalse (by simp)
  | succ left ih =>
      rw [descendsLoop] at hfalse
      split at hfalse
      · rename_i hnil
        rw [hnil, h.iterate_nil]
        exact Ne.symm hne
      · split at hfalse
        · exact absurd hfalse (by simp)
        · rename_i hcur
          have hfalse : (run (if cur ∈ seen then (pure true : FeProg Bool) else
            getStr (.parent cur) >>= descendsLoop ancestor left (cur :: seen)) s).1 = false := hfalse
          split at hfalse
          · exact absurd hfalse (by simp)
          · rw [run_bind, run_getStr] at hfalse
            cases n with
            | zero => exact hcur
            | succ n =>
                rw [Function.iterate_succ_apply]
                exact ih hfalse n

/-- One of two ways to find something out. -/
theorem ends_ite_bind_of {α β : Type} {c : Prop} [Decidable c] {p q : FeProg β} {f : β → FeProg α}
    {R : β → Prop} {Q : α → Store Cell Bytes → Prop} (hp : c → Ends p (fun b s' => s' = s ∧ R b) s)
    (hq : ¬ c → Ends q (fun b s' => s' = s ∧ R b) s) (hf : ∀ b, R b → Ends (f b) Q s) :
    Ends (if c then p >>= f else q >>= f) Q s := by
  split
  · rename_i hc
    refine Ends.bind ((hp hc).mono ?_)
    rintro b _ ⟨rfl, hb⟩
    exact hf b hb
  · rename_i hc
    refine Ends.bind ((hq hc).mono ?_)
    rintro b _ ⟨rfl, hb⟩
    exact hf b hb

/-- Where a move goes. -/
structure Aimed (r srcPath dstPath : Bytes) (job : MoveJob) (s s' : Store Cell Bytes) : Prop where
  uid : walkTo s r (pathParts srcPath) = some job.uid
  target : ∃ path ∈ candidates srcPath dstPath, walkTo s r (pathParts path) = some job.target
  /-- Not into what is below the object itself. -/
  apart : ¬ Below s' job.uid job.target

/-- What is not a folder has only itself below it. -/
theorem Tree.apart_of_file (h : Tree user r used s) {uid target : Bytes} (hu : typeOf s uid ≠ folder)
    (ht : typeOf s target = folder) : ¬ Below s uid target := by
  intro hb
  rw [Grown.below_leaf (h.kids_of_type hu) hb] at ht
  exact hu ht

theorem ends_planMove_aimed (htree : Tree user r used s) (h : Books user r T s) (srcPath dstPath : Bytes) :
    Ends (planMove user srcPath dstPath) (fun o s' => Books user r T s' ∧
      ∀ job, o = .ok job → Reopened user r used s s' ∧ Aimed r srcPath dstPath job s s') s := by
  show Ends (if srcPath = [] ∨ dstPath = [] ∨ srcPath = [slash] then _ else _) _ s
  split
  · exact ⟨h, not_planned⟩
  · refine ends_known (fun _ => rfl) (Ends.bind ((ends_resolvePath_walkTo htree _).mono ?_))
    rintro o s₁ ⟨hopen, rfl⟩
    cases hwalk : walkTo s r (pathParts srcPath) with
    | none => exact ⟨h.agree hopen.agree hopen.counters, not_planned⟩
    | some uid =>
        refine Ends.bind ((ends_firstFolder_walkTo hopen.rooted _).mono ?_)
        rintro o s₂ ⟨hopen₂, hfound⟩
        have hall : Reopened user r used s s₂ := hopen.trans hopen₂
        have hsame : Books user r T s₂ := h.agree hall.agree hall.counters
        cases o with
        | none => exact ⟨hsame, not_planned⟩
        | some q =>
            obtain ⟨resolved, dstUid⟩ := q
            obtain ⟨hmem, hdst, htype⟩ := hfound resolved dstUid rfl
            have htree₂ : Tree user r used s₂ := hall.rooted.toTree
            have hbelow : Below s₂ r uid := (level_of_walkTo ((hall.walkTo r _).trans hwalk)).toBelow
            refine Ends.bind ?_
            rw [Ends, run_getStr]
            refine ends_ite_bind_of (R := fun below => below = false → ¬ Below s₂ uid dstUid) ?_ ?_ ?_
            · intro _
              have hsame := ends_of_gets (only_descendsLoop uid 4096 [] dstUid) s₂
              refine ⟨hsame, fun hno hb => ?_⟩
              obtain ⟨k, hk⟩ := Level.of_below hb
              have hne : uid ≠ [] := by
                rintro rfl
                exact htree₂.branching.ne_nil hbelow rfl
              exact descendsLoop_false htree₂ hne hno k (hk.iterate htree₂)
            · intro hfile
              refine ⟨rfl, fun _ => htree₂.apart_of_file ?_ htype⟩
              by_cases hr : uid = r
              · rw [hr, typeOf, hopen.rooted.root_folder] at hfile
                exact absurd rfl hfile
              · rw [typeOf_congr (hopen₂.frame (.type uid) hr)]
                exact hfile
            · intro below hapart
              cases below with
              | true => exact ⟨hsame, not_planned⟩
              | false =>
                  refine Ends.bind ((ends_childNameExists_ne dstUid (nameOf s₂ uid) uid s₂).mono ?_)
                  rintro b s₃ ⟨hs, -⟩
                  obtain rfl : s₂ = s₃ := hs.symm
                  cases b with
                  | true => exact ⟨hsame, not_planned⟩
                  | false =>
                      refine Ends.bind ?_
                      rw [Ends, run_getStr]
                      show Ends (if parentOf s₂ uid = dstUid then _ else _) _ s₂
                      split
                      · exact ⟨hsame, not_planned⟩
                      · refine ⟨hsame, ?_⟩
                        rintro job ⟨⟩
                        exact ⟨hall, hwalk, ⟨resolved, hmem, (hopen.walkTo r _).symm.trans hdst⟩, hapart rfl⟩

/-- A listed object is listed by something in the tree. -/
theorem Tree.below_source (h : Tree user r used s) {uid d : Bytes} (hb : Below s r uid) (hmem : uid ∈ kids s d) :
    Below s r d := by
  rcases Tree.below_cases hb with heq | ⟨d', hd', hmem'⟩
  · exact absurd heq (h.ne_root hmem)
  · exact h.unique d' d uid hmem' hmem ▸ hd'

/-- **An object is taken from one list into another.** -/
theorem Books.relink (h : Books user r T s) (htree : Tree user r used s) {source target uid : Bytes} {m : Nat}
    (hbelow : Below s r uid) (huid : uid ∈ kids s source) (htarget : Level s r m target)
    (hapart : ¬ Below s uid target) (hg : Grown (Drive.unlist s source uid) s' uid target)
    (htype : ∀ x, s' (.type x) = s (.type x)) (hsize : ∀ x, s' (.size x) = s (.size x))
    (hc : SameCounters user s s')
    (hdeep : ∀ k y, Level s uid k y → weight s y ≠ 0 → m + 1 + k ≤ 4096) : Books user r T s' := by
  obtain ⟨hun, -⟩ := htree.unlist huid
  have hsource := htree.below_source hbelow huid
  have hinner : ∀ {k : Nat} {y : Bytes}, Level (Drive.unlist s source uid) uid k y ↔ Level s uid k y :=
    fun {k y} => Level.agree (fun d hd => htree.branching.kids_unlist_below hsource huid hd)
  have hlevel : ∀ {n : Nat} {x : Bytes}, Level s' r n x ↔
      (Level s r n x ∧ ¬ Below s uid x) ∨ ∃ j, Level s uid j x ∧ n = m + 1 + j := by
    intro n x
    rw [hun.branching.level_link hg.mem ((htree.branching.level_unlist hsource huid).mpr ⟨htarget, hapart⟩),
      htree.branching.level_unlist hsource huid]
    · exact or_congr_right (exists_congr (fun j => and_congr_left (fun _ => hinner)))
    · intro hb
      obtain ⟨k, hk⟩ := Level.of_below hb
      exact hapart (hinner.mp hk).toBelow
  have hsame : ∀ x, Below s' r x ↔ Below s r x := by
    intro x
    rw [below_iff_level]
    constructor
    · rintro ⟨n, hn⟩
      rcases hlevel.mp hn with ⟨hn, -⟩ | ⟨j, hj, -⟩
      · exact hn.toBelow
      · obtain ⟨i, hi⟩ := Level.of_below hbelow
        exact (hi.trans hj).toBelow
    · intro hx
      by_cases hb : Below s uid x
      · obtain ⟨j, hj⟩ := Level.of_below hb
        exact ⟨m + 1 + j, hlevel.mpr (.inr ⟨j, hj, rfl⟩)⟩
      · obtain ⟨n, hn⟩ := Level.of_below hx
        exact ⟨n, hlevel.mpr (.inl ⟨hn, hb⟩)⟩
  refine ⟨h.toHeld.congr hsame ?_ (fun x _ => by rw [typeOf_congr (htype x)]) (fun x _ => hsize x), ?_,
    h.counter.congr hc, hc.limit ▸ h.fits, hc.limit ▸ h.cap⟩
  · rw [typeOf_congr (htype r)]
    exact h.top
  · intro n x hx hw
    rw [weight_congr (htype x) (hsize x)] at hw
    rcases hlevel.mp hx with ⟨hx, -⟩ | ⟨j, hj, rfl⟩
    · exact h.shallow n x hx hw
    · exact hdeep j x hj hw

/-- The depth of what a move takes along. -/
def MovesShallow (r srcPath dstPath : Bytes) (s : Store Cell Bytes) : Prop :=
  ∀ uid target, walkTo s r (pathParts srcPath) = some uid → ∀ path ∈ candidates srcPath dstPath,
    walkTo s r (pathParts path) = some target →
      ∀ k y, Level s uid k y → weight s y ≠ 0 → (pathParts path).length + 1 + k ≤ 4096

/-- **A move changes nothing in the books**, if nothing gets too deep. -/
theorem ends_handleMove_books (htree : Tree user r used s) (h : Books user r T s) (srcPath dstPath : Bytes)
    (hdeep : MovesShallow r srcPath dstPath s) :
    Ends (handleMove user srcPath dstPath) (fun _ s' => Books user r T s') s := by
  refine Ends.bind (((ends_planMove htree srcPath dstPath).and
    (ends_planMove_aimed htree h srcPath dstPath)).mono ?_)
  rintro o s₁ ⟨⟨htree₁, -⟩, hbooks, haim⟩
  cases o with
  | error ans => exact hbooks
  | ok job =>
      obtain ⟨hopen, haim⟩ := haim job rfl
      obtain ⟨path, hpath, htarget⟩ := haim.target
      have huid := level_of_walkTo ((hopen.walkTo r _).trans haim.uid)
      have hlevel := level_of_walkTo ((hopen.walkTo r _).trans htarget)
      have hmoved : ∀ k y, Level s₁ job.uid k y → weight s₁ y ≠ 0 →
          (pathParts path).length + 1 + k ≤ 4096 := by
        intro k y hy hw
        have hy' : Level s job.uid k y := (Level.agree (fun d _ => hopen.same d)).mp hy
        have hb : Below s r y := (((level_of_walkTo haim.uid).trans hy')).toBelow
        rw [hopen.agree.weight h.top hb] at hw
        exact hdeep job.uid job.target haim.uid path hpath htarget k y hy' hw
      refine Ends.bind (ends_removeChild (d := job.source) ?_ (fun _ => hbooks))
      intro hin
      obtain ⟨-, hun⟩ := htree₁.unlist hin
      refine Ends.bind ((ends_appendChild (clean_of_mem_splitCsv hin) (hun job.target)).mono ?_)
      rintro _ _ ⟨rfl, v, rfl, hv⟩
      refine ends_put ?_
      have hgrown : Grown (Drive.unlist s₁ job.source job.uid) (Function.update
          (Drive.unlist s₁ job.source job.uid) (.children job.target) (some v)) job.uid job.target :=
        .of_append (fun _ => rfl) (fun _ _ => rfl) (fun _ _ => rfl) (fun _ _ => rfl) hv
      refine hbooks.relink htree₁ huid.toBelow hin hlevel haim.apart
        ⟨hgrown.kids_self, hgrown.kids_other, fun _ _ => rfl, fun _ _ => rfl, fun _ _ => rfl⟩
        (fun _ => rfl) (fun _ => rfl) ⟨rfl, rfl⟩ hmoved

/-! ## Deleting -/

/-- One turn of the loop. -/
theorem ends_deleteNode_frame {α : Type} {f : FeProg α} {Q : α → Store Cell Bytes → Prop} {obj : Bytes}
    (h : ∀ s', (∀ k, ¬ ObjCell obj k → s' k = s k) → Ends f Q s') :
    Ends (delAll [.type obj, .name obj, .parent obj, .owner obj, .size obj] >>= fun _ =>
      if typeOf s obj = folder then del (.children obj) >>= fun _ => f
      else deleteFileBytes obj >>= fun _ => f) Q s := by
  refine Ends.bind ((ends_onCells (P := ObjCell obj) (only_delAll ?_) s).mono ?_)
  · intro k hk
    simp only [List.mem_cons, List.not_mem_nil, or_false] at hk
    rcases hk with rfl | rfl | rfl | rfl | rfl <;> rfl
  · intro _ s₁ h₁
    split
    · refine Ends.bind (h _ (fun k hk => ?_))
      rw [run_del]
      refine (Function.update_of_ne ?_ ..).trans (h₁ k hk)
      rintro rfl
      exact hk rfl
    · refine Ends.bind ((ends_onCells (only_deleteFileBytes obj) s₁).mono ?_)
      intro _ s₂ h₂
      exact h s₂ (fun k hk => (h₂ k (fun hc => hk (objCell_of_contents hc))).trans (h₁ k hk))

theorem run_addSize (freed : Int) (obj : Bytes) (s : Store Cell Bytes) :
    run (addSize freed obj) s = (int64 (freed + int64 (sizeOf s obj)), s) := by
  rw [addSize, run_bind, run_getStr, run_pure]
  rfl

/-- **The loop of `handle_delete_path`** adds up the bytes it deletes. -/
theorem ends_deleteNodes_freed {l : List Bytes} {freed : Nat} (hnd : l.Nodup)
    (hsum : freed + bytesOf s l < 2 ^ 62) :
    Ends (deleteNodes l freed) (fun n s' => n = (freed + bytesOf s l : Nat) ∧
      ∀ k, (∀ x ∈ l, ¬ ObjCell x k) → s' k = s k) s := by
  induction l generalizing freed s with
  | nil => exact ⟨rfl, fun _ _ => rfl⟩
  | cons obj rest ih =>
      rw [bytesOf_cons] at hsum
      obtain ⟨hnot, hnd⟩ := List.nodup_cons.mp hnd
      refine Ends.bind ?_
      rw [Ends, run_getStr]
      refine ends_ite_bind_of (R := fun n => n = ((freed + weight s obj : Nat) : Int)) ?_ ?_ ?_
      · intro htype
        have hw : weight s obj = sizeOf s obj := if_pos htype
        have hsize : int64 (sizeOf s obj : Int) = sizeOf s obj := int64_eq (by omega) (by omega)
        have hadd : int64 ((freed : Int) + int64 (sizeOf s obj)) = (freed + weight s obj : Nat) := by
          rw [hsize, hw, Int.natCast_add]
          exact int64_eq (by omega) (by omega)
        rw [Ends, run_addSize]
        dsimp only
        exact ⟨rfl, hadd⟩
      · intro htype
        have hw : weight s obj = 0 := if_neg htype
        refine ⟨rfl, ?_⟩
        rw [hw]
        rfl
      · rintro _ rfl
        refine ends_deleteNode_frame ?_
        intro s₁ h₁
        -- what is left has not been touched
        have hrest : bytesOf s₁ rest = bytesOf s rest := by
          refine bytesOf_congr (fun x hx => ?_)
          have hne : x ≠ obj := fun heq => hnot (heq ▸ hx)
          exact weight_congr (h₁ (.type x) hne) (h₁ (.size x) hne)
        refine (ih hnd (by omega)).mono ?_
        rintro n s₂ ⟨rfl, h₂⟩
        refine ⟨by rw [hrest, bytesOf_cons, Nat.add_assoc], fun k hk => ?_⟩
        rw [h₂ k (fun x hx => hk x (List.mem_cons_of_mem _ hx)), h₁ k (hk obj List.mem_cons_self)]

/-- **An object is taken out of the tree**, with the bytes of what is below it. -/
theorem Held.unlink (h : Held r T s) (hsh : Shallow r s) (hbr : Branching r s) {source uid : Bytes}
    (hsource : Below s r source) (huid : uid ∈ kids s source) :
    ∃ T', Held r T' (Drive.unlist s source uid) ∧ Shallow r (Drive.unlist s source uid) ∧
      T = T' + bytesOf s (nodes s 4097 uid) := by
  have hbelow : Below s r uid := .child hsource huid
  obtain ⟨i, hi⟩ := Level.of_below hbelow
  have hlisted : ∀ x, weight s x ≠ 0 → (x ∈ nodes s 4097 uid ↔ Below s r x ∧ Below s uid x) := by
    intro x hw
    rw [mem_nodes]
    constructor
    · rintro ⟨k, -, hk⟩
      exact ⟨(hi.trans hk).toBelow, hk.toBelow⟩
    · rintro ⟨-, hx⟩
      obtain ⟨k, hk⟩ := Level.of_below hx
      have hle := hsh (i + k) x (hi.trans hk) hw
      exact ⟨k, by omega, hk⟩
  have hfile : ∀ x, (Below (Drive.unlist s source uid) r x ∧ typeOf (Drive.unlist s source uid) x = file) ↔
      (Below s r x ∧ typeOf s x = file) ∧ ¬ Below s uid x := by
    intro x
    rw [hbr.below_unlist hsource huid]
    exact and_right_comm
  obtain ⟨T', htotal, hsum⟩ := h.total.split hfile (fun x _ _ _ => rfl) (hbr.nodup_nodes hbelow 4097) hlisted
  refine ⟨T', ⟨h.top, fun x hx ht => h.sized x ((hbr.below_unlist hsource huid).mp hx).1 ht, htotal⟩, ?_, hsum⟩
  intro n x hx hw
  exact hsh n x ((hbr.level_unlist hsource huid).mp hx).1 hw

/-- **A delete takes the bytes out.** -/
theorem ends_handleDeletePath_books (htree : Tree user r used s) (h : Books user r T s) (path : Bytes) :
    Ends (handleDeletePath user path) (fun _ s' => ∃ T', Books user r T' s') s := by
  show Ends (if path = [] ∨ path = [slash] then _ else _) _ s
  split
  · exact ⟨T, h⟩
  · refine ends_probe (Ends.bind ((ends_resolvePath_walkTo htree _).mono ?_))
    rintro o s₁ ⟨hopen, rfl⟩
    have hbooks : Books user r T s₁ := h.agree hopen.agree hopen.counters
    have htree₁ : Tree user r used s₁ := hopen.rooted.toTree
    cases hwalk : walkTo s r (pathParts path) with
    | none => exact ⟨T, hbooks⟩
    | some uid =>
        have hbelow : Below s₁ r uid := (level_of_walkTo ((hopen.walkTo r _).trans hwalk)).toBelow
        refine Ends.bind ?_
        rw [Ends, run_getStr]
        refine Ends.bind (ends_removeChild (d := parentOf s₁ uid) ?_ (fun _ => ⟨T, hbooks⟩))
        intro huid
        have hsource := htree₁.below_source hbelow huid
        obtain ⟨T', hheld, hshallow, hsum⟩ := hbooks.toHeld.unlink hbooks.shallow htree₁.branching hsource huid
        obtain ⟨hun, -⟩ := htree₁.unlist huid
        -- what is collected is what was below the object before
        have hnodes : nodes (Drive.unlist s₁ (parentOf s₁ uid) uid) 4097 uid = nodes s₁ 4097 uid :=
          nodes_agree (fun d hd => htree₁.branching.kids_unlist_below hsource huid hd)
        have hcollect : run (collectInner 4097 uid []) (Drive.unlist s₁ (parentOf s₁ uid) uid) =
            ([] ++ nodes (Drive.unlist s₁ (parentOf s₁ uid) uid) 4097 uid,
              Drive.unlist s₁ (parentOf s₁ uid) uid) :=
          run_collectInner (fun y _ hy => hun.kids_of_type hy)
            (by rw [hnodes]; exact htree₁.branching.nodup_nodes hbelow 4097)
            (by rw [hnodes]; exact htree₁.branching.nil_notMem_nodes hbelow 4097) (fun _ _ => List.not_mem_nil)
        rw [hnodes, List.nil_append] at hcollect
        refine Ends.bind ?_
        rw [Ends, collectSubtree, hcollect]
        have hsmall := hbooks.small
        simp only [defaultDriveQuotaBytes, mib] at hsmall
        have hbytes : bytesOf (Drive.unlist s₁ (parentOf s₁ uid) uid) (nodes s₁ 4097 uid).reverse
            = bytesOf s₁ (nodes s₁ 4097 uid) := bytesOf_reverse s₁ _
        have hdelete := @ends_deleteNodes_freed (Drive.unlist s₁ (parentOf s₁ uid) uid) _ 0
          (List.nodup_reverse.mpr (htree₁.branching.nodup_nodes hbelow 4097)) (by rw [hbytes]; omega)
        refine Ends.bind (hdelete.mono ?_)
        rintro freed s₃ ⟨hfreed, hframe⟩
        rw [hbytes, Nat.zero_add] at hfreed
        -- the cells of the tree that is left have not been touched
        have hout : ∀ x, Below (Drive.unlist s₁ (parentOf s₁ uid) uid) r x →
            ∀ y ∈ (nodes s₁ 4097 uid).reverse, x ≠ y := by
          rintro x hx y hy rfl
          obtain ⟨k, -, hk⟩ := mem_nodes.mp (List.mem_reverse.mp hy)
          exact ((htree₁.branching.below_unlist hsource huid).mp hx).2 hk.toBelow
        have hagree : Agree r (Drive.unlist s₁ (parentOf s₁ uid) uid) s₃ :=
          ⟨fun d hd => kids_congr (hframe (.children d) (hout d hd)),
            fun x hx _ => hframe (.type x) (hout x hx),
            fun ht => by rw [typeOf_congr (hframe (.type r) (hout r .self))]; exact ht,
            fun x hx => hframe (.size x) (hout x hx)⟩
        have hcounters : SameCounters user s₁ s₃ := ⟨hframe _ (fun _ _ => id), hframe _ (fun _ _ => id)⟩
        have hheld₃ : Held r T' s₃ := hheld.agree hagree
        have hshallow₃ : Shallow r s₃ := hshallow.agree hheld.top hagree
        have hfits : T' ≤ limitOf user s₃ := by
          rw [hcounters.limit]
          exact (Nat.le_add_right T' _).trans (hsum ▸ hbooks.fits)
        have hcap : limitOf user s₃ ≤ defaultDriveQuotaBytes := hcounters.limit ▸ hbooks.cap
        show Ends (if freed > 0 then _ else _) _ s₃
        split
        · rename_i hpos
          refine Ends.bind ?_
          have hcount : s₃ (.usedBytes user) = some (Decimal.text T) := by
            rcases hbooks.counter.congr hcounters with hcount | ⟨-, hzero⟩
            · exact hcount
            · omega
          have hleft : ((T : Int) + -freed).toNat = T' := by omega
          rw [Ends, run_updateDriveUsedBytes hcount (by omega) (by omega) (by omega), hleft]
          exact ⟨T', hheld₃.usedBytes _, hshallow₃.agree hheld₃.top (agree_usedBytes s₃ r user _),
            .inl (Function.update_self ..), hfits, hcap⟩
        · rename_i hzero
          obtain rfl : T = T' := by omega
          exact ⟨T, hheld₃, hshallow₃, hbooks.counter.congr hcounters, hfits, hcap⟩

/-! ## The quota -/

theorem ends_handleQuotaStatus_books (htree : Tree user r used s) (h : Books user r T s) :
    Ends (handleQuotaStatus user) (fun _ s' => Tree user r used s' ∧ Books user r T s') s := by
  refine ends_known (fun _ => rfl) (Ends.bind ?_)
  rw [Ends, run_userDriveQuotaBytes]
  refine Ends.bind ((ends_userDriveUsedBytesReconciled_books htree h).mono ?_)
  rintro n s₁ ⟨-, haud⟩
  exact ⟨haud.tree, haud.books⟩

/-- The limit is written. -/
theorem Books.quotaBytes (h : Books user r T s) {limit : Nat} (hfits : T ≤ limit)
    (hcap : limit ≤ defaultDriveQuotaBytes) :
    Books user r T (Function.update s (.quotaBytes user) (some (Decimal.text limit))) := by
  have hagree : Agree r s (Function.update s (.quotaBytes user) (some (Decimal.text limit))) :=
    ⟨fun _ _ => rfl, fun _ _ _ => rfl, id, fun _ _ => rfl⟩
  have hlimit : limitOf user (Function.update s (.quotaBytes user) (some (Decimal.text limit))) = limit := by
    rw [limitOf, Function.update_self, Option.getD_some]
    simp only [defaultDriveQuotaBytes, mib] at hcap
    exact parseSizeOr_text (by omega) _
  exact ⟨h.toHeld.agree hagree, h.shallow.agree h.top hagree, h.counter, by rw [hlimit]; exact hfits,
    by rw [hlimit]; exact hcap⟩

/-- **A new limit is not below what is in use.** -/
theorem ends_handleQuotaUpdate_books (htree : Tree user r used s) (h : Books user r T s) (limit : Bytes) :
    Ends (handleQuotaUpdate user limit) (fun _ s' => Tree user r used s' ∧ Books user r T s') s := by
  show Ends (if parseSizeOr limit 0 = 0 ∨ parseSizeOr limit 0 > maxQuotaMb then _ else _) _ s
  split
  · exact ⟨htree, h⟩
  · rename_i hrange
    have hmax : parseSizeOr limit 0 ≤ 5120 := by
      have hmb : maxQuotaMb = 5120 := by decide
      rw [hmb] at hrange
      omega
    have hlimit : sizeT (parseSizeOr limit 0 * mib) = parseSizeOr limit 0 * mib := by
      refine Nat.mod_eq_of_lt ?_
      simp only [mib]
      omega
    refine Ends.bind ((ends_userDriveUsedBytesReconciled_books htree h).mono ?_)
    rintro n s₁ ⟨hn, haud⟩
    obtain rfl : T = n := hn.symm
    show Ends (if sizeT (parseSizeOr limit 0 * mib) < T then _ else _) _ s₁
    rw [hlimit]
    split
    · exact ⟨haud.tree, haud.books⟩
    · rename_i hroom
      refine ends_put (ends_handleQuotaStatus_books ?_ ?_)
      · refine haud.tree.aside (fun k hk => Function.update_of_ne ?_ ..)
        rintro rfl
        exact hk trivial
      · refine haud.books.quotaBytes (Nat.not_lt.mp hroom) ?_
        simp only [defaultDriveQuotaBytes, mib]
        omega

end NCloud.Frontend.Drive
