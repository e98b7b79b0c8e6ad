import NCloud.Frontend.DriveBooks

/-!
# The books of a drive over many requests

Requests of one user, one after another, from an empty drive. The books are kept as long
as no upload and no move puts bytes more than 4096 levels below the root.

Folders can be made at any depth. In the 4097th a file can still be stored, and is
added to the counter, but no traversal comes to it any more: the next request that asks
for the quota takes it out of the counter again.
-/

namespace NCloud.Frontend.Drive

open Process Wire KeyValue

variable {user r : Bytes} {used : Bytes → Prop} {s s' : Store Cell Bytes} {T : Nat}

/-! ## Sequences of requests -/

/-- Requests to the drive and to its quota. -/
inductive QuotaRequest where
  | drive (req : Request)
  | quotaStatus
  | quotaUpdate (limit : Bytes)

namespace QuotaRequest

/-- The handler. -/
def handle (user : Bytes) : QuotaRequest → FeProg Unit
  | drive req => do
      let _ ← req.handle user
  | quotaStatus => do
      let _ ← handleQuotaStatus user
  | quotaUpdate limit => do
      let _ ← handleQuotaUpdate user limit

/-- The uid it hands out. -/
def uid : QuotaRequest → Option Bytes
  | drive req => req.uid
  | _ => none

/-- It puts no bytes more than 4096 levels below the root. -/
def PutsShallow (r : Bytes) (s : Store Cell Bytes) : QuotaRequest → Prop
  | drive (.upload path part _ _) => ∀ p d, part = some p → p.data ≠ [] →
      walkTo s r (pathParts path) = some d → (pathParts path).length < 4096
  | drive (.move srcPath dstPath) => MovesShallow r srcPath dstPath s
  | _ => True

end QuotaRequest

/-- The store after some requests. -/
def serveQuota (user : Bytes) (reqs : List QuotaRequest) (s : Store Cell Bytes) : Store Cell Bytes :=
  reqs.foldl (fun s req => (run (req.handle user) s).2) s

theorem serveQuota_concat (user : Bytes) (reqs : List QuotaRequest) (req : QuotaRequest)
    (s : Store Cell Bytes) :
    serveQuota user (reqs ++ [req]) s = (run (req.handle user) (serveQuota user reqs s)).2 := by
  rw [serveQuota, List.foldl_append]
  rfl

/-- None of them puts bytes too deep. -/
def RunsShallow (user r : Bytes) : List QuotaRequest → Store Cell Bytes → Prop
  | [], _ => True
  | req :: reqs, s => req.PutsShallow r s ∧ RunsShallow user r reqs (run (req.handle user) s).2

/-- The sum of the sizes of all files is what `user_drive_used_bytes` returns and what the
counter says, if it is there, and is not above the limit. -/
def Balanced (user r : Bytes) (s : Store Cell Bytes) : Prop :=
  ∃ n, Total s r n ∧ (run (userDriveUsedBytes user) s).1 = n ∧
    (∀ v, s (.usedBytes user) = some v → v = Decimal.text n) ∧ n ≤ (run (userDriveQuotaBytes user) s).1

/-- A drive with nothing in it. -/
structure EmptyDrive (user r : Bytes) (s : Store Cell Bytes) : Prop where
  kids : kids s r = []
  type : typeOf s r ≠ file
  counter : s (.usedBytes user) = none
  limit : s (.quotaBytes user) = none

theorem EmptyDrive.limitOf (h : EmptyDrive user r s) : limitOf user s = defaultDriveQuotaBytes := by
  rw [Drive.limitOf, h.limit]
  rfl

theorem EmptyDrive.books (h : EmptyDrive user r s) : Books user r 0 s := by
  have hnone : ∀ x, Below s r x → typeOf s x ≠ file := by
    intro x hx
    rw [Grown.below_leaf h.kids hx]
    exact h.type
  refine ⟨⟨h.type, fun x hx ht => absurd ht (hnone x hx), [], List.nodup_nil, fun x => ?_, rfl⟩, ?_,
    .inr ⟨h.counter, rfl⟩, Nat.zero_le _, Nat.le_of_eq h.limitOf⟩
  · exact ⟨fun hx => absurd hx List.not_mem_nil, fun hx => absurd hx.2 (hnone x hx.1)⟩
  · intro n x hx hw
    exact absurd (type_of_weight hw) (hnone x hx.toBelow)

/-- **The books say it.** -/
theorem Books.balanced (htree : Tree user r used s) (h : Books user r T s) : Balanced user r s := by
  refine ⟨T, h.total, (ends_userDriveUsedBytes_books htree h).1, fun v hv => ?_, ?_⟩
  · rcases h.counter with hc | ⟨hc, -⟩
    · exact Option.some.inj (hv.symm.trans hc)
    · rw [hc] at hv
      exact absurd hv (by simp)
  · rw [run_userDriveQuotaBytes]
    exact h.fits

theorem run_drive (user : Bytes) (req : Request) (s : Store Cell Bytes) :
    (run (QuotaRequest.handle user (.drive req)) s).2 = (run (req.handle user) s).2 := by
  rw [QuotaRequest.handle, run_bind]
  rfl

/-- What has been handed out after a request. -/
def usedAfterQuota (used : Bytes → Prop) (req : QuotaRequest) : Bytes → Prop :=
  fun x => used x ∨ req.uid = some x

/-- **One request.** -/
theorem ends_handle_books (htree : Tree user r used s) (h : Books user r T s) {req : QuotaRequest}
    (hnew : ∀ uid, req.uid = some uid → ¬ used uid ∧ uid ≠ r) (hshallow : req.PutsShallow r s) :
    Tree user r (usedAfterQuota used req) (run (req.handle user) s).2 ∧
      ∃ T', Books user r T' (run (req.handle user) s).2 := by
  have hquota : ∀ {p : FeProg (Except String Quota)},
      Ends p (fun _ s' => Tree user r used s' ∧ Books user r T s') s → req.uid = none →
      Tree user r (usedAfterQuota used req) (run p s).2 ∧ ∃ T', Books user r T' (run p s).2 := by
    intro p hp hreq
    have hsame : usedAfterQuota used req = used := by
      funext x
      rw [usedAfterQuota, hreq]
      exact propext ⟨fun hx => hx.resolve_right nofun, .inl⟩
    rw [hsame]
    exact ⟨hp.1, T, hp.2⟩
  cases req with
  | quotaStatus =>
      rw [QuotaRequest.handle, run_bind]
      exact hquota (ends_handleQuotaStatus_books htree h) rfl
  | quotaUpdate limit =>
      rw [QuotaRequest.handle, run_bind]
      exact hquota (ends_handleQuotaUpdate_books htree h limit) rfl
  | drive req =>
      rw [run_drive]
      refine ⟨ends_handle htree hnew, ?_⟩
      have hfresh : ∀ ns seq, req.uid = some (driveNewUid ns seq) → Fresh r used (driveNewUid ns seq) :=
        fun ns seq hreq => ⟨clean_driveNewUid ns seq, (hnew _ hreq).1, (hnew _ hreq).2⟩
      cases req with
      | mkdir path name ns seq =>
          exact ⟨T, ends_handleMkdir_books htree h path name (hfresh ns seq rfl)⟩
      | upload path part ns seq =>
          exact ends_handleUpload_books htree h path part (hfresh ns seq rfl) hshallow
      | rename path newName => exact ⟨T, ends_handleRename_books htree h path newName⟩
      | move srcPath dstPath => exact ⟨T, ends_handleMove_books htree h srcPath dstPath hshallow⟩
      | delete path => exact ends_handleDeletePath_books htree h path

/-- **Any number of requests.** -/
theorem books_serveQuota (htree : Tree user r used s) (h : Books user r T s) {reqs : List QuotaRequest}
    (hdistinct : (reqs.filterMap QuotaRequest.uid).Nodup)
    (hnew : ∀ uid ∈ reqs.filterMap QuotaRequest.uid, ¬ used uid ∧ uid ≠ r)
    (hshallow : RunsShallow user r reqs s) :
    ∃ used' T', Tree user r used' (serveQuota user reqs s) ∧ Books user r T' (serveQuota user reqs s) := by
  induction reqs generalizing s used T with
  | nil => exact ⟨used, T, htree, h⟩
  | cons req reqs ih =>
      have hmem : ∀ uid, req.uid = some uid → uid ∈ (req :: reqs).filterMap QuotaRequest.uid :=
        fun uid huid => List.mem_filterMap.mpr ⟨req, List.mem_cons_self, huid⟩
      obtain ⟨htree', T', hbooks⟩ := ends_handle_books htree h
        (fun uid huid => hnew uid (hmem uid huid)) hshallow.1
      have hsub := List.Sublist.filterMap QuotaRequest.uid (List.sublist_cons_self req reqs)
      refine ih htree' hbooks (hsub.nodup hdistinct) ?_ hshallow.2
      intro uid huid
      refine ⟨?_, (hnew uid (hsub.subset huid)).2⟩
      rintro (hu | hu)
      · exact (hnew uid (hsub.subset huid)).1 hu
      · rw [List.filterMap_cons_some hu] at hdistinct
        exact (List.nodup_cons.mp hdistinct).1 huid

/-- **The quota of a drive is kept**, if no bytes are put too deep. -/
theorem balanced_serveQuota (htree : Tree user r used s) (hempty : EmptyDrive user r s)
    {reqs : List QuotaRequest} (hdistinct : (reqs.filterMap QuotaRequest.uid).Nodup)
    (hnew : ∀ uid ∈ reqs.filterMap QuotaRequest.uid, ¬ used uid ∧ uid ≠ r)
    (hshallow : RunsShallow user r reqs s) : Balanced user r (serveQuota user reqs s) := by
  obtain ⟨used', T', htree', hbooks⟩ := books_serveQuota htree hempty.books hdistinct hnew hshallow
  exact hbooks.balanced htree'

/-- A folder, a file in it, and a new limit. -/
def oneFile : List QuotaRequest :=
  [.drive (.mkdir (ascii "/") (ascii "a") 7 0),
    .drive (.upload (ascii "/a") (some ⟨ascii "f", [1, 2, 3]⟩) 7 1), .quotaUpdate (ascii "1"), .quotaStatus]

theorem balanced_serveQuota_oneFile :
    Balanced (ascii "u") (newRoot (ascii "u")) (serveQuota (ascii "u") oneFile (fun _ => none)) := by
  refine balanced_serveQuota (tree_empty (ascii "u")) ⟨rfl, by decide, rfl, rfl⟩ (by decide +kernel)
    (by decide +kernel) ⟨trivial, ?_, trivial, trivial, trivial⟩
  intro p d _ _ _
  decide

/-! ## Too deep -/

/-- What is found stays found when an object is listed. -/
theorem Grown.walkTo {uid d : Bytes} (h : Grown s s' uid d) (hun : ∀ d', uid ∉ kids s d') {cur x : Bytes}
    {parts : List Bytes} (hwalk : walkTo s cur parts = some x) : Drive.walkTo s' cur parts = some x := by
  induction parts generalizing cur with
  | nil => exact hwalk
  | cons part parts ih =>
      obtain ⟨c, hc, hx⟩ := Option.bind_eq_some_iff.mp hwalk
      have hname : ∀ y ∈ kids s cur, nameOf s' y = nameOf s y :=
        fun y hy => nameOf_congr (h.name y (fun heq => hun cur (heq ▸ hy)))
      have hfind : (kids s' cur).find? (fun c => decide (nameOf s' c = part)) = some c := by
        by_cases hd : cur = d
        · rw [hd, h.kids_self, List.find?_append, ← hd, find?_named_congr hname, hc]
          rfl
        · rw [h.kids_other cur hd, find?_named_congr hname, hc]
      rw [Drive.walkTo, hfind]
      exact ih hx

theorem walkTo_append (s : Store Cell Bytes) (cur : Bytes) (parts parts' : List Bytes) :
    walkTo s cur (parts ++ parts') = (walkTo s cur parts).bind (fun c => walkTo s c parts') := by
  induction parts generalizing cur with
  | nil => rfl
  | cons part parts ih =>
      rw [List.cons_append, walkTo, walkTo, Option.bind_assoc]
      exact Option.bind_congr (fun c _ => ih c)

/-- Where there are no bytes, nothing has any. -/
theorem Total.weight_of_zero (h : Total s r 0) {x : Bytes} (hx : Below s r x) : weight s x = 0 := by
  obtain ⟨files, -, hf, hsum⟩ := h
  by_cases ht : typeOf s x = file
  · have hmem : sizeOf s x ∈ files.map (sizeOf s) := List.mem_map.mpr ⟨x, (hf x).mpr ⟨hx, ht⟩, rfl⟩
    rw [weight, if_pos ht]
    exact List.sum_eq_zero_iff_forall_eq_nat.mp hsum.symm _ hmem
  · exact if_neg ht

/-- The user. -/
def deepUser : Bytes := ascii "u"

/-- The name of all folders. -/
def deepName : Bytes := ascii "a"

/-- So many folders down. -/
def deepPath (n : Nat) : Bytes := Csv.join slash (List.replicate n deepName)

/-- The folder there. -/
def deepFolder : Nat → Bytes
  | 0 => newRoot deepUser
  | n + 1 => driveNewUid 0 n

/-- So many folders, each in the one before. -/
def deepFolders (n : Nat) : List QuotaRequest :=
  (List.range n).map (fun i => .drive (.mkdir (deepPath i) deepName 0 i))

/-- And a file of one byte. -/
def deepFile : List QuotaRequest :=
  deepFolders 4096 ++ [.drive (.upload (deepPath 4096) (some ⟨ascii "f", [0]⟩) 0 4096)]

theorem pathParts_deepPath (n : Nat) : pathParts (deepPath n) = List.replicate n deepName := by
  have hclean : ∀ part ∈ List.replicate n deepName, Csv.Clean slash part := by
    intro part hpart
    rw [List.eq_of_mem_replicate hpart]
    exact ⟨by decide, by decide⟩
  have hhead : (deepPath n).head? ≠ some slash := by
    cases n with
    | zero => decide
    | succ n =>
        cases n with
        | zero => decide
        | succ n =>
            rw [deepPath, List.replicate_succ, List.replicate_succ, Csv.join, List.intercalate_cons_cons]
            show some 97 ≠ some slash
            decide
  unfold pathParts
  rw [if_neg hhead]
  exact Csv.fields_join hclean

theorem driveNewUid_injective {n m : Nat} (h : driveNewUid 0 n = driveNewUid 0 m) : n = m :=
  Decimal.text_injective (List.append_cancel_left h)

theorem driveNewUid_ne_root (n : Nat) : driveNewUid 0 n ≠ newRoot deepUser := by
  intro h
  exact absurd (congrArg List.head? h) (by simp [driveNewUid, newRoot, Decimal.text, Decimal.digits, ascii,
    Decimal.digit])

/-- The uids handed out for the folders. -/
def deepUids (n : Nat) : Bytes → Prop := fun x => ∃ i, i < n ∧ x = driveNewUid 0 i

theorem fresh_deepUids (n : Nat) : Fresh (newRoot deepUser) (deepUids n) (driveNewUid 0 n) where
  clean := clean_driveNewUid 0 n
  unused := by
    rintro ⟨i, hi, heq⟩
    have := driveNewUid_injective heq
    omega
  ne_root := driveNewUid_ne_root n

/-- The folders are there, the last one is empty, and nothing has any bytes. -/
structure Deep (n : Nat) (s : Store Cell Bytes) : Prop where
  tree : Tree deepUser (newRoot deepUser) (deepUids n) s
  books : Books deepUser (newRoot deepUser) 0 s
  limit : limitOf deepUser s = defaultDriveQuotaBytes
  walk : walkTo s (newRoot deepUser) (List.replicate n deepName) = some (deepFolder n)
  leaf : kids s (deepFolder n) = []
  folder : deepFolder n ≠ newRoot deepUser → typeOf s (deepFolder n) = folder

/-- The last folder when the root is there. -/
theorem Deep.type {n : Nat} (h : Deep n s) {s₁ : Store Cell Bytes}
    (hopen : Reopened deepUser (newRoot deepUser) (deepUids n) s s₁) :
    typeOf s₁ (deepFolder n) = Drive.folder := by
  by_cases hr : deepFolder n = newRoot deepUser
  · rw [hr, typeOf, hopen.rooted.root_folder]
    rfl
  · rw [typeOf_congr (hopen.frame (.type _) hr)]
    exact h.folder hr

/-- Nothing stands in the way of one more. -/
theorem Deep.not_refused {n : Nat} (h : Deep n s) {s₁ : Store Cell Bytes} {name : Bytes}
    (hname : validComponent name = true) (htype : typeOf s₁ (deepFolder n) = Drive.folder) :
    ¬ Refused (newRoot deepUser) (deepPath n) name s s₁ := by
  intro hno
  rcases hno (deepFolder n) (by rw [pathParts_deepPath]; exact h.walk) with ht | hv | hk
  · exact ht htype
  · rw [hname] at hv
    exact absurd hv (by simp)
  · exact hk h.leaf

theorem Deep.step {n : Nat} (h : Deep n s) :
    Deep (n + 1) (run (handleMkdir deepUser (deepPath n) deepName (driveNewUid 0 n)) s).2 := by
  have hf := fresh_deepUids n
  have hvalid : validComponent deepName = true := by decide
  have htree := ends_handleMkdir h.tree (deepPath n) deepName hf
  have hused : withUid (deepUids n) (driveNewUid 0 n) = deepUids (n + 1) := by
    funext x
    refine propext ⟨?_, ?_⟩
    · rintro (⟨i, hi, rfl⟩ | rfl)
      · exact ⟨i, by omega, rfl⟩
      · exact ⟨n, by omega, rfl⟩
    · rintro ⟨i, hi, rfl⟩
      rcases Nat.lt_succ_iff_lt_or_eq.mp hi with hi | rfl
      · exact .inl ⟨i, hi, rfl⟩
      · exact .inr rfl
  rw [hused] at htree
  have hmade : Ends (handleMkdir deepUser (deepPath n) deepName (driveNewUid 0 n)) (fun _ s' =>
      limitOf deepUser s' = defaultDriveQuotaBytes ∧
        walkTo s' (newRoot deepUser) (List.replicate (n + 1) deepName) = some (driveNewUid 0 n) ∧
        kids s' (driveNewUid 0 n) = [] ∧ typeOf s' (driveNewUid 0 n) = Drive.folder) s := by
    refine ends_handleMkdir_cases h.tree hf (fun hbad => ?_) (fun s₁ hopen hno => ?_) ?_
    · rw [hvalid] at hbad
      exact absurd hbad (by simp)
    · exact absurd hno (h.not_refused hvalid (h.type hopen))
    · intro s₁ d s₂ hopen hwalk hnew
      have htree₁ := hopen.rooted.toTree
      rw [pathParts_deepPath, h.walk] at hwalk
      obtain rfl := Option.some.inj hwalk
      have hne : driveNewUid 0 n ≠ deepFolder n := by
        intro heq
        have hb : Below s₁ (newRoot deepUser) (deepFolder n) :=
          (level_of_walkTo ((hopen.walkTo _ _).trans h.walk)).toBelow
        exact htree₁.notBelow_of_unused hf (heq ▸ hb)
      have hkids : kids s₁ (driveNewUid 0 n) = [] := htree₁.kids_unused hf.unused hf.ne_root
      have hname : nameOf s₂ (driveNewUid 0 n) = deepName := by
        rw [nameOf, hnew.name]
        rfl
      refine ⟨hnew.counters.limit.trans (hopen.counters.limit.trans h.limit), ?_, ?_, ?_⟩
      · rw [List.replicate_succ', walkTo_append,
          hnew.grown.walkTo (fun d' hx => hf.unused (htree₁.listed d' _ hx))
            ((hopen.walkTo _ _).trans h.walk)]
        show ((kids s₂ (deepFolder n)).find? (fun c => decide (nameOf s₂ c = deepName))).bind some = _
        rw [hnew.grown.kids_self, hopen.same, h.leaf, List.nil_append, List.find?_cons, hname]
        rfl
      · rw [hnew.grown.kids_other _ hne, hkids]
      · rw [typeOf, hnew.type]
        rfl
  exact ⟨htree, ends_handleMkdir_books h.tree h.books (deepPath n) deepName hf, hmade.1, hmade.2.1,
    hmade.2.2.1, fun _ => hmade.2.2.2⟩

theorem deep_serveQuota (n : Nat) : Deep n (serveQuota deepUser (deepFolders n) (fun _ => none)) := by
  induction n with
  | zero =>
      refine ⟨?_, EmptyDrive.books ⟨rfl, by decide, rfl, rfl⟩, rfl, rfl, rfl, fun h => absurd rfl h⟩
      have hnone : deepUids 0 = fun _ => False := by
        funext x
        exact propext ⟨fun ⟨i, hi, _⟩ => by omega, False.elim⟩
      rw [hnone]
      exact tree_empty deepUser
  | succ n ih =>
      have hsplit : deepFolders (n + 1) = deepFolders n ++ [.drive (.mkdir (deepPath n) deepName 0 n)] := by
        rw [deepFolders, List.range_succ, List.map_append]
        rfl
      rw [hsplit, serveQuota_concat, run_drive]
      exact ih.step

/-- **Bytes that no traversal comes to.** They count, and are not counted. -/
theorem not_balanced_of_unreached (htree : Tree user r used s) (h : Held r T s) (hpos : T ≠ 0)
    (hunreached : ∀ n x, Level s r n x → weight s x ≠ 0 → 4096 < n) : ¬ Balanced user r s := by
  rintro ⟨n, htotal, hused, -⟩
  obtain rfl := htotal.unique h.total
  have hzero : Ends (userDriveUsedBytes user) (fun n _ => n = 0) s := by
    refine Ends.bind ((ends_ensureDriveRoot_reopened htree).mono ?_)
    rintro _ s₁ ⟨rfl, hopen⟩
    have hsum : bytesOf s₁ (nodes s₁ 4097 r) = 0 := by
      refine List.sum_eq_zero_iff_forall_eq_nat.mpr (fun w hw => ?_)
      obtain ⟨x, hx, rfl⟩ := List.mem_map.mp hw
      obtain ⟨k, hk, hlevel⟩ := mem_nodes.mp hx
      have hlevel : Level s r k x := (Level.agree hopen.agree.kids).mp hlevel
      rw [hopen.agree.weight h.top hlevel.toBelow]
      by_contra hne
      have := hunreached k x hlevel hne
      omega
    have hheld := h.agree hopen.agree
    refine Ends.bind ?_
    rw [Ends, run_subtreeBytesInner hopen.rooted.toTree.branching .self (fun _ _ => List.not_mem_nil) ?_ (by omega)]
    · exact hsum
    · intro y hy ht
      obtain ⟨k, -, hk⟩ := mem_nodes.mp hy
      exact hheld.sized y hk.toBelow ht
  exact hpos (hused.symm.trans hzero)

/-- A file below all the folders. -/
theorem not_balanced_of_deep (h : Deep 4096 s) :
    ¬ Balanced deepUser (newRoot deepUser)
      (run (handleUpload deepUser (deepPath 4096) (some ⟨ascii "f", [0]⟩) (driveNewUid 0 4096)) s).2 := by
  have hf := fresh_deepUids 4096
  have hvalid : validComponent (ascii "f") = true := by decide
  have htree := ends_handleUpload h.tree (deepPath 4096) (some ⟨ascii "f", [0]⟩) hf
  have hcase : Ends (handleUpload deepUser (deepPath 4096) (some ⟨ascii "f", [0]⟩) (driveNewUid 0 4096))
      (fun _ s' => Tree deepUser (newRoot deepUser) (withUid (deepUids 4096) (driveNewUid 0 4096)) s' →
        ¬ Balanced deepUser (newRoot deepUser) s') s := by
    refine ends_handleUpload_cases h.tree h.books hf ?_ ?_ ?_ ?_
    · rintro (hbad | hbad)
      · exact absurd hbad (by decide)
      · exact absurd hbad (by decide)
    · intro s₀ _ hbad
      rw [h.limit] at hbad
      exact absurd hbad (by decide)
    · intro s₀ s₁ haud hopen hno
      refine absurd hno (h.not_refused hvalid ?_)
      by_cases hr : deepFolder 4096 = newRoot deepUser
      · rw [hr, typeOf, hopen.rooted.root_folder]
        rfl
      · rw [typeOf_congr (hopen.frame (.type _) hr), typeOf_congr (haud.type _ hr)]
        exact h.folder hr
    · intro s₀ s₁ d s₂ haud hopen hsize _ hwalk hmade htree₂
      have htree₁ := hopen.rooted.toTree
      have hbooks := haud.books.agree hopen.agree hopen.counters
      have hlevel : Level s₁ (newRoot deepUser) 4096 d := by
        have := level_of_walkTo ((hopen.walkTo _ _).trans ((haud.walk _).trans hwalk))
        rwa [pathParts_deepPath, List.length_replicate] at this
      have hheld := hmade.held htree₁ hf hlevel.toBelow hbooks.toHeld hsize
      have hkids : kids s₁ (driveNewUid 0 4096) = [] := htree₁.kids_unused hf.unused hf.ne_root
      have hout : ¬ Below s₁ (driveNewUid 0 4096) d := fun hb =>
        htree₁.notBelow_of_unused hf (Grown.below_leaf hkids hb ▸ hlevel.toBelow)
      refine not_balanced_of_unreached htree₂ (hheld.usedBytes _) (by decide) ?_
      intro n x hx hw
      have hx : Level s₂ (newRoot deepUser) n x := (Level.agree (agree_usedBytes s₂ _ deepUser _).kids).mp hx
      have hw : weight s₂ x ≠ 0 := hw
      rcases (htree₁.branching.level_link hmade.grown.mem hlevel hout).mp hx with hx | ⟨j, -, rfl⟩
      · -- what was there before has no bytes
        have hne : x ≠ driveNewUid 0 4096 := fun heq => htree₁.notBelow_of_unused hf (heq ▸ hx.toBelow)
        rw [weight_congr (hmade.grown.type x hne) (hmade.grown.size x hne)] at hw
        exact absurd (hbooks.total.weight_of_zero hx.toBelow) hw
      · omega
  exact hcase htree

theorem uids_deepFolders (n : Nat) (path : Bytes) (part : Option FilePart) :
    (deepFolders n ++ [QuotaRequest.drive (.upload path part 0 n)]).filterMap QuotaRequest.uid =
      (List.range (n + 1)).map (driveNewUid 0) := by
  have hfolders : (deepFolders n).filterMap QuotaRequest.uid = (List.range n).map (driveNewUid 0) := by
    rw [deepFolders, List.filterMap_map, ← List.filterMap_eq_map]
    rfl
  rw [List.filterMap_append, hfolders, List.range_succ, List.map_append]
  rfl

/-- **A file too deep.** The counter has its byte and the traversal has not. -/
theorem not_balanced_deepFile : (deepFile.filterMap QuotaRequest.uid).Nodup ∧
    ¬ Balanced deepUser (newRoot deepUser) (serveQuota deepUser deepFile (fun _ => none)) := by
  constructor
  · rw [deepFile, uids_deepFolders]
    exact List.Nodup.map (fun _ _ h => driveNewUid_injective h) List.nodup_range
  · rw [deepFile, serveQuota_concat, run_drive, Request.handle]
    exact not_balanced_of_deep (deep_serveQuota 4096)

end NCloud.Frontend.Drive
