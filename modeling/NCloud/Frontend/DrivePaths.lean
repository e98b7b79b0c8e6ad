import NCloud.Frontend.DriveAccounting

/-!
# Paths and objects

`build_path` goes up from an object and writes down the names it comes by, `resolve_path`
goes down again. `parent_path`, `path_basename` and `join_path` take paths apart and put
them together as texts, without a look at the drive. All of them agree on what matters of
a path, which are its parts: slashes can be left out at both ends and doubled in between.
-/

namespace NCloud.Frontend.Drive

open Process Wire KeyValue

variable {user r : Bytes} {used : Bytes → Prop} {s s' : Store Cell Bytes}

/-! ## Paths as texts -/

theorem pathParts_eq (path : Bytes) : pathParts path = Csv.fields slash path := by
  rw [pathParts]
  cases path with
  | nil => rfl
  | cons b path =>
      split
      · rename_i hb
        obtain rfl : b = slash := Option.some.inj hb
        exact (Csv.fields_cons_sep path).symm
      · rfl

/-- Slashes at the end. -/
theorem fields_append_slashes (body : Bytes) {slashes : Bytes} (h : ∀ b ∈ slashes, b = slash) :
    Csv.fields slash (body ++ slashes) = Csv.fields slash body := by
  induction slashes generalizing body with
  | nil => rw [List.append_nil]
  | cons b slashes ih =>
      obtain rfl := h b List.mem_cons_self
      have hrest := ih [] (fun c hc => h c (List.mem_cons_of_mem _ hc))
      rw [List.nil_append] at hrest
      rw [Csv.fields_append_sep, hrest, Csv.fields_nil, List.append_nil]

/-- A path is what is left without the slashes at its end, and these. -/
theorem eq_stripEnd_append (path : Bytes) :
    path = stripEnd path ++ (path.reverse.takeWhile (· = slash)).reverse := by
  rw [stripEnd, ← List.reverse_append, List.takeWhile_append_dropWhile, List.reverse_reverse]

theorem fields_stripEnd (path : Bytes) : Csv.fields slash (stripEnd path) = Csv.fields slash path := by
  have hslashes : ∀ b ∈ (path.reverse.takeWhile (· = slash)).reverse, b = slash := by
    intro b hb
    rw [List.mem_reverse] at hb
    simpa using List.mem_takeWhile_imp hb
  have h := fields_append_slashes (stripEnd path) hslashes
  rw [← eq_stripEnd_append] at h
  exact h.symm

/-- What is left is nothing, or ends with a part. -/
theorem stripEnd_cases (path : Bytes) :
    stripEnd path = [] ∨ ∃ front b, stripEnd path = front ++ [b] ∧ b ≠ slash := by
  rw [stripEnd]
  cases hdrop : path.reverse.dropWhile (· = slash) with
  | nil => exact .inl rfl
  | cons b rest =>
      refine .inr ⟨rest.reverse, b, by rw [List.reverse_cons], ?_⟩
      have hhead := List.head?_dropWhile_not (· = slash) path.reverse
      rw [hdrop] at hhead
      simpa using hhead

/-- The last slash of a text, and what is around it. -/
theorem exists_split {body : Bytes} (h : slash ∈ body) :
    ∃ front base, body = front ++ slash :: base ∧ slash ∉ base ∧
      ((body.reverse.dropWhile (· ≠ slash)).drop 1).reverse = front ∧
      (body.reverse.takeWhile (· ≠ slash)).reverse = base := by
  have hsplit := List.takeWhile_append_dropWhile (p := fun b => decide (b ≠ slash)) (l := body.reverse)
  cases hdrop : body.reverse.dropWhile (fun b => decide (b ≠ slash)) with
  | nil =>
      have hall := List.dropWhile_eq_nil_iff.mp hdrop slash (List.mem_reverse.mpr h)
      exact absurd hall (by simp)
  | cons b rest =>
      have hb : b = slash := by
        have hhead := List.head?_dropWhile_not (fun b => decide (b ≠ slash)) body.reverse
        rw [hdrop] at hhead
        simpa using hhead
      refine ⟨rest.reverse, (body.reverse.takeWhile (fun b => decide (b ≠ slash))).reverse, ?_, ?_, rfl, rfl⟩
      · rw [hdrop, hb] at hsplit
        have hrev := congrArg List.reverse hsplit
        rw [List.reverse_reverse, List.reverse_append, List.reverse_cons, List.append_assoc] at hrev
        exact hrev.symm
      · intro hmem
        have hne := List.mem_takeWhile_imp (List.mem_reverse.mp hmem)
        simp at hne

/-- **A path is its parent and its last part.** -/
theorem pathParts_parent_basename {path : Bytes} (h : pathParts path ≠ []) :
    pathParts path = pathParts (parentPath path) ++ [pathBasename path] := by
  have hroot : ¬ (path = [] ∨ path = [slash]) := by
    rintro (rfl | rfl)
    · exact h rfl
    · exact h rfl
  rw [pathParts_eq, pathParts_eq, parentPath, pathBasename, if_neg hroot, if_neg hroot, ← fields_stripEnd path]
  rw [pathParts_eq, ← fields_stripEnd path] at h
  dsimp only
  rcases stripEnd_cases path with hnil | ⟨front, b, hbody, hb⟩
  · rw [hnil] at h
    exact absurd rfl h
  · by_cases hslash : slash ∈ stripEnd path
    · obtain ⟨front', base, hsplit, hbase, hdrop, htake⟩ := exists_split hslash
      have hne : base ≠ [] := by
        rintro rfl
        rw [hbody] at hsplit
        exact hb (List.singleton_inj.mp (List.append_inj' hsplit rfl).2)
      have hclean : Csv.Clean slash base := ⟨hne, hbase⟩
      have hlen : ¬ (stripEnd path).length ≤ 1 := by
        have hpos := List.length_pos_of_ne_nil hne
        rw [hsplit, List.length_append, List.length_cons]
        omega
      rw [hdrop, htake, if_neg hlen]
      conv_lhs => rw [hsplit]
      rw [Csv.fields_append_sep, Csv.fields_of_clean hclean]
      by_cases hfront : front' = []
      · rw [if_pos (.inr hfront), hfront]
        rfl
      · rw [if_neg (by simp [hslash, hfront])]
    · have hclean : Csv.Clean slash (stripEnd path) := ⟨by rw [hbody]; simp, hslash⟩
      have htake : ((stripEnd path).reverse.takeWhile (· ≠ slash)).reverse = stripEnd path := by
        rw [List.takeWhile_eq_self_iff.mpr, List.reverse_reverse]
        intro c hc
        have hne : c ≠ slash := fun heq => hslash (heq ▸ List.mem_reverse.mp hc)
        simpa using hne
      have hparent : (if (stripEnd path).length ≤ 1 then [slash]
          else if slash ∉ stripEnd path ∨ (((stripEnd path).reverse.dropWhile (· ≠ slash)).drop 1).reverse = [] then
            [slash]
          else (((stripEnd path).reverse.dropWhile (· ≠ slash)).drop 1).reverse) = [slash] := by
        split
        · rfl
        · exact if_pos (.inl hslash)
      rw [hparent, htake, Csv.fields_of_clean hclean]
      rfl

/-- **Joined paths** have the parts of both. -/
theorem pathParts_joinPath (parent name : Bytes) :
    pathParts (joinPath parent name) = pathParts parent ++ pathParts name := by
  rw [pathParts_eq, pathParts_eq, pathParts_eq, joinPath]
  split
  · rename_i hroot
    rw [Csv.fields_cons_sep]
    rcases hroot with rfl | rfl
    · rfl
    · rfl
  · exact Csv.fields_append_sep parent name

/-! ## From an object to its path -/

/-- The names on the way down to an object. -/
structure Named (s : Store Cell Bytes) (r : Bytes) (names : List Bytes) (x : Bytes) : Prop where
  walk : walkTo s r names = some x
  clean : ∀ name ∈ names, Csv.Clean slash name

theorem clean_of_validComponent {name : Bytes} (h : validComponent name = true) : Csv.Clean slash name := by
  simp only [validComponent, Bool.and_eq_true, decide_eq_true_eq] at h
  exact ⟨h.1.1.1.1.1.1, h.1.1.1.1.1.2⟩

/-- Among the objects of a folder a name finds the one that has it. -/
theorem Tree.find?_name (h : Tree user r used s) {d x : Bytes} (hx : x ∈ kids s d) :
    (kids s d).find? (fun c => decide (nameOf s c = nameOf s x)) = some x := by
  cases hfind : (kids s d).find? (fun c => decide (nameOf s c = nameOf s x)) with
  | none =>
      exact absurd (decide_eq_true rfl) (List.find?_eq_none.mp hfind x hx)
  | some y =>
      have hy : nameOf s y = nameOf s x := by simpa using List.find?_some hfind
      rw [h.names d y x (List.mem_of_find?_eq_some hfind) hx hy]

/-- **One level down.** -/
theorem Named.child (h : Tree user r used s) {names : List Bytes} {d x : Bytes} (hd : Named s r names d)
    (hx : x ∈ kids s d) : Named s r (names ++ [nameOf s x]) x := by
  refine ⟨?_, ?_⟩
  · rw [walkTo_append, hd.walk, Option.bind_some, walkTo, h.find?_name hx]
    rfl
  · intro name hname
    rcases List.mem_append.mp hname with hname | hname
    · exact hd.clean name hname
    · obtain ⟨stored, hstored, hvalid⟩ := h.valid d x hx
      rw [List.mem_singleton.mp hname, nameOf, hstored]
      exact clean_of_validComponent hvalid

/-- **What the loop of `build_path` comes to**, once it may take a turn for each level and
one for the root. -/
theorem run_buildNames (h : Tree user r used s) {n : Nat} {x : Bytes} (hx : Level s r n x) :
    ∃ names, Named s r names x ∧ ∀ fuel, n < fuel → run (buildNames fuel x) s = (some names.reverse, s) := by
  induction hx with
  | self =>
      refine ⟨[], ⟨rfl, nofun⟩, fun fuel hfuel => ?_⟩
      obtain ⟨fuel, rfl⟩ : ∃ m, fuel = m + 1 := ⟨fuel - 1, by omega⟩
      rw [buildNames, if_neg h.root_ne, run_bind, run_getStr, run_bind, run_getStr]
      show run (if parentOf s r = [] then pure (some []) else _) s = _
      rw [if_pos h.root_parent]
      rfl
  | @child n d x hd hx ih =>
      obtain ⟨names, hnamed, hrun⟩ := ih
      refine ⟨names ++ [nameOf s x], hnamed.child h hx, fun fuel hfuel => ?_⟩
      obtain ⟨fuel, rfl⟩ : ∃ m, fuel = m + 1 := ⟨fuel - 1, by omega⟩
      have hdne : d ≠ [] := by
        rcases Tree.below_cases hd.toBelow with rfl | ⟨d', -, hmem⟩
        · exact h.root_ne
        · exact h.ne_nil hmem
      rw [buildNames, if_neg (h.ne_nil hx), run_bind, run_getStr, run_bind, run_getStr]
      have hparent : (s (.parent x)).getD default = d := h.parentOf_of_mem hx
      rw [hparent, if_neg hdne, run_bind, hrun fuel (by omega), List.reverse_append]
      rfl

/-- One more name behind a path. -/
def addName (path name : Bytes) : Bytes := (if path.length > 1 then path ++ [slash] else path) ++ name

theorem pathParts_foldl_addName {names : List Bytes} (h : ∀ name ∈ names, Csv.Clean slash name) {path : Bytes}
    (hpath : path = [slash] ∨ 1 < path.length) :
    pathParts (names.foldl addName path) = pathParts path ++ names := by
  induction names generalizing path with
  | nil => rw [List.foldl_nil, List.append_nil]
  | cons name names ih =>
      have hname := h name List.mem_cons_self
      have hpos := List.length_pos_of_ne_nil hname.ne_nil
      have hstep : pathParts (addName path name) = pathParts path ++ [name] ∧ 1 < (addName path name).length := by
        rw [pathParts_eq, pathParts_eq, addName]
        rcases hpath with rfl | hlong
        · rw [if_neg (by decide)]
          refine ⟨?_, ?_⟩
          · rw [List.singleton_append, Csv.fields_cons_sep, Csv.fields_of_clean hname]
            rfl
          · rw [List.length_append, List.length_singleton]
            omega
        · rw [if_pos hlong]
          refine ⟨?_, ?_⟩
          · rw [List.append_assoc, List.singleton_append, Csv.fields_append_sep, Csv.fields_of_clean hname]
          · rw [List.length_append, List.length_append]
            omega
      rw [List.foldl_cons, ih (fun n hn => h n (List.mem_cons_of_mem _ hn)) (.inr hstep.2), hstep.1,
        List.append_assoc, List.singleton_append]

/-- **`build_path`** spells the names. -/
theorem run_buildPath (h : Tree user r used s) {n : Nat} {x : Bytes} (hx : Level s r n x) :
    ∃ path, walkTo s r (pathParts path) = some x ∧
      ∀ fuel, n < fuel → run (buildPath fuel x) s = (some path, s) := by
  obtain ⟨names, hnamed, hrun⟩ := run_buildNames h hx
  refine ⟨names.foldl addName [slash], ?_, fun fuel hfuel => ?_⟩
  · rw [pathParts_foldl_addName hnamed.clean (.inl rfl)]
    exact hnamed.walk
  · rw [buildPath, run_bind, hrun fuel hfuel]
    show (some (names.reverse.reverse.foldl addName [slash]), s) = _
    rw [List.reverse_reverse]

/-! ## Both ways -/

/-- What `resolve_path` finds. -/
def resolved (user path : Bytes) (s : Store Cell Bytes) : Option Bytes :=
  (run (resolvePath user path) s).1.map Prod.fst

theorem resolved_eq (h : Tree user r used s) (path : Bytes) : resolved user path s = walkTo s r (pathParts path) := by
  have hres := (ends_resolvePath_walkTo h path).2
  rw [resolved, hres, Option.map_map]
  exact Option.map_id'

/-- Paths and objects below a root are inverse to each other. -/
structure PathsInverse (user r : Bytes) (s : Store Cell Bytes) : Prop where
  /-- The path of an object leads to it, whenever `build_path` has turns enough. -/
  build : ∀ x, Below s r x → ∃ path n, (∀ fuel, n ≤ fuel → run (buildPath fuel x) s = (some path, s)) ∧
    resolved user path s = some x
  parent : ∀ path x, resolved user path s = some x → x ≠ r →
    resolved user (parentPath path) s = some (parentOf s x)
  basename : ∀ path x, resolved user path s = some x → x ≠ r → pathBasename path = nameOf s x
  join : ∀ path x, resolved user path s = some x → x ≠ r →
    resolved user (joinPath (parentPath path) (pathBasename path)) s = some x

/-- The last step of a path that does not lead to the root. -/
theorem Tree.last_step (h : Tree user r used s) {path x : Bytes} (hres : resolved user path s = some x)
    (hx : x ≠ r) : ∃ d, pathParts path = pathParts (parentPath path) ++ [pathBasename path] ∧
      walkTo s r (pathParts (parentPath path)) = some d ∧ x ∈ kids s d ∧ nameOf s x = pathBasename path := by
  rw [resolved_eq h] at hres
  have hne : pathParts path ≠ [] := by
    intro hnil
    rw [hnil] at hres
    exact hx (Option.some.inj hres).symm
  have hparts := pathParts_parent_basename hne
  rw [hparts, walkTo_append] at hres
  obtain ⟨d, hd, hlast⟩ := Option.bind_eq_some_iff.mp hres
  rw [walkTo] at hlast
  obtain ⟨c, hfind, hc⟩ := Option.bind_eq_some_iff.mp hlast
  obtain rfl : c = x := Option.some.inj hc
  exact ⟨d, hparts, hd, List.mem_of_find?_eq_some hfind, by simpa using List.find?_some hfind⟩

/-- **In a tree they are.** -/
theorem Tree.pathsInverse (h : Tree user r used s) : PathsInverse user r s where
  build := by
    intro x hx
    obtain ⟨n, hlevel⟩ := Level.of_below hx
    obtain ⟨path, hwalk, hrun⟩ := run_buildPath h hlevel
    exact ⟨path, n + 1, fun fuel hfuel => hrun fuel (Nat.lt_of_succ_le hfuel), (resolved_eq h path).trans hwalk⟩
  parent := by
    intro path x hres hx
    obtain ⟨d, -, hd, hmem, -⟩ := h.last_step hres hx
    rw [resolved_eq h, hd, h.parentOf_of_mem hmem]
  basename := by
    intro path x hres hx
    obtain ⟨d, -, -, -, hname⟩ := h.last_step hres hx
    exact hname.symm
  join := by
    intro path x hres hx
    obtain ⟨d, hparts, hd, hmem, hname⟩ := h.last_step hres hx
    obtain ⟨stored, hstored, hvalid⟩ := h.valid d x hmem
    have hclean : Csv.Clean slash (pathBasename path) := by
      rw [← hname, nameOf, hstored]
      exact clean_of_validComponent hvalid
    have hone : pathParts (pathBasename path) = [pathBasename path] := by
      rw [pathParts_eq, Csv.fields_of_clean hclean]
    rw [resolved_eq h, pathParts_joinPath, hone, ← hparts, ← resolved_eq h]
    exact hres

/-! ## Sequences of requests -/

theorem ends_handleQuotaStatus (h : Tree user r used s) :
    Ends (handleQuotaStatus user) (fun _ s' => Tree user r used s') s := by
  refine ends_known (fun _ => rfl) (Ends.bind ?_)
  rw [Ends, run_userDriveQuotaBytes]
  exact Ends.bind ((ends_userDriveUsedBytesReconciled h).mono (fun _ _ hs => hs))

theorem ends_handleQuotaUpdate (h : Tree user r used s) (limit : Bytes) :
    Ends (handleQuotaUpdate user limit) (fun _ s' => Tree user r used s') s := by
  show Ends (if parseSizeOr limit 0 = 0 ∨ parseSizeOr limit 0 > maxQuotaMb then _ else _) _ s
  split
  · exact h
  · refine Ends.bind ((ends_userDriveUsedBytesReconciled h).mono ?_)
    intro n s₁ h₁
    show Ends (if sizeT (parseSizeOr limit 0 * mib) < n then _ else _) _ s₁
    split
    · exact h₁
    · refine ends_put (ends_handleQuotaStatus (h₁.aside (fun k hk => Function.update_of_ne ?_ ..)))
      rintro rfl
      exact hk trivial

/-- One request to the drive or its quota. -/
theorem ends_quotaRequest (h : Tree user r used s) {req : QuotaRequest}
    (hnew : ∀ uid, req.uid = some uid → ¬ used uid ∧ uid ≠ r) :
    Ends (req.handle user) (fun _ s' => Tree user r (fun x => used x ∨ req.uid = some x) s') s := by
  have hnone : ∀ {s' : Store Cell Bytes}, req.uid = none → Tree user r used s' →
      Tree user r (fun x => used x ∨ req.uid = some x) s' := by
    intro s' huid h'
    rw [huid]
    have hsame : (fun x => used x ∨ (none : Option Bytes) = some x) = used := by
      funext x
      exact propext ⟨fun hx => hx.resolve_right nofun, .inl⟩
    rwa [hsame]
  cases req with
  | drive req => exact Ends.bind ((ends_handle h hnew).mono (fun _ _ hs => hs))
  | quotaStatus => exact Ends.bind ((ends_handleQuotaStatus h).mono (fun _ _ hs => hnone rfl hs))
  | quotaUpdate limit => exact Ends.bind ((ends_handleQuotaUpdate h limit).mono (fun _ _ hs => hnone rfl hs))

/-- **Drive stays a tree**, also when the quota is asked for and changed. -/
theorem tree_serveQuota (h : Tree user r used s) {reqs : List QuotaRequest}
    (hdistinct : (reqs.filterMap QuotaRequest.uid).Nodup)
    (hnew : ∀ uid ∈ reqs.filterMap QuotaRequest.uid, ¬ used uid ∧ uid ≠ r) :
    ∃ used', Tree user r used' (serveQuota user reqs s) := by
  induction reqs generalizing s used with
  | nil => exact ⟨used, h⟩
  | cons req reqs ih =>
      have hmem : ∀ uid, req.uid = some uid → uid ∈ (req :: reqs).filterMap QuotaRequest.uid :=
        fun uid huid => List.mem_filterMap.mpr ⟨req, List.mem_cons_self, huid⟩
      have hfresh : ∀ uid, req.uid = some uid → ¬ used uid ∧ uid ≠ r := fun uid huid => hnew uid (hmem uid huid)
      have hone := ends_quotaRequest h hfresh
      refine ih hone ?_ ?_
      · exact (List.Sublist.filterMap _ (List.sublist_cons_self req reqs)).nodup hdistinct
      · intro uid huid
        have hlater : uid ∈ (req :: reqs).filterMap QuotaRequest.uid := by
          obtain ⟨req', hreq', huid⟩ := List.mem_filterMap.mp huid
          exact List.mem_filterMap.mpr ⟨req', List.mem_cons_of_mem _ hreq', huid⟩
        refine ⟨?_, (hnew uid hlater).2⟩
        rintro (hu | hu)
        · exact (hnew uid hlater).1 hu
        · rw [List.filterMap_cons_some hu] at hdistinct
          exact (List.nodup_cons.mp hdistinct).1 huid

/-- The root of a user, or the one that a first request will make. -/
def rootOf (user : Bytes) (s : Store Cell Bytes) : Bytes := (s (.root user)).getD (newRoot user)

/-- **After any requests paths and objects are inverse to each other.** -/
theorem pathsInverse_serveQuota (h : Tree user r used s) {reqs : List QuotaRequest}
    (hdistinct : (reqs.filterMap QuotaRequest.uid).Nodup)
    (hnew : ∀ uid ∈ reqs.filterMap QuotaRequest.uid, ¬ used uid ∧ uid ≠ r) :
    PathsInverse user (rootOf user (serveQuota user reqs s)) (serveQuota user reqs s) := by
  obtain ⟨used', htree⟩ := tree_serveQuota h hdistinct hnew
  have hr : rootOf user (serveQuota user reqs s) = r := by
    rw [rootOf]
    rcases htree.root with hroot | ⟨hroot, hnewRoot, -⟩
    · rw [hroot]
      rfl
    · rw [hroot, hnewRoot]
      rfl
  rw [hr]
  exact htree.pathsInverse

/-- A folder in a folder, renamed. -/
def renamedFolder : List QuotaRequest :=
  [.drive (.mkdir (ascii "/") (ascii "a") 7 0), .drive (.mkdir (ascii "a//") (ascii "b") 7 1), .quotaStatus,
    .drive (.rename (ascii "/a/b/") (ascii "c"))]

theorem pathsInverse_serveQuota_renamedFolder :
    PathsInverse (ascii "u") (rootOf (ascii "u") (serveQuota (ascii "u") renamedFolder (fun _ => none)))
      (serveQuota (ascii "u") renamedFolder (fun _ => none)) :=
  pathsInverse_serveQuota (tree_empty (ascii "u")) (by decide +kernel) (by decide +kernel)

end NCloud.Frontend.Drive
