import NCloud.Lib.Decimal
import NCloud.Frontend.Cells

/-!
# Drive

The Drive part of `fe_server.cc`. An object has a row with its type, name and parent; a
folder has a row with the list of its children. A tree is thus kept twice, in the lists
and in the parent columns, and every request updates the two one cell at a time.
-/

namespace NCloud.Frontend

open Process Wire KeyValue

namespace Drive

/-! ## Paths -/

/-- `/`. -/
def slash : UInt8 := 47

/-- A path without the slashes at its end. -/
def stripEnd (path : Bytes) : Bytes := (path.reverse.dropWhile (· = slash)).reverse

/-- `parent_path`. -/
def parentPath (path : Bytes) : Bytes :=
  let body := stripEnd path
  if path = [] ∨ path = [slash] then [slash]
  else if body.length ≤ 1 then [slash]
  else
    let front := ((body.reverse.dropWhile (· ≠ slash)).drop 1).reverse
    if slash ∉ body ∨ front = [] then [slash] else front

/-- `path_basename`. -/
def pathBasename (path : Bytes) : Bytes :=
  if path = [] ∨ path = [slash] then [] else ((stripEnd path).reverse.takeWhile (· ≠ slash)).reverse

/-- `join_path`. -/
def joinPath (parent name : Bytes) : Bytes :=
  if parent = [] ∨ parent = [slash] then slash :: name else parent ++ slash :: name

/-- `valid_component`. -/
def validComponent (name : Bytes) : Bool :=
  decide (name ≠ []) && decide (slash ∉ name) && decide (name ≠ ascii ".") &&
    decide (name ≠ ascii "..") && decide (name.head? ≠ some 32) && decide (name.getLast? ≠ some 32) &&
    name.all (fun c => decide (¬ (c < 0x20 ∨ c = 0x7F)))

/-- The parts of a path, as `resolve_path` goes through them. -/
def pathParts (path : Bytes) : List Bytes :=
  let norm := if path.head? = some slash then path.drop 1 else path
  Csv.fields slash norm

/-! ## Objects -/

/-- The type of a folder. -/
def folder : Bytes := ascii "folder"

/-- The type of a file. -/
def file : Bytes := ascii "file"

/-- The uid that a first request gives the root. -/
def newRoot (user : Bytes) : Bytes := ascii "root:" ++ user

/-- `drive_new_uid`: the time in nanoseconds and a counter. -/
def driveNewUid (ns seq : Nat) : Bytes := Decimal.text ns ++ ascii "_" ++ Decimal.text seq

/-- Writes in a row, up to the first that fails. -/
def putAll : List (Cell × Bytes) → FeProg Bool
  | [] => return true
  | (k, v) :: rest => do
      if !(← put k v) then return false
      putAll rest

/-- The first four cells of a root. -/
def rootCells (user uid : Bytes) : List (Cell × Bytes) :=
  [(.type uid, folder), (.name uid, [slash]), (.parent uid, []), (.owner uid, user)]

/-- `ensure_drive_root`. -/
def ensureDriveRoot (user : Bytes) : FeProg (Option Bytes) := do
  match ← getStatus (.root user) with
  | .found root =>
      if root = [] then return none
      match ← getStatus (.type root) with
      | .unavailable => return none
      | type =>
          let ok ← match type with
            | .found t => if t ≠ folder then putAll (rootCells user root) else pure true
            | _ => putAll (rootCells user root)
          if !ok then return none
          match ← getStatus (.children root) with
          | .unavailable => return none
          | .notFound =>
              if !(← put (.children root) []) then return none
              return some root
          | .found _ => return some root
  | .unavailable => return none
  | .notFound =>
      let root := newRoot user
      if !(← putAll ((.root user, root) :: rootCells user root ++ [(.children root, [])])) then return none
      return some root

/-- The first of some objects with this name. -/
def findChild (part : Bytes) : List Bytes → FeProg (Option Bytes)
  | [] => return none
  | child :: rest => do
      if (← getStr (.name child)) = part then return some child
      findChild part rest

/-- The loop of `resolve_path`. -/
def walk (cur : Bytes) : List Bytes → FeProg (Option Bytes)
  | [] => return some cur
  | part :: parts => do
      match ← findChild part (splitCsv (← getStr (.children cur))) with
      | none => return none
      | some child => walk child parts

/-- `resolve_path`: uid and type. -/
def resolvePath (user path : Bytes) : FeProg (Option (Bytes × Bytes)) := do
  match ← ensureDriveRoot user with
  | none => return none
  | some root =>
      if path = [] ∨ path = [slash] then return some (root, folder)
      match ← walk root (pathParts path) with
      | none => return none
      | some cur => return some (cur, ← getStr (.type cur))

/-- `add_candidate`. -/
def addCandidate (candidates : List Bytes) (p : Bytes) : List Bytes :=
  if p = [] ∨ p ∈ candidates then candidates else candidates ++ [p]

/-- The folders above a path that have the requested name. -/
def addAbove (requested : Bytes) : (fuel : Nat) → Bytes → List Bytes → List Bytes
  | 0, _, candidates => candidates
  | fuel + 1, cur, candidates =>
      if cur = [] ∨ cur = [slash] then candidates
      else
        addAbove requested fuel (parentPath cur)
          (if pathBasename cur = requested then addCandidate candidates cur else candidates)

/-- The candidates of `resolve_move_destination`. A parent path is shorter than the path,
so that many turns are enough. -/
def candidates (srcPath requested : Bytes) : List Bytes :=
  let first := addCandidate [] requested
  if requested = [] ∨ requested.head? = some slash then first
  else
    let second := addCandidate (addCandidate first (slash :: requested))
      (joinPath (parentPath srcPath) requested)
    addAbove requested (srcPath.length + 1) (parentPath srcPath) second

/-- The first of some paths that is a folder: path and uid. -/
def firstFolder (user : Bytes) : List Bytes → FeProg (Option (Bytes × Bytes))
  | [] => return none
  | path :: rest => do
      match ← resolvePath user path with
      | none => firstFolder user rest
      | some (uid, type) => if type = folder then return some (path, uid) else firstFolder user rest

/-- `resolve_move_destination`. -/
def resolveMoveDestination (user srcPath requested : Bytes) : FeProg (Option (Bytes × Bytes)) :=
  firstFolder user (candidates srcPath requested)

/-- `append_child`. -/
def appendChild (dir child : Bytes) : FeProg Bool := appendCsvItemCas (.children dir) child false 0

/-- The loop of `remove_child`. -/
def removeChildLoop (dir child : Bytes) (requirePresent : Bool) : Nat → FeProg Bool
  | 0 => return false
  | attempts + 1 => do
      let old ← getStr (.children dir)
      if child ∉ splitCsv old then return !requirePresent
      else if ← cput (.children dir) old (joinCsv ((splitCsv old).filter (· ≠ child))) then return true
      else removeChildLoop dir child requirePresent attempts

/-- `remove_child`. -/
def removeChild (dir child : Bytes) (requirePresent : Bool) : FeProg Bool :=
  removeChildLoop dir child requirePresent 8

/-- The loop of `child_name_exists`. -/
def anyNamed (wanted skip : Bytes) : List Bytes → FeProg Bool
  | [] => return false
  | child :: rest => do
      if skip ≠ [] ∧ child = skip then anyNamed wanted skip rest
      else if (← getStr (.name child)) = wanted then return true
      else anyNamed wanted skip rest

/-- `child_name_exists`. -/
def childNameExists (dir wanted skip : Bytes) : FeProg Bool := do
  anyNamed wanted skip (splitCsv (← getStr (.children dir)))

/-- The loop of `build_path`: the names from the object up, or `none` when it has taken
`fuel` turns and is not through. -/
def buildNames : (fuel : Nat) → Bytes → FeProg (Option (List Bytes))
  | 0, _ => return none
  | fuel + 1, cur => do
      if cur = [] then return some []
      let name ← getStr (.name cur)
      let parent ← getStr (.parent cur)
      if parent = [] then return some []
      match ← buildNames fuel parent with
      | none => return none
      | some names => return some (name :: names)

/-- `build_path`. -/
def buildPath (fuel : Nat) (uid : Bytes) : FeProg (Option Bytes) := do
  match ← buildNames fuel uid with
  | none => return none
  | some names =>
      return some (names.reverse.foldl
        (fun path name => (if path.length > 1 then path ++ [slash] else path) ++ name) [slash])

/-- The loop of `is_descendant_of`. -/
def descendsLoop (ancestor : Bytes) : (left : Nat) → (seen : List Bytes) → Bytes → FeProg Bool
  | left, seen, cur => do
      if cur = [] then return false
      if cur = ancestor then return true
      match left with
      | 0 => return true
      | left + 1 =>
          if cur ∈ seen then return true
          descendsLoop ancestor left (cur :: seen) (← getStr (.parent cur))

/-- `is_descendant_of`. -/
def isDescendantOf (possible ancestor : Bytes) : FeProg Bool := descendsLoop ancestor 4096 [] possible

/-- `collect_subtree_inner` at depth `4097 - left`. What it has seen is what it has
collected. -/
def collectInner : (left : Nat) → Bytes → List Bytes → FeProg (List Bytes)
  | 0, _, out => return out
  | left + 1, uid, out => do
      if uid = [] ∨ uid ∈ out then return out
      if (← getStr (.type uid)) ≠ folder then return out ++ [uid]
      let kids := splitCsv (← getStr (.children uid))
      kids.foldlM (fun out child => collectInner left child out) (out ++ [uid])

/-- `collect_subtree`. -/
def collectSubtree (uid : Bytes) : FeProg (List Bytes) := collectInner 4097 uid []

/-! ## Contents and quota -/

/-- `kMiB`. -/
def mib : Nat := 1024 * 1024

/-- `kDriveChunkSize`. -/
def driveChunkSize : Nat := mib

/-- `kMaxDriveFileBytes`. -/
def maxDriveFileBytes : Nat := 128 * mib

/-- `kDefaultDriveQuotaBytes`. -/
def defaultDriveQuotaBytes : Nat := 5 * 1024 * mib

/-- `size_t` arithmetic. -/
def sizeT (n : Nat) : Nat := n % 2 ^ 64

/-- `int64_t` arithmetic. -/
def int64 (n : Int) : Int := n.bmod (2 ^ 64)

/-- `parse_size_t_or`. -/
def parseSizeOr (s : Bytes) (fallback : Nat) : Nat :=
  if s = [] then fallback else (Decimal.stoul s).getD fallback

/-- `drive_chunk_count_for_size`. -/
def driveChunkCountForSize (nbytes : Nat) : Nat := (nbytes + driveChunkSize - 1) / driveChunkSize

/-- Deletes in a row. -/
def delAll : List Cell → FeProg Unit
  | [] => return ()
  | k :: rest => do
      let _ ← del k
      delAll rest

/-- The loop of `put_file_chunks` from chunk `i` on. -/
def putChunks (uid : Bytes) (i : Nat) : List Bytes → FeProg Bool
  | [] => return true
  | chunk :: rest => do
      if !(← put (.chunk uid i) chunk) then
        delAll ((List.range i).map (Cell.chunk uid))
        let _ ← del (.chunks uid)
        return false
      putChunks uid (i + 1) rest

/-- The chunks of a file. -/
def chunksOf (data : Bytes) : List Bytes :=
  (List.range (driveChunkCountForSize data.length)).map
    (fun i => (data.drop (i * driveChunkSize)).take driveChunkSize)

/-- `put_file_chunks`. -/
def putFileChunks (uid data : Bytes) : FeProg Bool := do
  if !(← put (.chunks uid) (Decimal.text (driveChunkCountForSize data.length))) then return false
  putChunks uid 0 (chunksOf data)

/-- The loop of `get_file_bytes`. -/
def getChunks (uid : Bytes) : List Nat → FeProg Bytes
  | [] => return []
  | i :: rest => do
      let chunk ← getStr (.chunk uid i)
      return chunk ++ (← getChunks uid rest)

/-- `get_file_bytes`. -/
def getFileBytes (uid : Bytes) : FeProg Bytes := do
  let legacy ← getStr (.bytes uid)
  if legacy ≠ [] then return legacy
  match Decimal.stoul (← getStr (.chunks uid)) with
  | none => return []
  | some chunks => getChunks uid (List.range chunks)

/-- `delete_file_bytes`. -/
def deleteFileBytes (uid : Bytes) : FeProg Unit := do
  let _ ← del (.bytes uid)
  let chunks ← getStr (.chunks uid)
  if chunks = [] then return ()
  match Decimal.stoul chunks with
  | none =>
      let _ ← del (.chunks uid)
  | some n =>
      delAll ((List.range n).map (Cell.chunk uid))
      let _ ← del (.chunks uid)

/-- `subtree_file_bytes_inner` at depth `4097 - left`: the bytes, and what has been seen. -/
def subtreeBytesInner : (left : Nat) → Bytes → List Bytes → FeProg (Nat × List Bytes)
  | 0, _, seen => return (0, seen)
  | left + 1, uid, seen => do
      if uid = [] ∨ uid ∈ seen then return (0, seen)
      if (← getStr (.type uid)) = file then
        let size ← getStr (.size uid)
        return (parseSizeOr size (← getFileBytes uid).length, uid :: seen)
      let kids := splitCsv (← getStr (.children uid))
      kids.foldlM (fun q child => do
        let (bytes, seen) ← subtreeBytesInner left child q.2
        return (sizeT (q.1 + bytes), seen)) (0, uid :: seen)

/-- `user_drive_used_bytes`. -/
def userDriveUsedBytes (user : Bytes) : FeProg Nat := do
  match ← ensureDriveRoot user with
  | none => return 0
  | some root => return (← subtreeBytesInner 4097 root []).1

/-- `user_drive_used_bytes_fast`. -/
def userDriveUsedBytesFast (user : Bytes) : FeProg Nat := do
  match Decimal.stoul (← getStr (.usedBytes user)) with
  | some cached => return cached
  | none =>
      let actual ← userDriveUsedBytes user
      let _ ← put (.usedBytes user) (Decimal.text actual)
      return actual

/-- `user_drive_used_bytes_reconciled`. -/
def userDriveUsedBytesReconciled (user : Bytes) : FeProg Nat := do
  let actual ← userDriveUsedBytes user
  let cached ← getStr (.usedBytes user)
  if cached ≠ Decimal.text actual then
    let _ ← put (.usedBytes user) (Decimal.text actual)
  return actual

/-- `user_drive_quota_bytes`. -/
def userDriveQuotaBytes (user : Bytes) : FeProg Nat := do
  return parseSizeOr (← getStr (.quotaBytes user)) defaultDriveQuotaBytes

/-- The counter after a change of `delta`. -/
def newUsedBytes (old : Nat) (delta : Int) : Bytes :=
  let nv := int64 (int64 old + delta)
  Decimal.text (if nv > 0 then nv.toNat else 0)

/-- The loop of `update_drive_used_bytes`. -/
def updateUsedLoop (user : Bytes) (delta : Int) : Nat → FeProg Unit
  | 0 => return ()
  | attempts + 1 => do
      match ← getStatus (.usedBytes user) with
      | .unavailable => updateUsedLoop user delta attempts
      | .found old =>
          let new := newUsedBytes ((Decimal.stoul old).getD 0) delta
          if old = new then return ()
          else if ← cput (.usedBytes user) old new then return ()
          else updateUsedLoop user delta attempts
      | .notFound =>
          let _ ← put (.usedBytes user) (newUsedBytes 0 delta)

/-- `update_drive_used_bytes`. -/
def updateDriveUsedBytes (user : Bytes) (delta : Int) : FeProg Unit :=
  if delta = 0 then return () else updateUsedLoop user delta 20

/-! ## Requests -/

/-- The text of every handler when its first read fails. -/
def unavailable : Answer := .error "storage temporarily unavailable, please try again"

/-- The first read of every handler. -/
def probe (user : Bytes) (rest : FeProg Answer) : FeProg Answer := do
  match ← getStatus (.root user) with
  | .unavailable => return unavailable
  | _ => rest

/-- A write that is only made if the one before succeeded. -/
def thenPut (before : Bool) (k : Cell) (v : Bytes) : FeProg Bool :=
  if before then put k v else return false

/-- A delete that is only made for what was written. -/
def delIf (written : Bool) (k : Cell) : FeProg Unit :=
  if written then do
    let _ ← del k
  else return ()

/-- `handle_mkdir`, given what `drive_new_uid` returns. -/
def handleMkdir (user path name uid : Bytes) : FeProg Answer := do
  let path := if path = [] then [slash] else path
  if !validComponent name then return .error "invalid folder name"
  probe user do
    match ← resolvePath user path with
    | none => return .error "parent folder not found"
    | some (parentUid, type) =>
        if type ≠ folder then return .error "parent folder not found"
        if ← childNameExists parentUid name [] then return .error "name already exists"
        let wrType ← put (.type uid) folder
        let wrName ← thenPut wrType (.name uid) name
        let wrParent ← thenPut wrName (.parent uid) parentUid
        let wrOwner ← thenPut wrParent (.owner uid) user
        let wrChildren ← thenPut wrOwner (.children uid) []
        let wrLinked ← if wrChildren then appendChild parentUid uid else pure false
        if !wrLinked then
          delIf wrType (.type uid)
          delIf wrName (.name uid)
          delIf wrParent (.parent uid)
          delIf wrOwner (.owner uid)
          delIf wrChildren (.children uid)
          return .error "mkdir failed"
        return .ok uid (joinPath path name)

/-- The file part of an upload. -/
structure FilePart where
  filename : Bytes
  data : Bytes

/-- Which of the writes of an upload were made, and the reason if one failed. -/
structure Written where
  type : Bool
  name : Bool
  parent : Bool
  owner : Bool
  size : Bool
  chunks : Bool
  failReason : Option String

/-- The writes of an upload. -/
def storeFile (user parentUid uid : Bytes) (part : FilePart) : FeProg Written := do
  if !(← put (.type uid) file) then
    return ⟨false, false, false, false, false, false, some "failed to store file type"⟩
  if !(← put (.name uid) part.filename) then
    return ⟨true, false, false, false, false, false, some "failed to store file name"⟩
  if !(← put (.parent uid) parentUid) then
    return ⟨true, true, false, false, false, false, some "failed to store parent folder"⟩
  if !(← put (.owner uid) user) then
    return ⟨true, true, true, false, false, false, some "failed to store file owner"⟩
  if !(← put (.size uid) (Decimal.text part.data.length)) then
    return ⟨true, true, true, true, false, false, some "failed to store file size"⟩
  if !(← putFileChunks uid part.data) then
    return ⟨true, true, true, true, true, false, some "failed to store file data"⟩
  if !(← appendChild parentUid uid) then
    return ⟨true, true, true, true, true, true, some "failed to update folder listing"⟩
  return ⟨true, true, true, true, true, true, none⟩

/-- What an upload that failed takes back. -/
def unstoreFile (uid : Bytes) (w : Written) : FeProg Unit := do
  delIf w.type (.type uid)
  delIf w.name (.name uid)
  delIf w.parent (.parent uid)
  delIf w.owner (.owner uid)
  delIf w.size (.size uid)
  if w.chunks then deleteFileBytes uid

/-- The quota check of an upload: by how much it is too large. -/
def overQuota (user : Bytes) (size : Nat) : FeProg (Option Nat) := do
  let used ← userDriveUsedBytesFast user
  let limit ← userDriveQuotaBytes user
  let used ← if sizeT (used + size) > limit then userDriveUsedBytesReconciled user else pure used
  if sizeT (used + size) > limit then return some (sizeT (used + size) - limit)
  return none

/-- `handle_upload` of a multipart request: the `path` part, `/` by default, and the
`file` part. -/
def handleUpload (user path : Bytes) (part : Option FilePart) (uid : Bytes) : FeProg Answer := do
  match part with
  | none => return .error "missing file"
  | some part =>
      if part.filename = [] then return .error "missing file"
      if part.data.length > maxDriveFileBytes then return .error "file exceeds 128MB limit"
      match ← overQuota user part.data.length with
      | some excess => return .error ("quota exceeded by " ++ toString excess ++ " bytes")
      | none =>
          probe user do
            match ← resolvePath user path with
            | none => return .error "target folder not found"
            | some (parentUid, type) =>
                if type ≠ folder then return .error "target folder not found"
                if !validComponent part.filename then return .error "invalid filename"
                if ← childNameExists parentUid part.filename [] then return .error "name already exists"
                let w ← storeFile user parentUid uid part
                match w.failReason with
                | some reason =>
                    unstoreFile uid w
                    return .error reason
                | none =>
                    updateDriveUsedBytes user (int64 part.data.length)
                    return .ok uid (joinPath path part.filename)

/-- `handle_rename`. -/
def handleRename (user path newName : Bytes) : FeProg Answer := do
  if !validComponent newName ∨ path = [] ∨ path = [slash] then return .error "invalid rename request"
  probe user do
    match ← resolvePath user path with
    | none => return .error "path not found"
    | some (uid, _) =>
        let parentUid ← getStr (.parent uid)
        if ← childNameExists parentUid newName uid then return .error "name already exists"
        let _ ← put (.name uid) newName
        return .ok [] (joinPath (parentPath path) newName)

/-- What a move has worked out when it begins to write. -/
structure MoveJob where
  uid : Bytes
  source : Bytes
  target : Bytes
  path : Bytes

/-- `handle_move` up to its first write: an answer, or what to do. -/
def planMove (user srcPath dstPath : Bytes) : FeProg (Except Answer MoveJob) := do
  if srcPath = [] ∨ dstPath = [] ∨ srcPath = [slash] then return .error (.error "invalid move request")
  match ← getStatus (.root user) with
  | .unavailable => return .error unavailable
  | _ =>
      match ← resolvePath user srcPath with
      | none => return .error (.error "source path not found")
      | some (uid, type) =>
          match ← resolveMoveDestination user srcPath dstPath with
          | none => return .error (.error "destination path not found")
          | some (resolved, dstUid) =>
              let name ← getStr (.name uid)
              let below ← if type = folder then isDescendantOf dstUid uid else pure false
              if below then return .error (.error "cannot move a folder into itself or its descendant")
              if ← childNameExists dstUid name uid then
                return .error (.error "destination already has that name")
              let oldParent ← getStr (.parent uid)
              if oldParent = dstUid then return .error (.ok [] (joinPath resolved name))
              return .ok ⟨uid, oldParent, dstUid, joinPath resolved name⟩

/-- The writes of `handle_move`. -/
def performMove (job : MoveJob) : FeProg Answer := do
  if !(← removeChild job.source job.uid true) then return .error "move failed"
  if !(← appendChild job.target job.uid) then
    let _ ← appendChild job.source job.uid
    return .error "move failed"
  if !(← put (.parent job.uid) job.target) then
    let _ ← removeChild job.target job.uid false
    let _ ← appendChild job.source job.uid
    return .error "move failed"
  return .ok [] job.path

/-- `handle_move`. -/
def handleMove (user srcPath dstPath : Bytes) : FeProg Answer := do
  match ← planMove user srcPath dstPath with
  | .error ans => return ans
  | .ok job => performMove job

/-- The size of a file that is deleted is added up. -/
def addSize (freed : Int) (obj : Bytes) : FeProg Int := do
  return int64 (freed + int64 (parseSizeOr (← getStr (.size obj)) 0))

/-- The loop of `handle_delete_path` over what it has collected, last first: the bytes
that were freed. -/
def deleteNodes : List Bytes → Int → FeProg Int
  | [], freed => return freed
  | obj :: rest, freed => do
      let type ← getStr (.type obj)
      let freed ← if type = file then addSize freed obj else pure freed
      delAll [.type obj, .name obj, .parent obj, .owner obj, .size obj]
      if type = folder then
        let _ ← del (.children obj)
      else deleteFileBytes obj
      deleteNodes rest freed

/-- `handle_delete_path`. -/
def handleDeletePath (user path : Bytes) : FeProg Answer := do
  if path = [] ∨ path = [slash] then return .error "cannot delete root"
  probe user do
    match ← resolvePath user path with
    | none => return .error "path not found"
    | some (uid, _) =>
        let parentUid ← getStr (.parent uid)
        if !(← removeChild parentUid uid true) then return .error "delete failed"
        let nodes ← collectSubtree uid
        let freed ← deleteNodes nodes.reverse 0
        if freed > 0 then updateDriveUsedBytes user (-freed)
        return .ok [] []

end Drive

end NCloud.Frontend
