/-
# The handlers of `meta_handle.c`

`mkdir`, `rmdir` and `rename` run on the coordinator, which changes its own directory table and has
the workers repeat the change and move the inode rows; `create`, `stat`, `open`, `close` and
`unlink` run on the worker that owns the row.  The batchable ones take an array of requests, sort it
by path (`pg_qsort` with `pathcmp`) and return one error code for each request: the lists below are
the sorted arrays.

An `ereport(ERROR)` ends the whole transaction; it is the `fail` of a program.
-/
import FalconFS.Utils.PathParse

namespace FalconFS

variable (cfg : Config) (self : ServerId)

/-- `DIR_HASH_TABLE_PATH_NOT_EXIST` -/
def pathNotExist : InodeId := 2 ^ 64 - 1

/-! ## 1. `mkdir` -/

/-- The flags of `FalconMkdirHandle`. -/
def mkdirFlag : PathParseFlag := ⟨false, true, true, false, false, true⟩

/-- What a batch has come to: the path-parse tree, the codes so far, the directories to create. -/
structure MkdirState where
  tree : PathTree
  codes : List ErrorCode
  entries : List DirEntry

/-- One request in the loop of `FalconMkdirHandle`. -/
def mkdirOne (s : MkdirState) (p : Path) : Handler MkdirState :=
  match verifyPathValidity p .mustBeDirectory with
  | .success => do
    let (tree, r) ← pathParseTreeInsert s.tree p mkdirFlag 0
    match r with
    | .error e => pure { s with tree := tree, codes := s.codes ++ [e] }
    | .ok g => do
      Handler.insertDir g.key g.inodeId .none
      pure ⟨tree, s.codes ++ [.success], s.entries ++ [⟨g.key, g.inodeId⟩]⟩
  | e => pure { s with codes := s.codes ++ [e] }

/-- `MKDIR_SUB_MKDIR` for every worker, and `MKDIR_SUB_CREATE` for those that own a row. -/
def mkdirCommands (cfg : Config) (entries : List DirEntry) : List (ServerId × SubRequest) :=
  cfg.workers.map (fun w => (w, .mkdirSubMkdir entries)) ++
    (cfg.workers.filter fun w => entries.any fun e => cfg.owner e.key = w).map fun w =>
      (w, .mkdirSubCreate (entries.filter fun e => cfg.owner e.key = w))

/-- `FalconMkdirHandle` -/
def falconMkdirHandle (paths : List Path) : Handler (List ErrorCode) :=
  if self ≠ cnServerId then .fail .wrongWorker
  else do
    let s ← paths.foldlM mkdirOne ⟨[], [], []⟩
    if s.entries = [] then pure s.codes
    else do
      let _ ← Handler.remote (mkdirCommands cfg s.entries)
      pure s.codes

/-- `FalconMkdirSubMkdirHandle` -/
def falconMkdirSubMkdirHandle (entries : List DirEntry) : Handler SubReply := do
  entries.forM fun e => Handler.insertDir e.key e.inodeId .exclusive
  pure .done

/-- An insert that must find its key free. -/
def insertInode (k : Key) (row : InodeRow) : Handler Unit := do
  if ← Handler.inode (.insert k row) then pure () else .fail .programError

/-- The items in the order in which the per-shard lists are worked off. -/
def byShard {α : Type} (cfg : Config) (key : α → Key) (items : List α) : List α :=
  cfg.shards.flatMap fun n => items.filter fun a => cfg.shard (key a) = n

/-- `FalconMkdirSubCreateHandle` -/
def falconMkdirSubCreateHandle (entries : List DirEntry) : Handler SubReply :=
  if entries.any fun e => cfg.owner e.key ≠ self then .fail .argumentError
  else do
    (byShard cfg (·.key) entries).forM fun e => insertInode e.key (dirRow e.inodeId)
    pure .done

/-! ## 2. `rmdir` -/

def rmdirFlag : PathParseFlag := ⟨true, true, false, true, false, false⟩

def rmdirCommands (cfg : Config) (k : Key) : List (ServerId × SubRequest) :=
  cfg.workers.map (fun w => (w, .rmdirSubRmdir k)) ++ [(cfg.owner k, .rmdirSubUnlink k)]

/-- `FalconRmdirHandle` -/
def falconRmdirHandle (p : Path) : Handler (List ErrorCode) :=
  if self ≠ cnServerId then .fail .wrongWorker
  else
    match verifyPathValidity p .mustBeDirectory with
    | .success => do
      let (_, r) ← pathParseTreeInsert [] p rmdirFlag 0
      match r with
      | .error e => .fail e
      | .ok g => do
        Handler.deleteDir g.key .none
        let _ ← Handler.remote (rmdirCommands cfg g.key)
        pure [.success]
    | e => .fail e

/-- The shards of one server. -/
def Config.localShards : List Nat :=
  cfg.shards.filter fun n => cfg.server n = self

/-- `FalconRmdirSubRmdirHandle` -/
def falconRmdirSubRmdirHandle (k : Key) : Handler SubReply := do
  match ← Handler.search k .exclusive with
  | none => .fail .fileNotExists
  | some directoryId => do
    Handler.deleteDir k .none
    (cfg.localShards self).forM fun n => do
      if ← Handler.inode (.scan n directoryId) then .fail .argumentError else pure ()
    pure .done

/-- The update of `FalconRmdirSubUnlinkHandle`. -/
def rmdirUnlink : SearchAndUpdate := ⟨true, none, some (-2), .none, none⟩

/-- `FalconRmdirSubUnlinkHandle` -/
def falconRmdirSubUnlinkHandle (k : Key) : Handler SubReply :=
  if cfg.owner k ≠ self then .fail .argumentError
  else do
    match ← Handler.inode (.searchAndUpdate k rmdirUnlink) with
    | none => .fail .fileNotExists
    | some r => if r.stNlink ≠ 2 then .fail .programError else pure .done

/-! ## 3. `rename` -/

/-- The flags of `FalconRenameHandle` for one of the two paths. -/
def renameFlag (renameDirectory pathIsDst : Bool) : PathParseFlag :=
  ⟨true, renameDirectory, pathIsDst, !pathIsDst, pathIsDst, false⟩

/-- The two `PathParseTreeInsert`s of `FalconRenameHandle`, the smaller path first; the result is
the target of the source and that of the destination. -/
def renameParse (src dst : Path) (srcFirst renameDirectory : Bool) (srcDirectoryId : InodeId) :
    Handler (PathTarget × PathTarget) := do
  let (tree, r) ← pathParseTreeInsert [] (if srcFirst then src else dst)
    (renameFlag renameDirectory !srcFirst) srcDirectoryId
  match r with
  | .error e => .fail e
  | .ok g₁ => do
    let (_, r) ← pathParseTreeInsert tree (if srcFirst then dst else src)
      (renameFlag renameDirectory srcFirst) srcDirectoryId
    match r with
    | .error e => .fail e
    | .ok g₂ => pure (if srcFirst then (g₁, g₂) else (g₂, g₁))

/-- The parameter for the worker with the source row. -/
def renameAtSource (cfg : Config) (p : RenameParam) : RenameParam :=
  { p with
    parentIdPartId := cfg.parentIdPartId p.src
    dstParentIdPartId := if cfg.owner p.dst = cfg.owner p.src then cfg.parentIdPartId p.dst else 0 }

/-- `RENAME_SUB_RENAME_LOCALLY`: to the worker with the source row, and, without a row to move, to
the others. -/
def renameCommands (cfg : Config) (p : RenameParam) : List (ServerId × SubRequest) :=
  (cfg.owner p.src, .renameSubRenameLocally (renameAtSource cfg p)) ::
    (cfg.workers.erase (cfg.owner p.src)).map fun w =>
      (w, .renameSubRenameLocally { p with parentIdPartId := 0, dstParentIdPartId := 0 })

/-- The end of `FalconRenameHandle`: the workers repeat the change, and a row that has left its
worker is inserted at the other one, whether the worker has sent it or not. -/
def renameOnWorkers (cfg : Config) (p : RenameParam) : Handler (List ErrorCode) := do
  let replies ← Handler.remote (renameCommands cfg p)
  if cfg.owner p.src = cfg.owner p.dst then pure [.success]
  else
    match replies (cfg.owner p.src) with
    | [reply] => do
      let _ ← Handler.remote [(cfg.owner p.dst, .renameSubCreate p.dst (reply.rowOr cfg.unset))]
      pure [.success]
    | _ => .fail .programError

/-- `FalconRenameHandle`.  Which of its two variants runs, and the id that the directory keeps, is
decided by the lookup at the beginning, which takes no lock. -/
def falconRenameHandle (src dst : Path) : Handler (List ErrorCode) :=
  if self ≠ cnServerId then .fail .wrongWorker
  else do
    let found ← checkWhetherPathExistsInDirectoryTable src
    let renameDirectory := found.isSome
    if !renameDirectory && !src.canBeFile then .fail .argumentError
    else do
      let srcFirst : Bool := pathcmp src.bytes dst.bytes ≤ 0
      let (s, d) ← renameParse src dst srcFirst renameDirectory (found.getD pathNotExist)
      if renameDirectory then do
        Handler.deleteDir s.key .none
        Handler.insertDir d.key d.inodeId .none
      renameOnWorkers cfg
        ⟨renameDirectory, d.inodeId, if srcFirst then 0 else 1, s.key, d.key, 0, 0⟩

/-- The directory part of `FalconRenameSubRenameLocallyHandle`: the worker repeats the change, in
the order in which the coordinator took its locks. -/
def renameDirectories (p : RenameParam) : Handler Unit :=
  if p.targetIsDirectory then
    if p.srcLockOrder = 0 then do
      Handler.deleteDir p.src .exclusive
      Handler.insertDir p.dst p.inodeId .exclusive
    else if p.srcLockOrder = 1 then do
      Handler.insertDir p.dst p.inodeId .exclusive
      Handler.deleteDir p.src .exclusive
    else .fail .argumentError
  else pure ()

/-- `FalconRenameSubRenameLocallyHandle`: the directory entries, and then the row. -/
def falconRenameSubRenameLocallyHandle (p : RenameParam) : Handler SubReply := do
  renameDirectories p
  if p.parentIdPartId = 0 then pure .done
  else if cfg.owner p.src ≠ self then .fail .wrongWorker
  else do
    match ← Handler.inode (.remove p.src) with
    | none => .fail .fileNotExists
    | some r =>
      if p.dstParentIdPartId = 0 then pure (.row r)
      else if cfg.owner p.dst ≠ self then .fail .wrongWorker
      else do
        insertInode p.dst r
        pure .done

/-- `FalconRenameSubCreateHandle` -/
def falconRenameSubCreateHandle (k : Key) (row : InodeRow) : Handler SubReply :=
  if cfg.owner k ≠ self then .fail .wrongWorker
  else do
    insertInode k row
    pure .done

/-- The command interpreter of a worker. -/
def subHandle : SubRequest → Handler SubReply
  | .mkdirSubMkdir entries => falconMkdirSubMkdirHandle entries
  | .mkdirSubCreate entries => falconMkdirSubCreateHandle cfg self entries
  | .rmdirSubRmdir k => falconRmdirSubRmdirHandle cfg self k
  | .rmdirSubUnlink k => falconRmdirSubUnlinkHandle cfg self k
  | .renameSubRenameLocally p => falconRenameSubRenameLocallyHandle cfg self p
  | .renameSubCreate k row => falconRenameSubCreateHandle cfg self k row

/-- The commands of one pipeline, one after the other. -/
def subHandles (cfg : Config) (self : ServerId) : List SubRequest → Handler (List SubReply)
  | [] => pure []
  | c :: cs => do
    let r ← subHandle cfg self c
    let rs ← subHandles cfg self cs
    pure (r :: rs)

/-! ## 4. Requests to the worker that owns the row -/

/-- The first phase of a batch: the tree, and for each request its target or its error. -/
structure ResolveState where
  tree : PathTree
  targets : List (Except ErrorCode PathTarget)

section

variable (requirement : PathRequirement) (flag : PathParseFlag)

/-- One request in the first loop: verify and parse the path, and look whether its row would be on
this server. -/
def resolveOne (s : ResolveState) (p : Path) : Handler ResolveState :=
  match verifyPathValidity p requirement with
  | .success => do
    let (tree, r) ← pathParseTreeInsert s.tree p flag 0
    match r with
    | .error e => pure ⟨tree, s.targets ++ [.error e]⟩
    | .ok g =>
      if cfg.owner g.key ≠ self then pure ⟨tree, s.targets ++ [.error .wrongWorker]⟩
      else pure ⟨tree, s.targets ++ [.ok g]⟩
  | e => pure { s with targets := s.targets ++ [.error e] }

def resolveAll (paths : List Path) : Handler (List (Except ErrorCode PathTarget)) := do
  let s ← paths.foldlM (resolveOne cfg self requirement flag) ⟨[], []⟩
  pure s.targets

end

/-- A request that has been resolved, with its place in the array. -/
structure Item where
  index : Nat
  target : PathTarget
  deriving DecidableEq

def itemsOf (targets : List (Except ErrorCode PathTarget)) : List Item :=
  targets.zipIdx.filterMap fun
    | (.ok g, i) => some ⟨i, g⟩
    | (.error _, _) => none

/-- The codes of the batch, from the errors of the first phase and the codes of the second. -/
def codesOf (targets : List (Except ErrorCode PathTarget)) (codes : List (Nat × ErrorCode)) :
    List ErrorCode :=
  targets.zipIdx.map fun
    | (.ok _, i) => (codes.lookup i).getD .success
    | (.error e, _) => e

/-- The shape that `stat`, `open`, `close` and `unlink` have in common: `body` is what the second
loop does with one request, given its place in the array and its key. -/
def batchHandle (requirement : PathRequirement)
    (body : Nat → Key → Handler ErrorCode) (paths : List Path) : Handler (List ErrorCode) := do
  let targets ← resolveAll cfg self requirement .zero paths
  let codes ← (byShard cfg (·.target.key) (itemsOf targets)).mapM fun it => do
    let c ← body it.index it.target.key
    pure (it.index, c)
  pure (codesOf targets codes)

def searchInode (k : Key) (u : SearchAndUpdate) : Handler ErrorCode := do
  match ← Handler.inode (.searchAndUpdate k u) with
  | none => pure .fileNotExists
  | some _ => pure .success

/-- `FalconStatHandle` -/
def falconStatHandle (paths : List Path) : Handler (List ErrorCode) :=
  batchHandle cfg self .none (fun _ k => searchInode k .read) paths

/-- `FalconOpenHandle` -/
def falconOpenHandle (paths : List Path) : Handler (List ErrorCode) :=
  batchHandle cfg self .none (fun _ k => searchInode k .read) paths

/-- A `close` request: path, `st_size`, `node_id`. -/
structure CloseRequest where
  path : Path
  stSize : Int
  nodeId : Int
  deriving DecidableEq

/-- The update of `FalconCloseHandle`. -/
def closeUpdate (r : CloseRequest) : SearchAndUpdate :=
  ⟨true, some r.stSize, none, .none, some r.nodeId⟩

/-- `FalconCloseHandle` -/
def falconCloseHandle (reqs : List CloseRequest) : Handler (List ErrorCode) :=
  batchHandle cfg self .none
    (fun i k => searchInode k ((reqs[i]?.map closeUpdate).getD .read)) (reqs.map (·.path))

/-- The update of `FalconUnlinkHandle`. -/
def unlinkUpdate : SearchAndUpdate := ⟨true, none, some (-1), .mustBeFile, none⟩

/-- `FalconUnlinkHandle`, the second loop. -/
def unlinkOne (k : Key) : Handler ErrorCode := do
  match ← Handler.inode (.searchAndUpdate k unlinkUpdate) with
  | none => pure .fileNotExists
  | some r =>
    if !r.isReg then pure .pathVerifyFailed
    else if r.stNlink ≠ 1 then pure .programError
    else pure .success

/-- `FalconUnlinkHandle` -/
def falconUnlinkHandle (paths : List Path) : Handler (List ErrorCode) :=
  batchHandle cfg self .mustBeFile (fun _ k => unlinkOne k) paths

/-! ## 5. `create` -/

/-- `BATCH_OPERATION_GROUP_SIZE` -/
def batchOperationGroupSize : Nat := 8

def createFlag : PathParseFlag := ⟨true, false, true, false, false, false⟩

/-- A request to insert, and whether it is already marked `FILE_EXISTS`. -/
structure CreateItem where
  item : Item
  fileExists : Bool
  deriving DecidableEq

/-- One internal subtransaction: up to `n` inserts.  The result is what is left of the list, or the
place of the request whose key was not free.  A marked request only reads the row that is there. -/
def createGroup (self : ServerId) : Nat → List CreateItem → Handler (Except Nat (List CreateItem))
  | _, [] => pure (.ok [])
  | 0, todo => pure (.ok todo)
  | n + 1, c :: todo =>
    if c.fileExists then do
      let _ ← Handler.inode (.searchAndUpdate c.item.target.key .read)
      createGroup self (n + 1) todo
    else do
      if ← Handler.inode (.insert c.item.target.key (fileRow self c.item.target.inodeId)) then
        createGroup self n todo
      else pure (.error c.item.index)

def markExists (i : Nat) (todo : List CreateItem) : List CreateItem :=
  todo.map fun c => if c.item.index = i then { c with fileExists := true } else c

/-- The loop over the subtransactions of one shard: after an error the group is rolled back and
tried again with the offending request marked.  The result is the places of the marked requests.
Every round shortens the list or marks a request of it, so twice its length bounds the rounds. -/
def createGroups (self : ServerId) : Nat → List CreateItem → Handler (List Nat)
  | 0, _ => pure []
  | rounds + 1, todo =>
    if todo = [] then pure []
    else do
      Handler.inode .beginSub
      match ← createGroup self batchOperationGroupSize todo with
      | .ok rest => do
        Handler.inode .releaseSub
        createGroups self rounds rest
      | .error i => do
        Handler.inode .rollbackSub
        let marked ← createGroups self rounds (markExists i todo)
        pure (i :: marked)

/-- `FalconCreateHandle` -/
def falconCreateHandle (paths : List Path) : Handler (List ErrorCode) := do
  let targets ← resolveAll cfg self .mustBeFile createFlag paths
  let marked ← cfg.shards.mapM fun n =>
    let todo := (itemsOf targets).filter fun it => cfg.shard it.target.key = n
    createGroups self (2 * todo.length + 1) (todo.map fun it => ⟨it, false⟩)
  pure (codesOf targets (marked.flatten.map fun i => (i, .fileExists)))

/-! ## 6. Requests -/

inductive Request
  | mkdir (paths : List Path)
  | rmdir (path : Path)
  | rename (src dst : Path)
  | create (paths : List Path)
  | stat (paths : List Path)
  | openFile (paths : List Path)
  | close (reqs : List CloseRequest)
  | unlink (paths : List Path)
  deriving DecidableEq

/-- `FileMetaProcess` -/
def handle : Request → Handler (List ErrorCode)
  | .mkdir paths => falconMkdirHandle cfg self paths
  | .rmdir path => falconRmdirHandle cfg self path
  | .rename src dst => falconRenameHandle cfg self src dst
  | .create paths => falconCreateHandle cfg self paths
  | .stat paths => falconStatHandle cfg self paths
  | .openFile paths => falconOpenHandle cfg self paths
  | .close reqs => falconCloseHandle cfg self reqs
  | .unlink paths => falconUnlinkHandle cfg self paths

end FalconFS
