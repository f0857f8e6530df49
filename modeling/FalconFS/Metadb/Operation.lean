/-
# What a metadata handler does to its server

A handler of `meta_handle.c` runs in one transaction of one session of one server.  It works on the
dir-path hash (and through it on the directory table), on the inode table, on the sequence of inode
ids, and, on the coordinator (CN), on other servers: it queues commands with
`FalconMetaCallOnWorkerList` and then waits for all their results.  `ServerOp` lists these
operations; a handler is a program over them.

Its history is what the transaction has done so far.  The functions at the end read from it the
locks it has taken, its uncommitted writes, the ids it has drawn, and what it has sent.
-/
import FalconFS.DirPathHash.Model
import FalconFS.Lib.Prog
import FalconFS.Metadb.InodeTable
import FalconFS.Metadb.ShardTable

namespace FalconFS

/-! ## 1. The cluster's layout -/

/-- `FALCON_CN_SERVER_ID` -/
def cnServerId : ServerId := 0

/-- The shard table.  `shards` lists the shards in the order in which `hash_seq_search` visits a
hash table that is keyed by them; nothing is assumed about that order. -/
structure Config where
  workers : List ServerId
  shards : List Nat
  shard : Key → Nat
  server : Nat → ServerId
  /-- `HashPartId` -/
  partId : Name → BitVec 16
  /-- What an uninitialised `responseInfo` holds. -/
  unset : InodeRow
  workers_nodup : workers.Nodup
  shards_nodup : shards.Nodup
  cn_not_worker : cnServerId ∉ workers
  shard_mem : ∀ k, shard k ∈ shards
  server_mem : ∀ n ∈ shards, server n ∈ workers

/-- `SearchShardInfoByShardValue`: the worker that has the inode row of a key. -/
def Config.owner (cfg : Config) (k : Key) : ServerId := cfg.server (cfg.shard k)

/-- The combined id of a key, the first column of its inode row. -/
def Config.parentIdPartId (cfg : Config) (k : Key) : BitVec 64 :=
  ShardTable.combineParentIdWithPartId (BitVec.ofNat 64 k.parentId) (cfg.partId k.fileName)

def Config.servers (cfg : Config) : List ServerId := cnServerId :: cfg.workers

theorem Config.owner_mem (cfg : Config) (k : Key) : cfg.owner k ∈ cfg.workers :=
  cfg.server_mem _ (cfg.shard_mem k)

theorem Config.parentIdPartId_ne_zero (cfg : Config) {k : Key} (hne : k.parentId ≠ 0)
    (hlt : k.parentId < 2 ^ 51) : cfg.parentIdPartId k ≠ 0 :=
  ShardTable.combineParentIdWithPartId_ne_zero hne hlt _

/-- One worker, one shard. -/
def oneWorker : Config where
  workers := [1]
  shards := [0]
  shard _ := 0
  server _ := 1
  partId name := ShardTable.hashPartId true (name.map (·.toBitVec))
  unset := ⟨0, 0, 0, 0, 0⟩
  workers_nodup := by decide
  shards_nodup := by decide
  cn_not_worker := by decide
  shard_mem _ := by decide
  server_mem _ _ := by decide

/-! ## 2. Commands from the coordinator -/

/-- A new directory: its key and its inode id. -/
structure DirEntry where
  key : Key
  inodeId : InodeId
  deriving DecidableEq

/-- The parameters of `RENAME_SUB_RENAME_LOCALLY`.  The two combined ids say whether the worker has
the row to move and the place to move it to: 0 stands for "no". -/
structure RenameParam where
  targetIsDirectory : Bool
  inodeId : InodeId
  srcLockOrder : Nat
  src : Key
  dst : Key
  parentIdPartId : BitVec 64
  dstParentIdPartId : BitVec 64
  deriving DecidableEq

inductive SubRequest
  | mkdirSubMkdir (entries : List DirEntry)
  | mkdirSubCreate (entries : List DirEntry)
  | rmdirSubRmdir (k : Key)
  | rmdirSubUnlink (k : Key)
  | renameSubRenameLocally (p : RenameParam)
  | renameSubCreate (k : Key) (row : InodeRow)
  deriving DecidableEq

inductive SubReply
  | done
  /-- The row that `FalconRenameSubRenameLocallyHandle` took away. -/
  | row (r : InodeRow)
  deriving DecidableEq

def SubReply.rowOr (unset : InodeRow) : SubReply → InodeRow
  | .done => unset
  | .row r => r

/-! ## 3. Operations -/

inductive ServerOp
  /-- `SearchDirectoryByDirectoryHashTable`, `InsertDirectoryByDirectoryHashTable`,
  `DeleteDirectoryByDirectoryHashTable` -/
  | hash (op : DirPathHash.Op) (k : Key) (mode : DirLockMode)
  /-- `GenerateInodeIdBySeqAndNodeId(GetNextSequenceNum(), GetLocalServerId())` -/
  | nextInodeId
  | inode (o : InodeOp)
  /-- `FalconSendCommandAndWaitForResult` for the queued commands; each server executes its own in
  the order of the list. -/
  | remote (cmds : List (ServerId × SubRequest))

abbrev ServerOp.Res : ServerOp → Type
  | .hash _ _ _ => Option InodeId
  | .nextInodeId => InodeId
  | .inode o => o.Res
  | .remote _ => ServerId → List SubReply

abbrev Handler := Prog ServerOp ServerOp.Res ErrorCode

abbrev Entry := Prog.Entry ServerOp ServerOp.Res

namespace Handler

def search (k : Key) (mode : DirLockMode) : Handler (Option InodeId) :=
  Prog.op (ServerOp.hash .search k mode) Prog.ret

def insertDir (k : Key) (id : InodeId) (mode : DirLockMode) : Handler Unit :=
  Prog.op (ServerOp.hash (.insert id) k mode) fun _ => Prog.ret ()

def deleteDir (k : Key) (mode : DirLockMode) : Handler Unit :=
  Prog.op (ServerOp.hash .delete k mode) fun _ => Prog.ret ()

def nextInodeId : Handler InodeId := Prog.op ServerOp.nextInodeId Prog.ret

def inode (o : InodeOp) : Handler o.Res := Prog.op (ServerOp.inode o) Prog.ret

def remote (cmds : List (ServerId × SubRequest)) : Handler (ServerId → List SubReply) :=
  Prog.op (ServerOp.remote cmds) Prog.ret

end Handler

/-! ## 4. Histories -/

/-- The handles that the operation adds to `held_rwlocks`. -/
def ServerOp.locks : ServerOp → List (Key × RWLockMode)
  | .hash _ k mode => (DirPathHash.rwMode mode).toList.map fun m => (k, m)
  | _ => []

/-- The directory-table write of the operation. -/
def ServerOp.writes : ServerOp → List (Key × Option InodeId)
  | .hash (.insert id) k _ => [(k, some id)]
  | .hash .delete k _ => [(k, none)]
  | _ => []

def locksOf (h : List Entry) : List (Key × RWLockMode) := h.flatMap (·.1.locks)

def writesOf (h : List Entry) : List (Key × Option InodeId) := h.flatMap (·.1.writes)

/-- The inode ids drawn, newest first. -/
def idsOf : List Entry → List InodeId
  | [] => []
  | ⟨.nextInodeId, id⟩ :: h => id :: idsOf h
  | _ :: h => idsOf h

/-- The commands sent, oldest first. -/
def sentOf : List Entry → List (ServerId × SubRequest)
  | [] => []
  | ⟨.remote cmds, _⟩ :: h => sentOf h ++ cmds
  | _ :: h => sentOf h

/-- The replies of a server, oldest first. -/
def repliesOf (i : ServerId) : List Entry → List SubReply
  | [] => []
  | ⟨.remote _, replies⟩ :: h => repliesOf i h ++ replies i
  | _ :: h => repliesOf i h

/-- The uncommitted inode writes, and those there were when the last subtransaction began. -/
def putsState : List Entry → List Put × List Put
  | [] => ([], [])
  | ⟨.inode .beginSub, _⟩ :: h => ((putsState h).1, (putsState h).1)
  | ⟨.inode .rollbackSub, _⟩ :: h => ((putsState h).2, (putsState h).2)
  | ⟨.inode o, r⟩ :: h => (o.puts r ++ (putsState h).1, (putsState h).2)
  | _ :: h => putsState h

def putsOf (h : List Entry) : List Put := (putsState h).1

/-- The commands for one server. -/
def forServer (i : ServerId) (cmds : List (ServerId × SubRequest)) : List SubRequest :=
  (cmds.filter (·.1 = i)).map (·.2)

@[simp] theorem locksOf_cons (e : Entry) (h : List Entry) :
    locksOf (e :: h) = e.1.locks ++ locksOf h := rfl

@[simp] theorem writesOf_cons (e : Entry) (h : List Entry) :
    writesOf (e :: h) = e.1.writes ++ writesOf h := rfl

variable {h : List Entry} {l : Key × RWLockMode} {k : Key} {v : Option InodeId}

theorem mem_locksOf_of_suffix {h' : List Entry} (hs : h <:+ h') (hl : l ∈ locksOf h) :
    l ∈ locksOf h' := by
  obtain ⟨e, he, hle⟩ := List.mem_flatMap.mp hl
  exact List.mem_flatMap.mpr ⟨e, hs.subset he, hle⟩

theorem mem_locksOf {e : Entry} (he : e ∈ h) (hl : l ∈ e.1.locks) :
    l ∈ locksOf h := List.mem_flatMap.mpr ⟨e, he, hl⟩

/-! ## 5. Lookups -/

/-- The transaction has looked up `k` with this lock and found `v`. -/
abbrev Saw (h : List Entry) (k : Key) (mode : DirLockMode) (v : Option InodeId) : Prop :=
  (⟨.hash .search k mode, v⟩ : Entry) ∈ h

theorem Saw.exclusive_mem (hs : Saw h k .exclusive v) : (k, .exclusive) ∈ locksOf h :=
  mem_locksOf hs List.mem_cons_self

theorem Saw.shared_mem (hs : Saw h k .shared v) : (k, .shared) ∈ locksOf h :=
  mem_locksOf hs List.mem_cons_self

/-- Between `h` and `h'` there are only lookups and draws from the sequence. -/
structure OnlyLooks (h h' : List Entry) : Prop where
  suffix : h <:+ h'
  writes : writesOf h' = writesOf h
  puts : putsState h' = putsState h
  sent : sentOf h' = sentOf h
  replies : ∀ i, repliesOf i h' = repliesOf i h

theorem OnlyLooks.refl (h : List Entry) : OnlyLooks h h :=
  ⟨List.suffix_refl _, rfl, rfl, rfl, fun _ => rfl⟩

theorem OnlyLooks.trans {h₁ h₂ h₃ : List Entry} (h : OnlyLooks h₁ h₂) (h' : OnlyLooks h₂ h₃) :
    OnlyLooks h₁ h₃ :=
  ⟨h.suffix.trans h'.suffix, h'.writes.trans h.writes, h'.puts.trans h.puts,
    h'.sent.trans h.sent, fun i => (h'.replies i).trans (h.replies i)⟩

theorem onlyLooks_search (h : List Entry) (k : Key) (mode : DirLockMode) (v : Option InodeId) :
    OnlyLooks h (⟨.hash .search k mode, v⟩ :: h) :=
  ⟨List.suffix_cons _ _, rfl, rfl, rfl, fun _ => rfl⟩

theorem onlyLooks_nextInodeId (h : List Entry) (id : InodeId) :
    OnlyLooks h (⟨.nextInodeId, id⟩ :: h) :=
  ⟨List.suffix_cons _ _, rfl, rfl, rfl, fun _ => rfl⟩

end FalconFS
