/-
# What a store node is asked to do

The functions of `falcon_store.cpp` that go through the disk cache, the file locks and the cache
files of a node: `OpenFile` and `CloseTmpFiles`, `ReadSmallFiles` and its sibling for brpc, the
downloads that fill a cache file from the object storage, and `DeleteFiles`.  Each is a program
over the operations that another thread may come between: one call of `DiskCache`, of `FileLock`,
of the file system or of the storage.

A `FileLocker` releases its lock when it is destroyed.  All locals are destroyed when the function
that made them returns, so `dropLocker` stands at the end of such a function; a locker that a
lambda has captured lives on in the lambda.  `[=, this]` captures what the body of the lambda
uses, and that of `loadObs` does not use `lockerPtr`.

Only files of this node are modelled: for the others the node calls another one and does not touch
its own cache.  Where the bytes go (`toBuffer`), and what else is done with a file while it is
open, is left out.
-/
import FalconFS.Lib.Prog
import FalconFS.Store.DiskCache
import FalconFS.Store.FileLock

namespace FalconFS.Store

/-! ## 1. Operations -/

/-- The number of an error, which is never 0. -/
structure Errno where
  num : Nat
  pos : 0 < num
  deriving DecidableEq

def enoent : Int := 2
def eio : Int := 5
def eagain : Nat := 11
def enospc : Int := 28

/-- What is put into the queue of `storeThreadPool`. -/
inductive StoreTask
  /-- `loadObs`, of a download in the background -/
  | loadObs (key : InodeId) (size : BitVec 64)
  /-- The lambda of `WriteToFileAsync` -/
  | writeFile (key : InodeId) (size : BitVec 64)
  deriving DecidableEq

namespace StoreTask

def key : StoreTask → InodeId
  | loadObs key _ => key
  | writeFile key _ => key

def size : StoreTask → BitVec 64
  | loadObs _ size => size
  | writeFile _ size => size

/-- The lambda has a copy of `lockerPtr`. -/
def captures : StoreTask → Bool
  | loadObs _ _ => false
  | writeFile _ _ => true

end StoreTask

inductive StoreOp
  | find (key : InodeId) (needPin : Bool)
  | insertAndUpdate (key : InodeId) (size : BitVec 64) (needPin : Bool)
  | unpin (key : InodeId)
  | deleteOldCacheWithNoPin (key : InodeId)
  | delete (key : InodeId)
  /-- The check in `PreAllocSpace`, which reserves the space if there is enough. -/
  | reserve (size : BitVec 64)
  | evict (size : BitVec 64)
  | freePreAllocSpace (size : BitVec 64)
  /-- A `FileLocker` with `LockMode::X` is made. -/
  | lockX (key : InodeId) (wait : Bool)
  /-- A copy of `lockerPtr` goes. -/
  | dropLocker (key : InodeId)
  /-- `open` of a cache file by somebody who will use it -/
  | openLocal (key : InodeId)
  /-- `open` with `O_WRONLY | O_CREAT` by somebody who will fill the file -/
  | openLoading (key : InodeId)
  | close
  | pread
  | pwrite
  | remove
  | readObject
  | deleteObject
  | submit (task : StoreTask)
  deriving DecidableEq

/-- `none` is success; a `pread` that does not fill the buffer leaves any number in `errno`. -/
abbrev StoreOp.Res : StoreOp → Type
  | find _ _ => Bool
  | delete _ => Int
  | reserve _ => Bool
  | lockX _ _ => Bool
  | openLocal _ => Option Errno
  | openLoading _ => Option Errno
  | pread => Option Nat
  | pwrite => Bool
  | readObject => Bool
  | deleteObject => Bool
  | _ => Unit

abbrev StoreProg := Prog StoreOp StoreOp.Res Empty

abbrev StoreEntry := Prog.Entry StoreOp StoreOp.Res

namespace StoreProg

def find (key : InodeId) (needPin : Bool) : StoreProg Bool := .op (.find key needPin) .ret

def insertAndUpdate (key : InodeId) (size : BitVec 64) (needPin : Bool) : StoreProg Unit :=
  .op (.insertAndUpdate key size needPin) .ret

def unpin (key : InodeId) : StoreProg Unit := .op (.unpin key) .ret

def deleteOldCacheWithNoPin (key : InodeId) : StoreProg Unit :=
  .op (.deleteOldCacheWithNoPin key) .ret

def delete (key : InodeId) : StoreProg Int := .op (.delete key) .ret

def reserve (size : BitVec 64) : StoreProg Bool := .op (.reserve size) .ret

def evict (size : BitVec 64) : StoreProg Unit := .op (.evict size) .ret

def freePreAllocSpace (size : BitVec 64) : StoreProg Unit := .op (.freePreAllocSpace size) .ret

def lockX (key : InodeId) (wait : Bool) : StoreProg Bool := .op (.lockX key wait) .ret

def dropLocker (key : InodeId) : StoreProg Unit := .op (.dropLocker key) .ret

def openLocal (key : InodeId) : StoreProg (Option Errno) := .op (.openLocal key) .ret

def openLoading (key : InodeId) : StoreProg (Option Errno) := .op (.openLoading key) .ret

def close : StoreProg Unit := .op .close .ret

def pread : StoreProg (Option Nat) := .op .pread .ret

def pwrite : StoreProg Bool := .op .pwrite .ret

def remove : StoreProg Unit := .op .remove .ret

def readObject : StoreProg Bool := .op .readObject .ret

def deleteObject : StoreProg Bool := .op .deleteObject .ret

def submit (task : StoreTask) : StoreProg Unit := .op (.submit task) .ret

/-! ## 2. Loading a cache file -/

/-- The loop of `PreAllocSpace`. -/
def preAllocRetry (size : BitVec 64) : Nat → StoreProg Bool
  | 0 => pure false
  | retryCnt + 1 => do
    evict size
    if ← reserve size then pure true else preAllocRetry size retryCnt

/-- `PreAllocSpace` -/
def preAllocSpace (size : BitVec 64) : StoreProg Bool := do
  if ← reserve size then pure true else preAllocRetry size 3

section

variable (key : InodeId) (fileSize : BitVec 64) (isSync : Bool)

/-- `loadObs` -/
def loadObs : StoreProg Int := do
  let ok ← readObject
  close
  if ok then do
    insertAndUpdate key fileSize isSync
    freePreAllocSpace fileSize
    pure 0
  else do
    remove
    freePreAllocSpace fileSize
    pure (-eio)

/-- A download, from where it has the lock on. -/
def downLoadLocked : StoreProg Int := do
  if ← find key isSync then pure 0
  else if ← preAllocSpace fileSize then
    match ← openLoading key with
    | some err => do
      freePreAllocSpace fileSize
      pure (-err.num)
    | none =>
      if isSync then loadObs key fileSize true
      else do
        submit (.loadObs key fileSize)
        pure 0
  else pure (-enospc)

/-- What the two functions below have in common. -/
def downLoad : StoreProg Int := do
  if ← lockX key isSync then do
    let ret ← downLoadLocked key fileSize isSync
    dropLocker key
    pure ret
  else pure 0

end

end StoreProg

/-- The fields of `OpenInstance` that are read here. -/
structure OpenInstance where
  inodeId : InodeId
  oflags : BitVec 32
  originalSize : BitVec 64
  readBufferSize : BitVec 64
  nodeFail : Bool
  isRemoteCall : Bool

/-- `(oflags & O_ACCMODE) != O_RDONLY` -/
def mayWrite (oflags : BitVec 32) : Bool := oflags &&& 3 ≠ 0

/-- `(oflags & O_CREAT) != 0` -/
def creates (oflags : BitVec 32) : Bool := oflags &&& 64 ≠ 0

namespace StoreProg

/-- `DownLoadFromStorage` -/
def downLoadFromStorage (inst : OpenInstance) (isSync : Bool) : StoreProg Int :=
  downLoad inst.inodeId inst.originalSize isSync

section

variable (key : InodeId) (bufSize : BitVec 64)

/-- `DownLoadFromStorageForBrpc` -/
def downLoadFromStorageForBrpc (isSync : Bool) : StoreProg Int :=
  downLoad key bufSize isSync

/-- `WriteToFileAsync`, from where it has the lock on. -/
def writeLocked : StoreProg Int := do
  if ← find key false then pure 0
  else if ← preAllocSpace bufSize then
    match ← openLoading key with
    | some err => do
      freePreAllocSpace bufSize
      pure (-err.num)
    | none => do
      submit (.writeFile key bufSize)
      pure 0
  else pure (-enospc)

/-- `WriteToFileAsync` -/
def writeToFileAsync : StoreProg Int := do
  if ← lockX key false then do
    let ret ← writeLocked key bufSize
    dropLocker key
    pure ret
  else pure 0

/-- The lambda of `WriteToFileAsync`; its copy of the locker goes with it. -/
def writeFile : StoreProg Int := do
  let ok ← pwrite
  close
  if ok then do
    insertAndUpdate key bufSize false
    freePreAllocSpace bufSize
    dropLocker key
    pure 0
  else do
    freePreAllocSpace bufSize
    dropLocker key
    pure 0

end

def task : StoreTask → StoreProg Int
  | .loadObs key size => loadObs key size false
  | .writeFile key size => writeFile key size

/-! ## 3. Files that are opened and closed -/

/-- The end of `OpenFile` for somebody who may write: the file is opened and, if it is new,
inserted. -/
def openAndInsert (inst : OpenInstance) : StoreProg (Int × Bool) := do
  match ← openLocal inst.inodeId with
  | some err => pure (-err.num, false)
  | none => do
    if inst.originalSize = 0 ∨ creates inst.oflags then insertAndUpdate inst.inodeId 0 true
    pure (0, true)

section

variable (persistToStorage : Bool) (inst : OpenInstance)

/-- `OpenFile` in the case of a cache miss by somebody who may write. -/
def openForWriting : StoreProg (Int × Bool) :=
  if ¬ creates inst.oflags ∧ 0 < inst.originalSize then
    if persistToStorage then do
      let ret ← downLoadFromStorage inst true
      if ret = 0 then openAndInsert inst else pure (ret, false)
    else pure (-enoent, false)
  else openAndInsert inst

/-- `OpenFile`, after the old cache file is gone. -/
def openHere : StoreProg (Int × Bool) := do
  if ← find inst.inodeId true then
    match ← openLocal inst.inodeId with
    | some err => do
      unpin inst.inodeId
      pure (-err.num, false)
    | none => pure (0, true)
  else if mayWrite inst.oflags then openForWriting persistToStorage inst
  else if persistToStorage then do
    let ret ← downLoadFromStorage inst false
    pure (ret, false)
  else pure (-enoent, false)

/-- `OpenFile`: the code it returns, and whether it has set `physicalFd`. -/
def openFile : StoreProg (Int × Bool) := do
  if inst.nodeFail then deleteOldCacheWithNoPin inst.inodeId
  openHere persistToStorage inst

end

/-- `CloseTmpFiles` with `isFlush` -/
def flush (key : InodeId) (currentSize : BitVec 64) : StoreProg Unit :=
  insertAndUpdate key currentSize false

/-- `CloseTmpFiles` without: a file that was never flushed is flushed now. -/
def closeTmpFiles (key : InodeId) (isFlushed : Bool) (currentSize : BitVec 64) :
    StoreProg Unit := do
  if !isFlushed then flush key currentSize
  close
  unpin key

/-- The life of a file: it is opened, flushed with the sizes `flushes`, and closed.  After an
error, and when `physicalFd` was not set, there is nothing to close. -/
def fileLife (persistToStorage : Bool) (inst : OpenInstance) (flushes : List (BitVec 64))
    (currentSize : BitVec 64) : StoreProg Int := do
  let (ret, opened) ← openFile persistToStorage inst
  if opened then do
    flushes.forM (flush inst.inodeId)
    closeTmpFiles inst.inodeId (!flushes.isEmpty) currentSize
  pure ret

/-! ## 4. Small files -/

/-- The end of a read from the cache. -/
def closeAndUnpin (key : InodeId) (ret : Int) : StoreProg Int := do
  close
  unpin key
  pure ret

/-- The case of a cache hit, in `ReadSmallFiles` and `ReadSmallFilesForBrpc`. -/
def readCached (key : InodeId) : StoreProg Int := do
  match ← openLocal key with
  | some err => do
    unpin key
    pure (-err.num)
  | none =>
    match ← pread with
    | none => closeAndUnpin key 0
    | some err =>
      if err = eagain then
        match ← pread with
        | none => closeAndUnpin key 0
        | some err' => closeAndUnpin key (-err')
      else closeAndUnpin key (-err)

/-- The code for a caller who is to read the object himself. -/
def orNoEnt (ret : Int) : Int := if ret = 0 then -enoent else ret

section

variable (persistToStorage : Bool)

/-- `ReadSmallFiles`, after the old cache file is gone. -/
def readHere (inst : OpenInstance) : StoreProg Int := do
  if ← find inst.inodeId true then readCached inst.inodeId
  else if !persistToStorage then pure (-enoent)
  else if mayWrite inst.oflags then downLoadFromStorage inst true
  else if inst.isRemoteCall then do
    let ret ← downLoadFromStorage inst false
    pure (orNoEnt ret)
  else if ← readObject then writeToFileAsync inst.inodeId inst.readBufferSize
  else pure (-eio)

/-- `ReadSmallFiles` -/
def readSmallFiles (inst : OpenInstance) : StoreProg Int := do
  if inst.nodeFail then deleteOldCacheWithNoPin inst.inodeId
  readHere persistToStorage inst

/-- `ReadSmallFilesForBrpc`, after the old cache file is gone. -/
def readHereForBrpc (key : InodeId) (size : BitVec 64) (oflags : BitVec 32) : StoreProg Int := do
  if ← find key true then readCached key
  else if !persistToStorage then pure (-enoent)
  else if mayWrite oflags then downLoadFromStorageForBrpc key size true
  else do
    let ret ← downLoadFromStorageForBrpc key size false
    pure (orNoEnt ret)

/-- `ReadSmallFilesForBrpc` -/
def readSmallFilesForBrpc (key : InodeId) (size : BitVec 64)
    (oflags : BitVec 32) (nodeFail : Bool) : StoreProg Int := do
  if nodeFail then deleteOldCacheWithNoPin key
  readHereForBrpc persistToStorage key size oflags

/-- `OpenFileFromRemote`, called by `ReadSmallFiles`, when it has switched to this node: it opens
the file, and nobody closes it, since `FalconClose` takes a small file for one that was never
opened. -/
def readSwitched (inst : OpenInstance) : StoreProg Int := do
  let (ret, _) ← openFile persistToStorage { inst with nodeFail := true }
  pure ret

end

/-! ## 5. Deletion -/

/-- `DeleteFiles` -/
def deleteFiles (persistToStorage : Bool) (key : InodeId) : StoreProg Int := do
  let ret ←
    if ← find key false then delete key
    else if persistToStorage then pure 0 else pure (-enoent)
  if ret = 0 ∧ persistToStorage then do
    if ← deleteObject then pure 0 else pure (-eio)
  else pure ret

end StoreProg

end FalconFS.Store
