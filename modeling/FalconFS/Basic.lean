/-
# Names, keys, rows and error codes

The data that every part of the metadata service shares: file names are byte strings, a directory
entry lives under the key `(parentId, fileName)`, an inode row under the same key in the shard of
the worker that owns it.
-/
import Mathlib.Algebra.Group.Int.Defs
import Mathlib.Algebra.Group.Nat.Defs
import Mathlib.Data.List.Basic

namespace FalconFS

/-- A file name or a path: the bytes before the terminating zero. -/
abbrev Name := List UInt8

abbrev InodeId := Nat

abbrev ServerId := Nat

/-- A session, which runs one transaction at a time. -/
abbrev Sid := Nat

/-- `DirPathHashKey`; also the unique key of the directory table and, since the part id is computed
from the name, of the inode table. -/
structure Key where
  parentId : InodeId
  fileName : Name
  deriving DecidableEq

/-- `FalconErrorCode`, in the order of `error_code.h`. -/
inductive ErrorCode
  | success | pathIsInvalid | pathIsRoot | pathExists | pathNotExists | pathLockConflict
  | pathVerifyFailed | remoteTransferFailed | wrongWorker | obsoleteShard | remoteQueryFailed
  | argumentError | inodeRowTypeError | fileExists | fileNotExists | outOfMemory | streamError
  | programError | smartRouteError | undefined | mkdirDuplicate | xkeyExists | xkeyNotExists
  | versionOutOfDate | invalidParameter | unknown | serverFault | zkNotConnect
  | zkFetchResultFailed | transactionFault | pooledFault | notFoundFd | getAllWorkerConnFailed
  | ioError | readdirRenewConn
  deriving DecidableEq

/-- `DirPathLockMode`: the lock a caller of the dir-path hash asks for. -/
inductive DirLockMode
  | none | shared | exclusive
  deriving DecidableEq

end FalconFS
