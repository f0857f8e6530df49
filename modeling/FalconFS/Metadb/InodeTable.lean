/-
# The inode table of a worker

A worker keeps the inode rows of its shards under the key `(parentId, name)`.  The handlers reach
them in a handful of ways, collected in `InodeOp`: the unique-index insert of
`InsertIntoInodeTable`, `SearchAndUpdateInodeTableInfo`, the delete of
`FalconRenameSubRenameLocallyHandle`, the range scan of `FalconRmdirSubRmdirHandle`, and the
internal subtransaction of `FalconCreateHandle`.

PostgreSQL's part is modelled as far as the handlers can see it.  A statement sees the committed
rows and the writes of its own transaction; a transaction that writes a row, or inserts under a
key, waits while another transaction has an uncommitted write under that key.  The uncommitted
writes of a transaction are a list of `Put`s, newest first; each remembers the row it replaced.

Of a row the model keeps the fields that the handlers compute with; the others (`st_dev`, `st_uid`,
`st_gid`, `st_rdev`, `st_blksize`, `st_blocks`, the times, `etag`, `update_version`,
`backup_nodeid`) are constants or copied along.
-/
import FalconFS.Basic
import Mathlib.Data.List.AList

namespace FalconFS

open AList

/-! ## 1. Rows -/

/-- A row of the inode table, without its key. -/
structure InodeRow where
  stIno : InodeId
  stMode : Nat
  stNlink : Nat
  stSize : Int
  primaryNodeId : Int
  deriving DecidableEq

/-- `S_IFMT`, `S_IFDIR`, `S_IFREG`. -/
def sIfmt : Nat := 0o170000
def sIfdir : Nat := 0o040000
def sIfreg : Nat := 0o100000

/-- `S_ISDIR`, `S_ISREG`. -/
def sIsdir (mode : Nat) : Bool := mode &&& sIfmt == sIfdir
def sIsreg (mode : Nat) : Bool := mode &&& sIfmt == sIfreg

def InodeRow.isDir (r : InodeRow) : Bool := sIsdir r.stMode
def InodeRow.isReg (r : InodeRow) : Bool := sIsreg r.stMode

/-- The row that a `mkdir` inserts. -/
def dirRow (inodeId : InodeId) : InodeRow := ⟨inodeId, sIfdir ||| 0o755, 2, 0, -1⟩

/-- The row that a `create` on worker `self` inserts. -/
def fileRow (self : ServerId) (inodeId : InodeId) : InodeRow :=
  ⟨inodeId, sIfreg ||| 0o644, 1, 0, self⟩

@[simp] theorem isDir_dirRow (id : InodeId) : (dirRow id).isDir = true :=
  (by decide : sIsdir (sIfdir ||| 0o755) = true)

@[simp] theorem isDir_fileRow (self : ServerId) (id : InodeId) : (fileRow self id).isDir = false :=
  (by decide : sIsdir (sIfreg ||| 0o644) = false)

/-- `modeCheckType` -/
inductive ModeCheck
  | none | mustBeFile | mustBeDirectory
  deriving DecidableEq

def ModeCheck.fails : ModeCheck → InodeRow → Bool
  | .none, _ => false
  | .mustBeFile, r => !r.isReg
  | .mustBeDirectory, r => !r.isDir

/-- The arguments of `SearchAndUpdateInodeTableInfo` that decide what happens to the row. -/
structure SearchAndUpdate where
  doUpdate : Bool
  newSize : Option Int
  /-- `nlinkChangeNum`, when the caller passes `nlink` -/
  nlinkChange : Option Int
  modeCheck : ModeCheck
  newPrimaryNodeId : Option Int
  deriving DecidableEq

/-- Read only. -/
def SearchAndUpdate.read : SearchAndUpdate := ⟨false, none, none, .none, none⟩

/-- 64-bit unsigned addition of a signed change. -/
def addNlink (nlink : Nat) (change : Int) : Nat := ((nlink + change) % 2 ^ 64).toNat

/-- What happens to the row: nothing (`none`), or it gets a new content, or it is deleted.  The link
count decides on deletion BEFORE the mode is checked; all other changes come after. -/
def SearchAndUpdate.apply (u : SearchAndUpdate) (r : InodeRow) : Option (Option InodeRow) :=
  if u.doUpdate then
    if u.nlinkChange.any (addNlink r.stNlink · = 0) then some none
    else if u.modeCheck.fails r then none
    else if u.newSize.isSome || u.nlinkChange.isSome || u.newPrimaryNodeId.isSome then
      some (some { r with
        stSize := u.newSize.getD r.stSize
        stNlink := (u.nlinkChange.map (addNlink r.stNlink)).getD r.stNlink
        primaryNodeId := u.newPrimaryNodeId.getD r.primaryNodeId })
    else none
  else none

/-! ## 2. Tables and uncommitted writes -/

abbrev InodeTable := AList (fun _ : Key => InodeRow)

/-- `none` deletes the row. -/
def InodeTable.set (tbl : InodeTable) (k : Key) : Option InodeRow → InodeTable
  | some r => insert k r tbl
  | none => erase k tbl

theorem lookup_set (tbl : InodeTable) (k k' : Key) (v : Option InodeRow) :
    lookup k' (tbl.set k v) = if k' = k then v else lookup k' tbl := by
  cases v with
  | none =>
    by_cases h : k' = k
    · subst h
      simp [InodeTable.set]
    · simp [InodeTable.set, h, lookup_erase_ne h]
  | some r =>
    by_cases h : k' = k
    · subst h
      simp [InodeTable.set]
    · simp [InodeTable.set, h, lookup_insert_ne h]

/-- An uncommitted write of one row. -/
structure Put where
  key : Key
  old : Option InodeRow
  new : Option InodeRow
  deriving DecidableEq

/-- The table as a transaction with these writes sees it, and as its commit leaves it. -/
def applyPuts (puts : List Put) (tbl : InodeTable) : InodeTable :=
  puts.foldr (fun p tbl => tbl.set p.key p.new) tbl

@[simp] theorem applyPuts_nil (tbl : InodeTable) : applyPuts [] tbl = tbl := rfl

theorem lookup_applyPuts_cons (p : Put) (puts : List Put) (tbl : InodeTable) (k : Key) :
    lookup k (applyPuts (p :: puts) tbl) =
      if k = p.key then p.new else lookup k (applyPuts puts tbl) := lookup_set _ _ _ _

theorem lookup_applyPuts_of_not_mem {puts : List Put} {k : Key} (tbl : InodeTable)
    (h : ∀ p ∈ puts, p.key ≠ k) : lookup k (applyPuts puts tbl) = lookup k tbl := by
  induction puts with
  | nil => rfl
  | cons p puts ih =>
    rw [lookup_applyPuts_cons, if_neg (Ne.symm (h p List.mem_cons_self))]
    exact ih fun q hq => h q (List.mem_cons_of_mem _ hq)

/-! ## 3. Operations -/

inductive InodeOp
  /-- `InsertIntoInodeTable`; the result says whether the key was free. -/
  | insert (k : Key) (row : InodeRow)
  | searchAndUpdate (k : Key) (u : SearchAndUpdate)
  /-- Search and `CatalogTupleDelete`. -/
  | remove (k : Key)
  /-- Is there a row under this parent in this shard? -/
  | scan (shard : Nat) (parentId : InodeId)
  | beginSub
  | releaseSub
  | rollbackSub
  deriving DecidableEq

abbrev InodeOp.Res : InodeOp → Type
  | .insert _ _ => Bool
  | .searchAndUpdate _ _ => Option InodeRow
  | .remove _ => Option InodeRow
  | .scan _ _ => Bool
  | .beginSub | .releaseSub | .rollbackSub => Unit

/-- The result on the table that the transaction sees. -/
def InodeOp.result (shard : Key → Nat) (view : InodeTable) : (o : InodeOp) → o.Res
  | .insert k _ => (lookup k view).isNone
  | .searchAndUpdate k _ => lookup k view
  | .remove k => lookup k view
  | .scan n p => view.keys.any fun k => shard k = n ∧ k.parentId = p
  | .beginSub | .releaseSub | .rollbackSub => ()

/-- The writes of an operation with this result. -/
def InodeOp.puts : (o : InodeOp) → o.Res → List Put
  | .insert k row, free => if free then [⟨k, none, some row⟩] else []
  | .searchAndUpdate _ _, none => []
  | .searchAndUpdate k u, some r =>
    match u.apply r with
    | none => []
    | some new => [⟨k, some r, new⟩]
  | .remove _, none => []
  | .remove k, some r => [⟨k, some r, none⟩]
  | .scan _ _, _ | .beginSub, _ | .releaseSub, _ | .rollbackSub, _ => []

/-- The keys on which the operation waits for other transactions.  An insert waits for any writer
of its key, since the unique index has to know the outcome; the others only when they write. -/
def InodeOp.waitsFor : (o : InodeOp) → o.Res → List Key
  | .insert k _, _ => [k]
  | .searchAndUpdate k u, r => (InodeOp.puts (.searchAndUpdate k u) r).map (·.key)
  | .remove k, r => (InodeOp.puts (.remove k) r).map (·.key)
  | .scan _ _, _ | .beginSub, _ | .releaseSub, _ | .rollbackSub, _ => []

end FalconFS
