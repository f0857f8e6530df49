/-
# Parsing a path against the directory table

`PathParseTreeInsert` of `utils/path_parse.c` walks along a path, takes a shared lock on every
directory above the target, and treats the target itself as its caller's flags say.  What it has
resolved and locked it remembers in a tree that lives as long as the transaction, so that the
second path of a batch or of a rename finds the locks of the first: a node that is locked
exclusively stops the walk (`PATH_LOCK_CONFLICT`), any other is used without a lookup.

The model keeps the tree as an association from the names on the way down (deepest first) to the
node.  The branch for `PATH_PARSE_FLAG_ACQUIRE_SHARED_LOCK_IF_TARGET_IS_DIRECTORY`, and with it the
lock state `PP_NONE`, is left out: no handler that is modelled here passes that flag.
-/
import FalconFS.Metadb.Operation

namespace FalconFS

/-! ## 1. Paths -/

/-- The character `/`. -/
def slash : UInt8 := 47

/-- A C string, which may be empty. -/
structure Path where
  bytes : List UInt8
  deriving DecidableEq

/-- The pieces of a string between its slashes. -/
def splitSlash : List UInt8 → List Name
  | [] => [[]]
  | c :: s =>
    if c = slash then [] :: splitSlash s
    else
      match splitSlash s with
      | [] => [[c]]
      | n :: ns => (c :: n) :: ns

/-- The names that the loops of `path_parse.c` cut out of a path: its first character, whatever it
is, and then the pieces of what follows.  The empty string is one empty name: the byte behind its
end, which the loop looks at first, is padding, and zero. -/
def Path.names (p : Path) : List Name :=
  match p.bytes with
  | [] => [[]]
  | c :: s => [c] :: if s = [] then [] else splitSlash s

def Path.isRoot (p : Path) : Bool := p.bytes = [slash]

/-- The key of the root. -/
def rootKey : Key := ⟨0, [slash]⟩

def Path.isAbsolute (p : Path) : Bool := p.bytes.head? = some slash

/-- `pathcmp`: the end of a path sorts first, then the end of a name, then the bytes. -/
def pathcmp : List UInt8 → List UInt8 → Int
  | [], [] => 0
  | [], c :: _ => - (c.toNat : Int)
  | _ :: _, [] => 1
  | c₁ :: s₁, c₂ :: s₂ =>
    if c₁ = c₂ then pathcmp s₁ s₂
    else if c₂ = slash then 1
    else if c₁ = slash then -1
    else (c₁.toNat : Int) - c₂.toNat

/-- `VERIFY_PATH_VALIDITY_REQUIREMENT_*` -/
inductive PathRequirement
  | none | mustBeDirectory | mustBeFile
  deriving DecidableEq

/-- `VERIFY_PATH_VALIDITY_PROPERTY_CAN_BE_FILE`; a path that starts with a slash can always be a
directory. -/
def Path.canBeFile (p : Path) : Bool := p.isAbsolute && p.bytes.getLast? != some slash

/-- `VerifyPathValidity` -/
def verifyPathValidity (p : Path) (requirement : PathRequirement) : ErrorCode :=
  if !p.isAbsolute then .pathIsInvalid
  else if requirement = .mustBeFile ∧ p.canBeFile = false then .pathVerifyFailed
  else .success

theorem Path.names_ne_nil (p : Path) : p.names ≠ [] := by
  unfold Path.names
  split <;> simp

theorem splitSlash_ne_nil (s : List UInt8) : splitSlash s ≠ [] := by
  cases s with
  | nil => simp [splitSlash]
  | cons c s =>
    rw [splitSlash]
    split
    · simp
    · split <;> simp

/-- Only the root is a path of one name, of those that begin with a slash. -/
theorem Path.isRoot_of_length {p : Path} (ha : p.isAbsolute = true) (hlen : p.names.length = 1) :
    p.isRoot = true := by
  obtain ⟨_ | ⟨c, s⟩⟩ := p
  · cases ha
  · obtain rfl : c = slash := by simpa [isAbsolute] using ha
    by_cases hs : s = []
    · simp [isRoot, hs]
    · have hne := splitSlash_ne_nil s
      simp [names, hs, hne] at hlen

/-! ## 2. The unlocked lookup -/

/-- The walk of `CheckWhetherPathExistsInDirectoryTable`. -/
def checkNames : InodeId → List Name → Handler (Option InodeId)
  | parentId, [] => pure (some parentId)
  | parentId, n :: ns => do
    match ← Handler.search ⟨parentId, n⟩ .none with
    | none => pure none
    | some id => checkNames id ns

/-- The names it looks up: an empty name at the very end of the path is not one of them. -/
def Path.lookupNames (p : Path) : List Name :=
  if p.names.getLast? = some [] then p.names.dropLast else p.names

/-- `CheckWhetherPathExistsInDirectoryTable` -/
def checkWhetherPathExistsInDirectoryTable (p : Path) : Handler (Option InodeId) :=
  if !p.isAbsolute then .fail .argumentError else checkNames 0 p.lookupNames

/-! ## 3. The tree -/

/-- `lockAcquired` of a node. -/
inductive PathLock
  | shared | exclusive | exclusiveForCreate
  deriving DecidableEq

structure PathNode where
  inodeId : InodeId
  lockAcquired : PathLock
  deriving DecidableEq

/-- `PathParseTree`: the nodes below the root, by the names that lead to them, deepest first.  The
root has inode id 0. -/
abbrev PathTree := List (List Name × PathNode)

/-- `PATH_PARSE_FLAG_*` -/
structure PathParseFlag where
  notRoot : Bool
  targetIsDirectory : Bool
  targetToBeCreated : Bool
  targetToBeDeleted : Bool
  inodeIdForInput : Bool
  allowOperationUnderCreatedDirectory : Bool
  deriving DecidableEq

def PathParseFlag.zero : PathParseFlag := ⟨false, false, false, false, false, false⟩

/-- The output parameters. -/
structure PathTarget where
  parentId : InodeId
  fileName : Name
  inodeId : InodeId
  deriving DecidableEq

def PathTarget.key (g : PathTarget) : Key := ⟨g.parentId, g.fileName⟩

/-! ## 4. `PathParseTreeInsert` -/

/-- The loop: from the node that `cur` leads to (with id `curId`) down along `names`. -/
def walk (tree : PathTree) (cur : List Name) (curId : InodeId) :
    List Name → Handler (PathTree × Except ErrorCode (List Name × InodeId))
  | [] => pure (tree, .ok (cur, curId))
  | n :: ns =>
    match tree.lookup (n :: cur) with
    | some node =>
      if node.lockAcquired = .exclusive then pure (tree, .error .pathLockConflict)
      else walk tree (n :: cur) node.inodeId ns
    | none => do
      match ← Handler.search ⟨curId, n⟩ .shared with
      | none => pure (tree, .error .pathIsInvalid)
      | some id => walk ((n :: cur, ⟨id, .shared⟩) :: tree) (n :: cur) id ns

/-- The target is a directory to be created. -/
def createTarget (flag : PathParseFlag) (input : InodeId) (tree : PathTree) (cur : List Name)
    (curId : InodeId) (n : Name) : Handler (PathTree × Except ErrorCode PathTarget) :=
  match tree.lookup (n :: cur) with
  | some _ => pure (tree, .error .pathExists)
  | none => do
    let existing ← Handler.search ⟨curId, n⟩ .exclusive
    let id ←
      if flag.inodeIdForInput then pure input
      else
        match existing with
        | some id => pure id
        | none => Handler.nextInodeId
    let lock :=
      if flag.allowOperationUnderCreatedDirectory then PathLock.exclusiveForCreate
      else .exclusive
    let tree := (n :: cur, ⟨id, lock⟩) :: tree
    match existing with
    | some _ => pure (tree, .error .pathExists)
    | none => pure (tree, .ok ⟨curId, n, id⟩)

/-- The target is a directory to be deleted. -/
def deleteTarget (tree : PathTree) (cur : List Name) (curId : InodeId) (n : Name) :
    Handler (PathTree × Except ErrorCode PathTarget) :=
  match tree.lookup (n :: cur) with
  | some _ => pure (tree, .error .pathLockConflict)
  | none => do
    match ← Handler.search ⟨curId, n⟩ .exclusive with
    | none => pure (tree, .error .pathNotExists)
    | some id => pure ((n :: cur, ⟨id, .exclusive⟩) :: tree, .ok ⟨curId, n, id⟩)

/-- What happens to the target, once the directories above it are locked. -/
def handleTarget (flag : PathParseFlag) (input : InodeId) (tree : PathTree) (cur : List Name)
    (curId : InodeId) (n : Name) : Handler (PathTree × Except ErrorCode PathTarget) :=
  if flag.targetToBeCreated then
    if flag.targetIsDirectory then createTarget flag input tree cur curId n
    else if flag.inodeIdForInput then pure (tree, .ok ⟨curId, n, input⟩)
    else do
      let id ← Handler.nextInodeId
      pure (tree, .ok ⟨curId, n, id⟩)
  else if flag.targetToBeDeleted && flag.targetIsDirectory then deleteTarget tree cur curId n
  else pure (tree, .ok ⟨curId, n, 0⟩)

/-- `PathParseTreeInsert`; `input` is the id that is passed in with
`PATH_PARSE_FLAG_INODE_ID_FOR_INPUT`. -/
def pathParseTreeInsert (tree : PathTree) (p : Path) (flag : PathParseFlag) (input : InodeId) :
    Handler (PathTree × Except ErrorCode PathTarget) :=
  if p.isRoot && flag.notRoot then pure (tree, .error .pathIsRoot)
  else do
    let (tree, r) ← walk tree [] 0 p.names.dropLast
    match r with
    | .error e => pure (tree, .error e)
    | .ok (cur, curId) =>
      handleTarget flag input tree cur curId (p.names.getLast p.names_ne_nil)

end FalconFS
