/-
# The dir-path hash of one server

`dir_path_hash.c` keeps, in shared memory, a cache of the directory table: an item for the key
`(parentId, fileName)` holds the inode id, "does not exist", or "unknown", and the reader-writer
lock that protects the path.  Three functions work on it, each in the same rhythm:

1. under the partition's lightweight lock (LW), FIND the item;
2. if it is missing or unknown, release LW and READ the directory table;
3. take LW again and ENTER the item with the value read, or compare it with what is there;
4. pin the item (`RWLockDeclare`), release LW, ACQUIRE the reader-writer lock;
5. MODIFY the table (insert, delete), or return the item's value (search).

Between any two of these the other sessions run.  So a call is a small state machine (`Call`,
`Stage`), and a session owns, besides its running call, the session-local variables of the source:
its lock handles (`held_rwlocks`), its uncommitted table writes, and the actions that
`CommitForDirPathHash` will apply to the cache once the transaction has committed.

Left out, because no behaviour below depends on it: the partition of the hash, `usageCount` and the
choice of a victim (`EliminateDirPathHashByLRU` may evict any destroyable item at any time here),
and the fixed capacities of the arrays.
-/
import FalconFS.Basic
import FalconFS.Utils.RWLock
import Mathlib.Logic.Function.Basic

namespace FalconFS.DirPathHash

/-! ## 1. State -/

/-- The field `inodeId` of an item: `DIR_HASH_TABLE_PATH_UNKNOWN`, or a value of the directory
table, where `none` is `DIR_HASH_TABLE_PATH_NOT_EXIST`. -/
inductive ItemId
  | unknown
  | known (v : Option InodeId)
  deriving DecidableEq

/-- `DIR_HASH_TABLE_PATH_UNKNOWN` -/
def pathUnknown : InodeId := 2 ^ 64 - 2

/-- What a caller gets that reads the field. -/
def ItemId.value : ItemId → Option InodeId
  | .unknown => some pathUnknown
  | .known v => v

/-- `DirPathHashItem`. -/
structure Item where
  inodeId : ItemId
  lock : RWLock Sid

inductive Op
  | search
  | insert (inodeId : InodeId)
  | delete
  deriving DecidableEq

def Op.isInsert : Op → Bool
  | .insert _ => true
  | _ => false

/-- Where a call is. -/
inductive Stage
  | find
  | read
  /-- About to take LW exclusively, with the value for a new item. -/
  | enter (v : ItemId)
  /-- The item is pinned; in the loop of `RWLockAcquire`. -/
  | acquire
  /-- About to change the directory table; `item` says whether there is an item at all. -/
  | modify (item : Bool)
  /-- A search without lock, about to read the item's value: the item is not pinned. -/
  | load
  | returned (r : Option InodeId)
  deriving DecidableEq

structure Call where
  op : Op
  key : Key
  mode : DirLockMode
  stage : Stage
  deriving DecidableEq

/-- `DirPathHashToCommitAction`: an item was added to a partition (`'A'`), or an item gets a new
value when the transaction commits (`'U'`). -/
inductive ToCommit
  | addEntry (k : Key)
  | updateEntry (k : Key) (v : Option InodeId)
  deriving DecidableEq

inductive Phase
  /-- No transaction. -/
  | idle
  | active
  /-- An error was raised; only the abort is left. -/
  | failed
  /-- In the commit or abort callback. -/
  | ending
  deriving DecidableEq

/-- The session-local variables; the lists have their newest element first, except for `toCommit`,
which is in the order in which it will be applied. -/
structure Session where
  phase : Phase
  call : Option Call
  held : List (Key × RWLockMode)
  writes : List (Key × Option InodeId)
  toCommit : List ToCommit

def Session.fresh : Session := ⟨.idle, none, [], [], []⟩

/-- A transaction after `PREPARE TRANSACTION`, with the locks it held at that moment. -/
structure PreparedTxn where
  gid : Nat
  owner : Sid
  writes : List (Key × Option InodeId)
  locks : List (Key × RWLockMode)

/-- One server: the committed directory table, the hash, the sessions. -/
structure Server where
  table : Key → Option InodeId
  hash : Key → Option Item
  session : Sid → Session
  prepared : List PreparedTxn
  /-- Some session raised "dir path hash table is corrupt." -/
  corrupt : Bool

def Server.init (table : Key → Option InodeId) : Server :=
  ⟨table, fun _ => none, fun _ => .fresh, [], false⟩

/-- The table as a transaction with these writes leaves it. -/
def applyWrites (writes : List (Key × Option InodeId)) (table : Key → Option InodeId) :
    Key → Option InodeId :=
  fun k => (writes.lookup k).getD (table k)

def Server.setSession (s : Server) (t : Sid) (x : Session) : Server :=
  { s with session := Function.update s.session t x }

def Server.setItem (s : Server) (k : Key) (it : Item) : Server :=
  { s with hash := Function.update s.hash k (some it) }

def Server.setStage (s : Server) (t : Sid) (c : Call) (st : Stage) : Server :=
  s.setSession t { s.session t with call := some { c with stage := st } }

/-- `ereport(ERROR)` -/
def Server.fail (s : Server) (t : Sid) : Server :=
  s.setSession t { s.session t with call := none, phase := .failed }

/-! ## 2. The steps of a call -/

/-- The mode for `RWLockAcquire`, unless the caller wants no lock. -/
def rwMode : DirLockMode → Option RWLockMode
  | .none => none
  | .shared => some .shared
  | .exclusive => some .exclusive

section

variable (s : Server) (t : Sid) (c : Call)

/-- The end of an LW section that has the item: with a lock to take, the item is pinned. -/
def Server.pin (it : Item) : Server :=
  if c.mode = .none then
    (s.setItem c.key it).setStage t c (if c.op = .search then .load else .modify true)
  else
    (s.setItem c.key { it with lock := it.lock.declare t }).setSession t
      { s.session t with
        call := some { c with stage := .acquire }
        held := (c.key, .declare) :: (s.session t).held }

/-- The first LW section.  Only a delete is content with an unknown item, and it does not read the
table. -/
def Server.find : Server :=
  match s.hash c.key with
  | some it =>
    if c.op = .delete ∨ it.inodeId ≠ .unknown then s.pin t c it else s.setStage t c .read
  | none => s.setStage t c (if c.op = .delete then .enter .unknown else .read)

/-- `SearchDirectoryTableInfo` with a fresh snapshot; the transaction sees its own writes.  An
insert raises "target exists." -/
def Server.read : Server :=
  let v := applyWrites (s.session t).writes s.table c.key
  if c.op.isInsert ∧ v ≠ none then s.fail t else s.setStage t c (.enter (.known v))

/-- The second LW section; `space` says whether `HASH_ENTER_NULL` finds room for a new item.
Without room, a caller that wants a lock evicts something and tries again (here: waits), one that
wants none goes on without an item. -/
def Server.enter (v : ItemId) (space : Bool) : Option Server :=
  match s.hash c.key with
  | none =>
    if space then
      some ((s.setSession t { s.session t with
        toCommit := (s.session t).toCommit ++ [.addEntry c.key] }).pin t c ⟨v, .init⟩)
    else if c.mode = .none then
      some (s.setStage t c (if c.op = .search then .returned v.value else .modify false))
    else none
  | some it =>
    if c.op = .delete then some (s.pin t c it)
    else if it.inodeId = .unknown then some (s.pin t c { it with inodeId := v })
    else if it.inodeId = v then some (s.pin t c it)
    else some { s.fail t with corrupt := true }

/-- One attempt of `RWLockAcquire`; when it succeeds, the handle replaces the declaration, and a
search returns the item's value. -/
def Server.acquire : Option Server :=
  match s.hash c.key, rwMode c.mode with
  | some it, some m =>
    let l := it.lock.attemptLock t m
    if l.2 then
      some ((s.setItem c.key { it with lock := l.1.undeclare t }).setSession t
        { s.session t with
          call := some { c with
            stage := if c.op = .search then .returned it.inodeId.value else .modify true }
          held := (c.key, m) :: (s.session t).held.erase (c.key, .declare) })
    else some (s.setItem c.key { it with lock := l.1 })
  | _, _ => none

/-- A table write and, if there is an item, the action that will repeat it in the hash. -/
def Server.write (item : Bool) (v : Option InodeId) : Server :=
  s.setSession t { s.session t with
    call := some { c with stage := .returned none }
    writes := (c.key, v) :: (s.session t).writes
    toCommit := (s.session t).toCommit ++ if item then [.updateEntry c.key v] else [] }

/-- `InsertIntoDirectoryTable`, `DeleteFromDirectoryTable`: errors on a row that exists, or does
not; waits for a prepared transaction that has changed the row. -/
def Server.modify (item : Bool) : Option Server :=
  if s.prepared.any (fun p => p.writes.any (·.1 = c.key)) then none
  else
    match c.op, applyWrites (s.session t).writes s.table c.key with
    | .insert inodeId, none => some (s.write t c item (some inodeId))
    | .delete, some _ => some (s.write t c item none)
    | .search, _ => none
    | _, _ => some (s.fail t)

end

/-- What is not determined by the state: whether the hash has room, and what an unpinned item
holds by the time it is read. -/
structure Choice where
  space : Bool
  loaded : Option InodeId

/-- The next step of the call of session `t`. -/
def Server.advance (s : Server) (t : Sid) (x : Choice) : Option Server :=
  match (s.session t).call with
  | none => none
  | some c =>
    match c.stage with
    | .find => some (s.find t c)
    | .read => some (s.read t c)
    | .enter v => s.enter t c v x.space
    | .acquire => s.acquire t c
    | .modify item => s.modify t c item
    | .load => some (s.setStage t c (.returned x.loaded))
    | .returned _ => none

/-! ## 3. The steps of a transaction -/

section

variable (s : Server) (t : Sid)

/-- The callers' discipline: a table write is made under the exclusive lock of its key, taken by
the same call or held already (`DIR_LOCK_NONE`). -/
def Server.mayCall (op : Op) (k : Key) (mode : DirLockMode) : Bool :=
  op = .search || mode = .exclusive ||
    (mode = .none && (s.session t).held.contains (k, .exclusive))

/-- The local commit: the writes become visible, the commit callback begins. -/
def Server.commit : Server :=
  { s with table := applyWrites (s.session t).writes s.table }.setSession t
    { s.session t with phase := .ending, writes := [] }

/-- The abort callback begins with `AbortForDirPathHash`. -/
def Server.abort : Server :=
  s.setSession t { s.session t with phase := .ending, call := none, writes := [], toCommit := [] }

/-- `CommitForDirPathHash`, one action.  If the item is gone a new one is entered (its lock is
whatever the freed memory holds: nobody has a handle on it). -/
def Server.applyToCommit (space : Bool) : Option Server :=
  match (s.session t).toCommit with
  | [] => none
  | a :: rest =>
    let s := s.setSession t { s.session t with toCommit := rest }
    match a with
    | .addEntry _ => some s
    | .updateEntry k v =>
      match s.hash k with
      | some it => some (s.setItem k { it with inodeId := .known v })
      | none => some (if space then s.setItem k ⟨.known v, .init⟩ else s)

/-- `RWLockReleaseAll`, one handle, the newest first; with none left the session is idle. -/
def Server.release : Server :=
  match (s.session t).held with
  | [] => s.setSession t { s.session t with phase := .idle }
  | (k, m) :: rest =>
    let s := s.setSession t { s.session t with held := rest }
    match s.hash k with
    | some it => s.setItem k { it with lock := it.lock.release t m }
    | none => s

/-- `PREPARE TRANSACTION`: the callback resets the path-parse tree and nothing else, so the handles
and the actions stay with the session. -/
def Server.prepare (gid : Nat) : Server :=
  { s with prepared := ⟨gid, t, (s.session t).writes, (s.session t).held⟩ :: s.prepared }.setSession
    t { s.session t with phase := .idle, writes := [] }

/-- The backend goes away: `FalconCleanupOnExit` begins with `RWLockReleaseAll`, a transaction that
is still open is aborted, and the session-local variables are gone, also those of a transaction that
the session has prepared.  A new backend may have the number afterwards. -/
def Server.cleanupOnExit : Server := s.abort t

/-- `COMMIT PREPARED` or `ROLLBACK PREPARED`, run by any idle session: the command's own
transaction ends with an ordinary commit, whose callback works on the variables of THIS session. -/
def Server.finishPrepared (p : PreparedTxn) (commit : Bool) : Server :=
  { s with
    table := if commit then applyWrites p.writes s.table else s.table
    prepared := s.prepared.filter (·.gid ≠ p.gid) }.setSession
    t { s.session t with phase := .ending }

end

inductive Event
  | begin (t : Sid)
  | call (t : Sid) (op : Op) (k : Key) (mode : DirLockMode)
  | advance (t : Sid) (x : Choice)
  | ret (t : Sid)
  | commit (t : Sid)
  | abort (t : Sid)
  | applyToCommit (t : Sid) (space : Bool)
  | release (t : Sid)
  | evict (k : Key)
  | prepare (t : Sid) (gid : Nat)
  | finishPrepared (t : Sid) (gid : Nat) (commit : Bool)
  | exit (t : Sid)

/-- A call that has come to its end. -/
def Call.isReturned (c : Call) : Bool :=
  match c.stage with
  | .returned _ => true
  | _ => false

def step (s : Server) : Event → Option Server
  | .begin t =>
    if (s.session t).phase = .idle then
      some (s.setSession t { s.session t with phase := .active })
    else none
  | .call t op k mode =>
    if (s.session t).phase = .active ∧ (s.session t).call = none ∧ s.mayCall t op k mode then
      some (s.setSession t { s.session t with call := some ⟨op, k, mode, .find⟩ })
    else none
  | .advance t x => if (s.session t).phase = .active then s.advance t x else none
  | .ret t =>
    if (s.session t).call.any (·.isReturned) then
      some (s.setSession t { s.session t with call := none })
    else none
  | .commit t =>
    if (s.session t).phase = .active ∧ (s.session t).call = none then some (s.commit t) else none
  | .abort t =>
    if (s.session t).phase = .active ∨ (s.session t).phase = .failed then some (s.abort t)
    else none
  | .applyToCommit t space =>
    if (s.session t).phase = .ending then s.applyToCommit t space else none
  | .release t =>
    if (s.session t).phase = .ending ∧ (s.session t).toCommit = [] then some (s.release t)
    else none
  | .evict k =>
    match s.hash k with
    | some it =>
      if it.lock.checkDestroyable then some { s with hash := Function.update s.hash k none }
      else none
    | none => none
  | .prepare t gid =>
    if (s.session t).phase = .active ∧ (s.session t).call = none ∧
        ¬ s.prepared.any (·.gid = gid) then
      some (s.prepare t gid)
    else none
  | .finishPrepared t gid commit =>
    if (s.session t).phase = .idle then
      (s.prepared.find? (·.gid = gid)).map fun p => s.finishPrepared t p commit
    else none
  | .exit t =>
    -- the callbacks of a commit or an abort are not interrupted
    if (s.session t).phase ≠ .ending then some (s.cleanupOnExit t) else none

/-- `EliminateDirPathHashByLRU` leaves a partition with at most 12 items alone
(`MAX_BUCKET_SUM_LRU_CLAER_BEGIN / DIR_PATH_HASH_PARTITION_SIZE`).  The hash code is not modelled,
so that `step` evicts from any partition; where it matters, `partition` is keys of one partition. -/
def crowded (partition : List Key) (s : Server) : Event → Bool
  | .evict k => partition.contains k && 12 < (partition.filter fun k => (s.hash k).isSome).length
  | _ => true

/-- Twelve keys, to fill a partition with. -/
def others : List Key :=
  [98, 99, 100, 101, 102, 103, 104, 105, 106, 107, 108, 109].map fun c => ⟨1, [c]⟩

/-- A session looks up a key that has no item, and is alone until the call has returned. -/
def lookUp (t : Sid) (k : Key) : List Event :=
  .call t .search k .shared :: (List.replicate 4 (.advance t ⟨true, none⟩) ++ [.ret t])

/-- Session 3 enters the twelve. -/
def lookUpOthers : List Event := .begin 3 :: others.flatMap (lookUp 3)

/-! ## 4. What a step of a call can do

The case analysis that every invariant needs, made once. -/

/-- The value a transaction sees at a key. -/
abbrev Server.visible (s : Server) (t : Sid) (k : Key) : Option InodeId :=
  applyWrites (s.session t).writes s.table k

inductive Advance (s : Server) (t : Sid) (c : Call) (x : Choice) : Server → Prop
  | toRead (hs : c.stage = .find) (ho : c.op ≠ .delete)
      (hk : ∀ it, s.hash c.key = some it → it.inodeId = .unknown) :
      Advance s t c x (s.setStage t c .read)
  | toEnter (hs : c.stage = .find) (ho : c.op = .delete) (hk : s.hash c.key = none) :
      Advance s t c x (s.setStage t c (.enter .unknown))
  | read (hs : c.stage = .read) (ho : c.op.isInsert → s.visible t c.key = none) :
      Advance s t c x (s.setStage t c (.enter (.known (s.visible t c.key))))
  | readExists (hs : c.stage = .read) : Advance s t c x (s.fail t)
  | pinFound (it : Item) (hk : s.hash c.key = some it)
      (hs : c.stage = .find ∧ (c.op = .delete ∨ it.inodeId ≠ .unknown) ∨
        ∃ v, c.stage = .enter v ∧ (c.op = .delete ∨ it.inodeId ≠ .unknown ∧ it.inodeId = v)) :
      Advance s t c x (s.pin t c it)
  | pinFilled (it : Item) (v : ItemId) (hs : c.stage = .enter v) (ho : c.op ≠ .delete)
      (hk : s.hash c.key = some it) (hu : it.inodeId = .unknown) :
      Advance s t c x (s.pin t c { it with inodeId := v })
  | pinNew (v : ItemId) (hs : c.stage = .enter v) (hk : s.hash c.key = none) :
      Advance s t c x ((s.setSession t { s.session t with
        toCommit := (s.session t).toCommit ++ [.addEntry c.key] }).pin t c ⟨v, .init⟩)
  | noSpace (v : ItemId) (hs : c.stage = .enter v) (hk : s.hash c.key = none)
      (hm : c.mode = .none) :
      Advance s t c x
        (s.setStage t c (if c.op = .search then .returned v.value else .modify false))
  | corrupt (it : Item) (v : ItemId) (hs : c.stage = .enter v) (ho : c.op ≠ .delete)
      (hk : s.hash c.key = some it) (hu : it.inodeId ≠ .unknown) (hv : it.inodeId ≠ v) :
      Advance s t c x { s.fail t with corrupt := true }
  | acquired (it : Item) (m : RWLockMode) (hs : c.stage = .acquire) (hk : s.hash c.key = some it)
      (hm : rwMode c.mode = some m) (hgot : (it.lock.attemptLock t m).2 = true) :
      Advance s t c x ((s.setItem c.key
          { it with lock := (it.lock.attemptLock t m).1.undeclare t }).setSession t
        { s.session t with
          call := some { c with
            stage := if c.op = .search then .returned it.inodeId.value else .modify true }
          held := (c.key, m) :: (s.session t).held.erase (c.key, .declare) })
  | refused (it : Item) (m : RWLockMode) (hs : c.stage = .acquire) (hk : s.hash c.key = some it)
      (hm : rwMode c.mode = some m) (hno : (it.lock.attemptLock t m).2 = false) :
      Advance s t c x (s.setItem c.key { it with lock := (it.lock.attemptLock t m).1 })
  | wrote (item : Bool) (v : Option InodeId) (hs : c.stage = .modify item)
      (hfree : ∀ p ∈ s.prepared, ∀ w ∈ p.writes, w.1 ≠ c.key)
      (ho : (∃ id, c.op = .insert id ∧ v = some id) ∧ s.visible t c.key = none ∨
        c.op = .delete ∧ v = none ∧ s.visible t c.key ≠ none) :
      Advance s t c x (s.write t c item v)
  | modifyFailed (item : Bool) (hs : c.stage = .modify item) : Advance s t c x (s.fail t)
  | loaded (hs : c.stage = .load) : Advance s t c x (s.setStage t c (.returned x.loaded))

variable {s s' : Server} {t : Sid} {c : Call}

theorem find_cases (x : Choice) (hs : c.stage = .find) : Advance s t c x (s.find t c) := by
  simp only [Server.find]
  split
  · rename_i it hk
    split
    · rename_i h
      exact .pinFound it hk (.inl ⟨hs, h⟩)
    · rename_i h
      obtain ⟨ho, hu⟩ := not_or.mp h
      refine .toRead hs ho fun it' hk' => ?_
      rw [hk, Option.some.injEq] at hk'
      rw [← hk']
      exact not_not.mp hu
  · rename_i hk
    split
    · rename_i ho
      exact .toEnter hs ho hk
    · rename_i ho
      exact .toRead hs ho fun it hit => by simp [hk] at hit

theorem enter_cases {v : ItemId} (x : Choice) (hs : c.stage = .enter v)
    (h : s.enter t c v x.space = some s') : Advance s t c x s' := by
  simp only [Server.enter] at h
  split at h
  · rename_i hk
    split at h
    · cases h
      exact .pinNew v hs hk
    · split at h
      · rename_i hm
        cases h
        exact .noSpace v hs hk hm
      · cases h
  · rename_i it hk
    split at h
    · rename_i ho
      cases h
      exact .pinFound it hk (.inr ⟨v, hs, .inl ho⟩)
    · rename_i ho
      split at h
      · rename_i hu
        cases h
        exact .pinFilled it v hs ho hk hu
      · rename_i hu
        split at h
        · rename_i hv
          cases h
          exact .pinFound it hk (.inr ⟨v, hs, .inr ⟨hu, hv⟩⟩)
        · rename_i hv
          cases h
          exact .corrupt it v hs ho hk hu hv

theorem modify_cases {item : Bool} (x : Choice) (hs : c.stage = .modify item)
    (h : s.modify t c item = some s') : Advance s t c x s' := by
  simp only [Server.modify] at h
  split at h
  · cases h
  · rename_i hfree
    have hfree : ∀ p ∈ s.prepared, ∀ w ∈ p.writes, w.1 ≠ c.key := by
      intro p hp w hw hk
      exact hfree (List.any_eq_true.mpr ⟨p, hp, List.any_eq_true.mpr ⟨w, hw, by simp [hk]⟩⟩)
    split at h
    · rename_i id hop hv
      cases h
      exact .wrote item _ hs hfree (.inl ⟨⟨id, hop, rfl⟩, hv⟩)
    · rename_i w hop hv
      cases h
      exact .wrote item _ hs hfree (.inr ⟨hop, rfl, by simp [Server.visible, hv]⟩)
    · cases h
    · cases h
      exact .modifyFailed item hs

/-- **Every step of a call is one of these.** -/
theorem advance_cases {x : Choice} (hstep : step s (.advance t x) = some s') :
    (s.session t).phase = .active ∧
      ∃ c, (s.session t).call = some c ∧ Advance s t c x s' := by
  obtain ⟨hp, h⟩ := Option.ite_none_right_eq_some.mp hstep
  refine ⟨hp, ?_⟩
  simp only [Server.advance] at h
  split at h
  · cases h
  · rename_i c hc
    refine ⟨c, hc, ?_⟩
    split at h
    · rename_i hs
      cases h
      exact find_cases x hs
    · rename_i hs
      cases h
      simp only [Server.read]
      split
      · exact .readExists hs
      · rename_i hno
        refine .read hs fun hi => ?_
        by_contra hne
        exact hno ⟨hi, hne⟩
    · rename_i v hs
      exact enter_cases x hs h
    · rename_i hs
      simp only [Server.acquire] at h
      split at h
      · rename_i it m hk hm
        split at h
        · rename_i hgot
          cases h
          exact .acquired it m hs hk hm hgot
        · rename_i hno
          cases h
          exact .refused it m hs hk hm ((Bool.not_eq_true _).mp hno)
      · cases h
    · rename_i item hs
      exact modify_cases x hs h
    · rename_i hs
      cases h
      exact .loaded hs
    · cases h

end FalconFS.DirPathHash
