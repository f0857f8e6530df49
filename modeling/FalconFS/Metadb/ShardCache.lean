/-
# The shared cache of the shard table

All the backends of a server search one copy of the shard table in shared memory.  An update sets
a flag beside it, and whoever finds the flag set reads the table again.  The update sets the flag
at the end of `falcon_update_shard_table`, which is before its transaction commits; who reads the
table in between finds the rows as they were, and clears the flag.

The model is a machine with one event for each thing that a backend does in one go: an atomic
operation on the flag, a scan with its snapshot, taking and releasing the lock.  A transaction
that has changed a row keeps the others from changing it until it ends; its changes are seen by
its own backend only, and by all from its commit on.

What a search may answer is kept with it: `seen` are the tables that were committed since it has
started.  `search_answers` says that a search answers according to one of them, in every run in
which no scan comes between an update's setting of the flag and its end; `stale_after_commit` is
what happens otherwise.
-/
import FalconFS.Lib.Machine
import FalconFS.Metadb.ShardTable

namespace FalconFS.ShardTable

open Machine List

/-! ## 1. The machine -/

abbrev BackendId := Nat

/-- `SHARD_COUNT_MAX`. -/
def shardCountMax : Nat := 100000000

/-- One change of `falcon_update_shard_table`: a new server for the range point, or a new row. -/
def upsert (rangePoint serverId : Int) : List Row → List Row
  | [] => [(rangePoint, serverId)]
  | r :: rows =>
    if rangePoint < r.rangePoint then (rangePoint, serverId) :: r :: rows
    else if rangePoint = r.rangePoint then (rangePoint, serverId) :: rows
    else r :: upsert rangePoint serverId rows

/-- The table as it looks with changes on top of it. -/
def withChanges (rows : List Row) (changes : List (Int × Int)) : List Row :=
  changes.foldl (fun rows c => upsert c.1 c.2 rows) rows

/-- A transaction that updates the table: what it has changed, the last change last, and whether the
flag was set after that. -/
structure Update where
  changes : List (Int × Int)
  invalidated : Bool
  deriving DecidableEq, Repr

/-- Where a backend is.  `searching` is the loop around the flag; `reloading` is inside
`ReloadShardTableShmemCache`, for a search or not; `checked` has found the flag clear and waits
for the lock. -/
inductive Pc where
  | idle
  | searching (seen : List (List Row))
  | reloading (seen : Option (List (List Row)))
  | checked (seen : List (List Row))
  deriving DecidableEq, Repr

/-- One more table has been committed. -/
def Pc.see (rows : List Row) : Pc → Pc
  | idle => idle
  | searching seen => searching (seen ++ [rows])
  | reloading seen => reloading (seen.map (· ++ [rows]))
  | checked seen => checked (seen ++ [rows])

/-- The state.  `updates` are the open transactions that have changed the table, `lock` is who
holds the lock exclusively, and what its scan has found. -/
structure CacheState where
  committed : List Row
  updates : List (BackendId × Update)
  invalid : Bool
  cache : List Row
  lock : Option (BackendId × Option (List Row))
  pcs : BackendId → Pc

inductive CacheEvent where
  | change (b : BackendId) (rangePoint serverId : Int)
  | invalidate (b : BackendId)
  | commit (b : BackendId)
  | abort (b : BackendId)
  | callback
  | reloadCall (b : BackendId)
  | reloadBegin (b : BackendId)
  | reloadScan (b : BackendId)
  | reloadEnd (b : BackendId)
  | reloadFail (b : BackendId) (loaded : Nat)
  | searchStart (b : BackendId)
  | searchCheck (b : BackendId)
  | searchRead (b : BackendId)
  deriving DecidableEq, Repr

namespace CacheState

section

variable (s : CacheState) (b : BackendId)

def updateOf : Option Update := s.updates.lookup b

/-- The uncommitted changes of a backend. -/
def changesOf : List (Int × Int) :=
  match s.updateOf b with
  | some u => u.changes
  | none => []

/-- What a scan of a backend finds: a snapshot of its own, and its own changes. -/
def viewOf : List Row := withChanges s.committed (s.changesOf b)

def without : List (BackendId × Update) :=
  s.updates.filter fun u => u.1 != b

/-- No other transaction has changed the row; otherwise the change waits for it to end. -/
def rowFree (rangePoint : Int) : Bool :=
  (s.without b).all fun u => u.2.changes.all fun c => c.1 != rangePoint

end

/-- An open transaction that has changed the table and has set the flag for the last time. -/
def announced (s : CacheState) : Bool := s.updates.any fun u => u.2.invalidated

def setPc (s : CacheState) (b : BackendId) (pc : Pc) : BackendId → Pc :=
  fun b' => if b' = b then pc else s.pcs b'

/-- Where a search goes on, or nowhere, when a reload is over. -/
def afterReload : Option (List (List Row)) → Pc
  | some seen => .searching seen
  | none => .idle

def step (s : CacheState) : CacheEvent → Option CacheState
  | .change b rangePoint serverId =>
    if s.pcs b = .idle ∧ s.rowFree b rangePoint = true then
      some { s with
        updates := (b, ⟨s.changesOf b ++ [(rangePoint, serverId)], false⟩) :: s.without b }
    else none
  | .invalidate b =>
    -- the end of `falcon_update_shard_table`
    match s.updateOf b with
    | some u => some { s with invalid := true, updates := (b, ⟨u.changes, true⟩) :: s.without b }
    | none => none
  | .commit b =>
    match s.updateOf b with
    | some u =>
      if s.pcs b = .idle ∧ u.invalidated = true then
        let rows := withChanges s.committed u.changes
        some { s with
          committed := rows, updates := s.without b, pcs := fun b' => (s.pcs b').see rows }
      else none
    | none => none
  | .abort b => some { s with updates := s.without b }
  | .callback => some { s with invalid := true }
  | .reloadCall b =>
    -- `falcon_reload_shard_table_cache`
    if s.pcs b = .idle then some { s with invalid := true, pcs := s.setPc b (.reloading none) }
    else none
  | .reloadBegin b =>
    match s.pcs b, s.lock with
    | .reloading seen, none =>
      -- the exchange finds out whether somebody else has reloaded
      if s.invalid then some { s with invalid := false, lock := some (b, none) }
      else some { s with pcs := s.setPc b (afterReload seen) }
    | _, _ => none
  | .reloadScan b =>
    if s.lock = some (b, none) then some { s with lock := some (b, some (s.viewOf b)) } else none
  | .reloadEnd b =>
    match s.pcs b, s.lock with
    | .reloading seen, some (b', some view) =>
      if b' = b then
        if shardCountMax < view.length then
          -- the flag is set again, and the error ends the statement
          some { s with invalid := true, cache := view.take shardCountMax, lock := none,
                        pcs := s.setPc b .idle }
        else some { s with cache := view, lock := none, pcs := s.setPc b (afterReload seen) }
      else none
    | _, _ => none
  | .reloadFail b loaded =>
    -- an error inside the reload: the flag is clear, and what was loaded so far is what is cached
    match s.lock with
    | some (b', view) =>
      if b' = b then
        some { s with cache := (view.getD []).take loaded, lock := none, pcs := s.setPc b .idle }
      else none
    | none => none
  | .searchStart b =>
    if s.pcs b = .idle then some { s with pcs := s.setPc b (.searching [s.committed]) } else none
  | .searchCheck b =>
    match s.pcs b with
    | .searching seen =>
      some { s with pcs := s.setPc b (if s.invalid then .reloading (some seen) else .checked seen) }
    | _ => none
  | .searchRead b =>
    match s.pcs b, s.lock with
    | .checked _, none => some { s with pcs := s.setPc b .idle }
    | _, _ => none

/-- `ShardTableShmemInit`: nothing is cached, and the flag says so. -/
def init (committed : List Row) : CacheState :=
  ⟨committed, [], true, [], none, fun _ => .idle⟩

/-- **What a search that reads the cache now answers** is what it would have found in a table that
was committed since it has started, whatever it looks for. -/
def AnswersCommitted (s : CacheState) : Prop :=
  ∀ b seen, s.pcs b = .checked seen → s.lock = none →
    ∃ rows ∈ seen, ∀ hash shardColValue, searchShardInfoByShardValue hash s.cache shardColValue =
      searchShardInfoByShardValue hash rows shardColValue

/-- **The condition on a reload**: when it scans, its backend has no changes of its own, no
transaction is between its last setting of the flag and its end, unless the flag is set again, and
the table is not too large; and it does not end in an error. -/
def ReloadOk (s : CacheState) : CacheEvent → Prop
  | .reloadScan b => s.updateOf b = none ∧ (s.invalid = true ∨ s.announced = false) ∧
      s.committed.length ≤ shardCountMax
  | .reloadFail _ _ => False
  | _ => True

instance (s : CacheState) (e : CacheEvent) : Decidable (s.ReloadOk e) := by
  cases e <;> unfold ReloadOk <;> infer_instance

end CacheState

/-! ## 2. The invariant -/

/-- The tables committed since the search has started, for a backend that is in one. -/
def Pc.seen : Pc → Option (List (List Row))
  | idle => none
  | searching seen => some seen
  | reloading seen => seen
  | checked seen => some seen

@[simp] theorem Pc.seen_afterReload (seen : Option (List (List Row))) :
    (CacheState.afterReload seen).seen = seen := by
  cases seen <;> rfl

theorem Pc.seen_see (rows : List Row) (pc : Pc) :
    (pc.see rows).seen = pc.seen.map (· ++ [rows]) := by
  cases pc <;> rfl

theorem Pc.mem_of_seen_see {rows : List Row} {pc : Pc} {seen : List (List Row)}
    (h : (pc.see rows).seen = some seen) : rows ∈ seen := by
  obtain ⟨seen', -, rfl⟩ := Option.map_eq_some_iff.mp (Pc.seen_see rows pc ▸ h)
  exact mem_append_right _ mem_cons_self

theorem Pc.checked_of_see {rows : List Row} {pc : Pc} {seen : List (List Row)}
    (h : pc.see rows = .checked seen) : ∃ seen', pc = .checked seen' ∧ seen = seen' ++ [rows] := by
  cases pc <;> simp_all [Pc.see]

theorem afterReload_ne (seen : Option (List (List Row))) (seen' : List (List Row)) :
    CacheState.afterReload seen ≠ .checked seen' := by
  cases seen <;> nofun

namespace CacheState

/-- What is loaded, announced, cached and expected in a state.  A transaction that has set the
flag for the last time leaves it set, or somebody has cleared it and has not scanned yet. -/
structure Inv (s : CacheState) : Prop where
  loaded : ∀ b view, s.lock = some (b, some view) →
    (s.invalid = true ∨ view = s.committed) ∧ view.length ≤ shardCountMax
  flagged : s.announced = true → s.invalid = true ∨ ∃ b, s.lock = some (b, none)
  cached : s.lock = none → s.invalid = true ∨ s.cache = s.committed
  seen_committed : ∀ b seen, (s.pcs b).seen = some seen → s.committed ∈ seen
  checked_cache : ∀ b seen, s.pcs b = .checked seen → s.lock = none → s.cache ∈ seen
  checked_view : ∀ b seen, s.pcs b = .checked seen →
    ∀ b' view, s.lock = some (b', some view) → view ∈ seen

variable {s s' : CacheState}

theorem inv_init (committed : List Row) : Inv (init committed) where
  loaded _ _ h := by cases h
  flagged h := by cases h
  cached _ := Or.inl rfl
  seen_committed _ _ h := by cases h
  checked_cache _ _ h := by cases h
  checked_view _ _ h := by cases h

theorem announced_without (b : BackendId)
    (h : ((s.without b).any fun u => u.2.invalidated) = true) : s.announced = true := by
  rw [any_eq_true] at h
  obtain ⟨u, hu, hinv⟩ := h
  rw [announced, any_eq_true]
  exact ⟨u, (mem_filter.mp hu).1, hinv⟩

theorem announced_of_updateOf {b : BackendId} {u : Update} (h : s.updateOf b = some u)
    (hinv : u.invalidated = true) : s.announced = true := by
  obtain ⟨before, behind, hsplit, -⟩ := lookup_eq_some_iff.mp h
  rw [announced, hsplit, any_append, any_cons, hinv, Bool.true_or, Bool.or_true]

/-- **Every step that meets the condition keeps the invariant.**  A commit was announced, so that
the flag is set or the scan is still to come; a scan finds the committed table, and nobody has
announced a change, or the flag is set again; a check that finds the flag clear leads to a cache, or
a view that is about to be one, with the committed table. -/
theorem inv_step (e : CacheEvent) (h : Inv s) (hok : ReloadOk s e) (hs : step s e = some s') :
    Inv s' := by
  have hwithout := fun b => announced_without (s := s) b
  have hannounced := fun b u => announced_of_updateOf (s := s) (b := b) (u := u)
  have hview : ∀ b, s.updateOf b = none → s.viewOf b = s.committed := fun b hb => by
    rw [viewOf, changesOf, hb]
    rfl
  obtain ⟨hloaded, hflagged, hcached, hseen, hcache, hchecked⟩ := h
  cases e <;> simp only [step, ReloadOk] at hs hok <;> (repeat' split at hs) <;> cases hs <;>
    constructor <;> simp only [setPc, announced] at * <;>
    grind -ring -linarith [Pc.seen, Pc.mem_of_seen_see, Pc.checked_of_see, Pc.seen_afterReload,
      afterReload_ne]

end CacheState

/-! ## 3. What follows for runs -/

open CacheState

/-- **Searches answer according to the committed table**, in every run whose reloads meet the
condition: what a search reads is what was committed at some moment since it has started. -/
theorem search_answers (committed : List Row) (s : CacheState)
    (hrun : Run step ReloadOk (CacheState.init committed) s) : s.AnswersCommitted := by
  have h : Inv s := hrun.invariant (inv_init committed) fun s e s' h hok hs => inv_step e h hok hs
  intro b seen hpc hl
  exact ⟨s.cache, h.checked_cache b seen hpc hl, fun _ _ => rfl⟩

/-- The shard moves to server 2, and a search that starts afterwards has to load the cache. -/
def searchAfterMove : List CacheEvent :=
  [.change 0 int32Max 2, .invalidate 0, .commit 0, .searchStart 1, .searchCheck 1, .reloadBegin 1,
    .reloadScan 1, .reloadEnd 1, .searchCheck 1]

theorem search_answers_moved :
    ∃ s, exec step (CacheState.init [(int32Max, 1)]) searchAfterMove = some s ∧
      s.pcs 1 = .checked [[(int32Max, 2)]] ∧ s.AnswersCommitted :=
  ⟨_, rfl, rfl, search_answers [(int32Max, 1)] _ (Run.of_exec_meet searchAfterMove rfl (by decide))⟩

/-- The update sets the flag, another backend reloads, and only then the update commits. -/
def staleSchedule : List CacheEvent :=
  [.change 0 int32Max 2, .invalidate 0, .searchStart 1, .searchCheck 1, .reloadBegin 1,
    .reloadScan 1, .reloadEnd 1, .commit 0, .searchStart 2, .searchCheck 2]

/-- **A reload between the flag and the commit.**  The shard has been moved from server 1 to
server 2, no transaction is open, the flag is clear, and a search that starts now answers with
server 1. -/
theorem stale_after_commit :
    ∃ s, exec step (CacheState.init [(int32Max, 1)]) staleSchedule = some s ∧
      s.committed = [(int32Max, 2)] ∧
      s.updates = [] ∧ s.pcs 2 = .checked [[(int32Max, 2)]] ∧ s.lock = none ∧
      searchShardInfoByShardValue (fun _ => 0) s.cache 0 = .ok (int32Max, 1) ∧
      ¬ s.AnswersCommitted := by
  refine ⟨_, rfl, rfl, rfl, rfl, rfl, rfl, ?_⟩
  intro h
  obtain ⟨rows, hmem, hsame⟩ := h 2 [[(int32Max, 2)]] rfl rfl
  obtain rfl := mem_singleton.mp hmem
  exact absurd (hsame (fun _ => 0) 0) (by decide)

end FalconFS.ShardTable
