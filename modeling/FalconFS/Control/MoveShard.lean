/-
# Moving a shard from one server to another

`falcon_move_shard` runs on the coordinator.  It has every server change its shard table, creates
the shard's inode table on the target, copies the rows of the source with `COPY`, drops the table
on the source, and commits on all servers.  Meanwhile `create`, `unlink` and `close` go on.

The model is a machine whose events are the steps of the move, the steps of any number of writers,
and the steps of the shard-table cache of each server (`ShardCache`).  What PostgreSQL
contributes:

* `COPY` reads one snapshot, that is, the rows committed at that moment, and holds a lock that
  writers do not conflict with;
* `DROP TABLE` waits until nobody else holds a lock on the table, and nobody gets one after that;
* a table that was created or dropped by an open transaction is there, or not, for the others as
  before.

The handlers release their lock with `table_close`, long before their transaction ends.  So the
lock of `DROP TABLE` says nothing about writers that have not committed yet, and it comes after
the snapshot in any case.  `move_keeps_rows` says that nothing is lost in every run in which no
writer of the source commits from the snapshot on; `create_lost_in_move` is what happens
otherwise.
-/
import FalconFS.Metadb.MetaHandle
import FalconFS.Metadb.ShardCache

namespace FalconFS.MoveShard

open Machine ShardTable List Function

/-! ## 1. The machine -/

/-- One call of `falcon_move_shard`: its arguments, the session it runs in, and the server that the
shard is on.  `servers` is `GetAllForeignServerId(false, false)`. -/
structure Move where
  rangePoint : Int
  targetServerId : ServerId
  sourceServerId : ServerId
  session : Sid
  servers : List ServerId
  source_mem : sourceServerId ∈ servers
  target_mem : targetServerId ∈ servers
  differ : sourceServerId ≠ targetServerId
  /-- `parentId_partId` of a key -/
  shardValue : Key → BitVec 64
  hashBytesUint32 : BitVec 32 → BitVec 32

/-- The checks at the start of `falcon_move_shard`; the result is the server that the shard is on.
-/
def sourceOf (cache : List Row) (localServerId : ServerId) (rangePoint targetServerId : Int) :
    Except String Int :=
  match searchShardInfoByHashValue cache rangePoint with
  | .error e => .error e
  | .ok (rangePointCheck, sourceServerId) =>
    if rangePoint ≠ rangePointCheck then .error "No shard matches input range point."
    else if localServerId ≠ cnServerId then .error "falcon_move_shard can only be called on CN."
    else if sourceServerId = targetServerId then
      .error "Target server is the same with source server."
    else .ok sourceServerId

/-- The part of a server that the move is about: its shard table, and the committed rows of the
shard's inode table, if that table is there. -/
structure Server where
  shards : CacheState
  table : Option InodeTable

/-- A `create`, `unlink` or `close` transaction.  `routed` are the keys that the search has found
in this shard and on this server; `saved` are the writes there were when the last subtransaction
began. -/
structure Writer where
  server : ServerId
  routed : List Key
  locked : Bool
  puts : List Put
  saved : List Put

/-- How far the move is.  `idle` is before it, and after it has failed. -/
inductive Stage where
  | idle
  /-- The update of the shard tables and the creation of the target's table are under way. -/
  | preparing (created : Bool)
  /-- The snapshot of the source is on its way to the target. -/
  | copied (rows : InodeTable)
  /-- The source's table is locked and dropped. -/
  | dropped (rows : InodeTable)
  /-- The servers on which the transaction of the move has committed. -/
  | committing (rows : InodeTable) (done : List ServerId)

/-- The state.  `rows` are the rows of the shard as the transactions have left them, in the order
of their commits: what there has to be, wherever it is. -/
structure MoveState where
  server : ServerId → Server
  writer : Sid → Option Writer
  sids : List Sid
  stage : Stage
  rows : InodeTable

inductive MoveEvent where
  /-- Anything about the shard table of a server, apart from the update of the move itself. -/
  | shards (i : ServerId) (e : CacheEvent)
  | begin
  | update (i : ServerId)
  | announce (i : ServerId)
  | create
  | copy
  | drop
  | commitMove (i : ServerId)
  | abortMove
  | start (t : Sid) (i : ServerId)
  | route (t : Sid) (k : Key)
  | openTable (t : Sid)
  | inode (t : Sid) (o : InodeOp)
  | closeTable (t : Sid)
  | commit (t : Sid)
  | abort (t : Sid)

/-- The backend whose update of the shard table an event belongs to. -/
def updater : CacheEvent → Option BackendId
  | .change b _ _ | .invalidate b | .commit b | .abort b => some b
  | _ => none

/-- The key that an operation is about is among these; the handlers do not scan the shard, and the
subtransactions are not about a key. -/
def within (keys : List Key) : InodeOp → Bool
  | .insert k _ | .searchAndUpdate k _ | .remove k => keys.contains k
  | _ => false

/-- Begin or end a subtransaction.  One that is rolled back gives up the lock that was taken in
it. -/
def Writer.performSub (w : Writer) : InodeOp → Option Writer
  | .beginSub => some { w with saved := w.puts }
  | .releaseSub => some w
  | .rollbackSub => some { w with puts := w.saved, locked := false }
  | _ => none

/-- A writer that has changed rows, or had when its subtransaction began. -/
def Writer.Wrote (w : Writer) : Prop := w.puts ≠ [] ∨ w.saved ≠ []

/-- The snapshot of the source, once it is taken. -/
def Stage.snapshot : Stage → Option InodeTable
  | idle | preparing _ => none
  | copied rows | dropped rows | committing rows _ => some rows

/-- The servers on which the move has committed. -/
def Stage.done : Stage → List ServerId
  | committing _ done => done
  | _ => []

namespace MoveState

variable (m : Move) (s : MoveState)

def setServer (i : ServerId) (x : Server) : MoveState :=
  { s with server := update s.server i x }

def setWriter (t : Sid) (w : Option Writer) : MoveState :=
  { s with writer := update s.writer t w }

/-- One step of the shard-table cache of a server. -/
def onShards (i : ServerId) (e : CacheEvent) : Option MoveState :=
  ((s.server i).shards.step e).map fun c => s.setServer i { s.server i with shards := c }

/-- The update of the shard table on a server is done. -/
def announced (i : ServerId) : Bool :=
  ((s.server i).shards.updateOf m.session).any (·.invalidated)

/-- The lock of `DROP TABLE` is held on the table of a server. -/
def exclusive (i : ServerId) : Bool :=
  match s.stage with
  | .dropped _ => i == m.sourceServerId
  | .committing _ done => i == m.sourceServerId && !done.contains i
  | _ => false

/-- Somebody has the table of a server open. -/
def opened (i : ServerId) : Bool :=
  s.sids.any fun t => (s.writer t).any fun w => w.server == i && w.locked

/-- Another transaction has an uncommitted write under one of the keys. -/
def blocked (t : Sid) (i : ServerId) (keys : List Key) : Bool :=
  s.sids.any fun u => u ≠ t &&
    (s.writer u).any fun w => w.server == i && w.puts.any fun p => keys.contains p.key

/-- The table of a server when the transaction of the move commits there. -/
def tableAfter (rows : InodeTable) (i : ServerId) : Option InodeTable :=
  if i = m.targetServerId then some rows
  else if i = m.sourceServerId then none
  else (s.server i).table

def commitOn (rows : InodeTable) (done : List ServerId) (i : ServerId) : Option MoveState :=
  ((s.server i).shards.step (.commit m.session)).map fun c =>
    { s.setServer i ⟨c, s.tableAfter m rows i⟩ with stage := .committing rows (i :: done) }

def stepInode (t : Sid) (w : Writer) (o : InodeOp) : Option MoveState :=
  match w.performSub o, (s.server w.server).table with
  | some w', _ => some (s.setWriter t (some w'))
  | none, none => none
  | none, some tbl =>
    -- the handlers do not scan, so which shard a key is in does not matter
    let r := o.result (fun _ => 0) (applyPuts w.puts tbl)
    if w.locked && within w.routed o && !s.blocked t w.server (o.waitsFor r) then
      some (s.setWriter t (some { w with puts := o.puts r ++ w.puts }))
    else none

def step : MoveEvent → Option MoveState
  | .shards i e => if updater e = some m.session then none else s.onShards i e
  | .begin =>
    let cn := (s.server cnServerId).shards
    match s.stage, cn.pcs m.session, cn.lock with
    | .idle, .checked _, none =>
      if sourceOf cn.cache cnServerId m.rangePoint m.targetServerId = .ok m.sourceServerId then
        (s.onShards cnServerId (.searchRead m.session)).map
          fun s' => { s' with stage := .preparing false }
      else none
    | _, _, _ => none
  | .update i =>
    match s.stage with
    | .preparing _ =>
      if i ∈ m.servers ∧ (s.server i).shards.updateOf m.session = none then
        s.onShards i (.change m.session m.rangePoint m.targetServerId)
      else none
    | _ => none
  | .announce i =>
    match s.stage with
    | .preparing _ => s.onShards i (.invalidate m.session)
    | _ => none
  | .create =>
    match s.stage with
    | .preparing false =>
      -- an existing table is an error
      if s.announced m m.targetServerId && (s.server m.targetServerId).table.isNone then
        some { s with stage := .preparing true }
      else none
    | _ => none
  | .copy =>
    match s.stage, (s.server m.sourceServerId).table with
    | .preparing true, some tbl =>
      if m.servers.all (s.announced m) then some { s with stage := .copied tbl } else none
    | _, _ => none
  | .drop =>
    match s.stage with
    | .copied rows =>
      if s.opened m.sourceServerId then none else some { s with stage := .dropped rows }
    | _ => none
  | .commitMove i =>
    match s.stage with
    | .dropped rows => if i ∈ m.servers then s.commitOn m rows [] i else none
    | .committing rows done =>
      if i ∈ m.servers ∧ i ∉ done then s.commitOn m rows done i else none
    | _ => none
  | .abortMove =>
    match s.stage with
    | .idle | .committing _ _ => none
    | _ =>
      some { s with
        server := fun i => { s.server i with
          shards := ((s.server i).shards.step (.abort m.session)).getD (s.server i).shards }
        stage := .idle }
  | .start t i =>
    if (s.writer t).isNone ∧ t ≠ m.session then
      some { s.setWriter t (some ⟨i, [], false, [], []⟩) with sids := t :: s.sids }
    else none
  | .route t k =>
    match s.writer t with
    | some w =>
      if searchShardInfoByShardValue m.hashBytesUint32 (s.server w.server).shards.cache
          (m.shardValue k) = .ok (m.rangePoint, w.server) then
        (s.onShards w.server (.searchRead t)).map
          (·.setWriter t (some { w with routed := k :: w.routed }))
      else none
    | none => none
  | .openTable t =>
    match s.writer t with
    | some w =>
      if w.routed ≠ [] ∧ (s.server w.server).table.isSome ∧ s.exclusive m w.server = false then
        some (s.setWriter t (some { w with locked := true }))
      else none
    | none => none
  | .inode t o =>
    match s.writer t with
    | some w => s.stepInode t w o
    | none => none
  | .closeTable t =>
    match s.writer t with
    | some w => some (s.setWriter t (some { w with locked := false }))
    | none => none
  | .commit t =>
    match s.writer t with
    | some w =>
      if w.locked then none
      else
        let x := s.server w.server
        some { s.setServer w.server { x with table := x.table.map (applyPuts w.puts) } with
          writer := update s.writer t none
          rows := applyPuts w.puts s.rows }
    | none => none
  | .abort t => some (s.setWriter t none)

/-- Before a move: the source has the rows, and no other server has a table of this shard. -/
def init (shards : ServerId → CacheState) (rows : InodeTable) : MoveState where
  server i := ⟨shards i, if i = m.sourceServerId then some rows else none⟩
  writer _ := none
  sids := []
  stage := .idle
  rows := rows

/-- The row of a server under a key. -/
def rowAt (i : ServerId) (k : Key) : Option InodeRow := (s.server i).table.bind (AList.lookup k)

/-- The move has committed on every server. -/
def Over : Prop :=
  match s.stage with
  | .committing _ done => ∀ i ∈ m.servers, i ∈ done
  | _ => False

/-- **Nothing is lost and nothing is there twice.**  After the move the target has the rows that
the committed transactions have left, each as they have left it, and the source has none; while
there is no move, or after it has failed, it is the other way round. -/
def KeepsRows : Prop :=
  (s.Over m → ∀ k, s.rowAt m.targetServerId k = AList.lookup k s.rows ∧
    s.rowAt m.sourceServerId k = none) ∧
  (s.stage = .idle → ∀ k, s.rowAt m.sourceServerId k = AList.lookup k s.rows ∧
    s.rowAt m.targetServerId k = none)

/-- **The condition on a commit**: a transaction that has written on the source commits before the
snapshot of the source is taken. -/
def CommitOk : MoveEvent → Prop
  | .commit t => ∀ w, s.writer t = some w → w.server = m.sourceServerId → w.puts ≠ [] →
      s.stage.snapshot = none
  | _ => True

/-! ## 2. What the steps do to the tables -/

variable {m : Move} {s s' s'' : MoveState}

/-- A step that leaves the tables alone.  If it takes the snapshot, it takes it of the source; and
who has written after it has written before, or has the table of its server before it. -/
structure Quiet (m : Move) (s s' : MoveState) : Prop where
  table : ∀ i, (s'.server i).table = (s.server i).table
  rows : s'.rows = s.rows
  done : s'.stage.done = s.stage.done
  snapshot : ∀ rows, s'.stage.snapshot = some rows → s.stage.snapshot = some rows ∨
    s.stage.done = [] ∧ (s.server m.sourceServerId).table = some rows
  wrote : ∀ t w', s'.writer t = some w' → w'.Wrote →
    (∃ w, s.writer t = some w ∧ w.server = w'.server ∧ w.Wrote) ∨ (s.server w'.server).table ≠ none

theorem Quiet.trans (h : Quiet m s s') (h' : Quiet m s' s'') : Quiet m s s'' := by
  obtain ⟨htable, hrows, hdone, hsnapshot, hwrote⟩ := h
  obtain ⟨htable', hrows', hdone', hsnapshot', hwrote'⟩ := h'
  constructor <;> grind

variable {i : ServerId} {st : Stage} {t : Sid} {w w' : Writer} {o : InodeOp} {e : MoveEvent}

/-- A step of the shard-table cache of a server. -/
theorem quiet_onShards {e : CacheEvent} (hs : s.onShards i e = some s') :
    Quiet m s s' ∧ s'.stage = s.stage ∧ s'.writer = s.writer := by
  obtain ⟨c, -, rfl⟩ := Option.map_eq_some_iff.mp hs
  refine ⟨⟨fun j => ?_, rfl, rfl, fun _ hr => Or.inl hr, fun t w hw hwrote =>
    Or.inl ⟨w, hw, rfl, hwrote⟩⟩, rfl, rfl⟩
  simp only [setServer, update_apply]
  split_ifs with hj
  · rw [hj]
  · rfl

/-- The move goes on, or fails, before it has committed anywhere. -/
theorem quiet_setStage (hdone : s.stage.done = []) (hst : st.done = [])
    (hsnapshot : ∀ rows, st.snapshot = some rows →
      s.stage.snapshot = some rows ∨ (s.server m.sourceServerId).table = some rows) :
    Quiet m s { s with stage := st } where
  table _ := rfl
  rows := rfl
  done := hst.trans hdone.symm
  snapshot rows hr := (hsnapshot rows hr).imp_right fun htable => ⟨hdone, htable⟩
  wrote _ w hw hwrote := Or.inl ⟨w, hw, rfl, hwrote⟩

/-- A step of one writer. -/
theorem quiet_setWriter {w' : Option Writer}
    (hwrote : ∀ w₁, w' = some w₁ → w₁.Wrote →
      (∃ w, s.writer t = some w ∧ w.server = w₁.server ∧ w.Wrote) ∨
        (s.server w₁.server).table ≠ none) :
    Quiet m s (s.setWriter t w') where
  table _ := rfl
  rows := rfl
  done := rfl
  snapshot _ hr := Or.inl hr
  wrote t₁ w₁ hw₁ := by
    by_cases ht : t₁ = t
    · subst ht
      exact hwrote w₁ (by simpa [MoveState.setWriter] using hw₁)
    · exact fun hwrote₁ => Or.inl ⟨w₁, by simpa [MoveState.setWriter, ht] using hw₁, rfl, hwrote₁⟩

/-- The step changes a writer's record, but not what it has written. -/
theorem quiet_keepPuts (hw : s.writer t = some w) (hserver : w'.server = w.server)
    (hwrote : w'.Wrote → w.Wrote) : Quiet m s (s.setWriter t (some w')) :=
  quiet_setWriter fun w₁ hw₁ hwrote₁ => by
    cases hw₁
    exact Or.inl ⟨w, hw, hserver.symm, hwrote hwrote₁⟩

/-- A subtransaction adds no writes. -/
theorem performSub_wrote (h : w.performSub o = some w') :
    w'.server = w.server ∧ (w'.Wrote → w.Wrote) := by
  cases o <;> cases h <;> grind [Writer.Wrote]

theorem quiet_stepInode (hw : s.writer t = some w) (hs : s.stepInode t w o = some s') :
    Quiet m s s' := by
  unfold stepInode at hs
  split at hs
  · rename_i w' _ hsub
    cases hs
    exact quiet_keepPuts hw (performSub_wrote hsub).1 (performSub_wrote hsub).2
  · cases hs
  · rename_i tbl _ htbl
    dsimp only at hs
    split_ifs at hs
    cases hs
    exact quiet_setWriter fun w₁ hw₁ _ => .inr (by cases hw₁; simp [htbl])

/-- The state after the commit of the move on a server. -/
def afterMove (m : Move) (s : MoveState) (i : ServerId) (shards : CacheState) (rows : InodeTable) :
    MoveState :=
  { s.setServer i ⟨shards, s.tableAfter m rows i⟩ with
    stage := .committing rows (i :: s.stage.done) }

/-- The state after the commit of a writer. -/
def afterCommit (s : MoveState) (t : Sid) (w : Writer) : MoveState :=
  { s.setServer w.server { s.server w.server with
      table := (s.server w.server).table.map (applyPuts w.puts) } with
    writer := update s.writer t none
    rows := applyPuts w.puts s.rows }

/-- **What a step can do**: nothing to the tables, or the move commits on a server, or a writer
commits. -/
inductive Effect (m : Move) (s : MoveState) : MoveEvent → MoveState → Prop
  | quiet {e : MoveEvent} {s' : MoveState} (h : Quiet m s s') : Effect m s e s'
  | move {i : ServerId} {rows : InodeTable} (shards : CacheState)
      (hsnapshot : s.stage.snapshot = some rows) (hi : i ∉ s.stage.done) :
      Effect m s (.commitMove i) (afterMove m s i shards rows)
  | writer {t : Sid} {w : Writer} (hw : s.writer t = some w) :
      Effect m s (.commit t) (afterCommit s t w)

/-- The steps of `falcon_move_shard` up to its commit. -/
theorem quiet_move
    (he : e = .begin ∨ (∃ i, e = .update i ∨ e = .announce i) ∨ e = .create ∨ e = .copy ∨ e = .drop)
    (hs : s.step m e = some s') : Quiet m s s' := by
  rcases he with rfl | ⟨i, rfl | rfl⟩ | rfl | rfl | rfl
  · simp only [step] at hs
    split at hs
    · rename_i hstage _ _
      split_ifs at hs
      obtain ⟨s₁, hs₁, rfl⟩ := Option.map_eq_some_iff.mp hs
      obtain ⟨h₁, hstage₁, -⟩ := quiet_onShards (m := m) hs₁
      exact h₁.trans (quiet_setStage (by rw [hstage₁, hstage]; rfl) rfl nofun)
    · cases hs
  · simp only [step] at hs
    split at hs
    · split_ifs at hs
      exact (quiet_onShards hs).1
    · cases hs
  · simp only [step] at hs
    split at hs
    · exact (quiet_onShards hs).1
    · cases hs
  -- the stage changes: only the copy takes the snapshot, and takes it of the source
  all_goals
    simp only [step] at hs
    (repeat' split at hs) <;> cases hs
    apply quiet_setStage <;> grind [Stage.done, Stage.snapshot]

theorem effect_commitMove (hs : s.step m (.commitMove i) = some s') :
    Effect m s (.commitMove i) s' := by
  have hcommit : ∀ rows, s.stage.snapshot = some rows → i ∉ s.stage.done →
      s.commitOn m rows s.stage.done i = some s' → Effect m s (.commitMove i) s' := by
    intro rows hsnapshot hi hc
    obtain ⟨c, -, rfl⟩ := Option.map_eq_some_iff.mp hc
    exact .move c hsnapshot hi
  simp only [step] at hs
  split at hs
  · rename_i rows hstage
    rw [hstage] at hcommit
    split_ifs at hs
    exact hcommit rows rfl not_mem_nil hs
  · rename_i rows done hstage
    rw [hstage] at hcommit
    split_ifs at hs with hi
    exact hcommit rows rfl hi.2 hs
  · cases hs

theorem quiet_abortMove (hs : s.step m .abortMove = some s') : Quiet m s s' := by
  simp only [step] at hs
  split at hs
  · cases hs
  · cases hs
  · rename_i _ hcommitting
    cases hs
    have hdone : s.stage.done = [] := by
      cases hst : s.stage with
      | committing rows done => exact absurd hst (hcommitting rows done)
      | _ => rfl
    exact ⟨fun _ => rfl, rfl, hdone.symm, (fun _ hr => by cases hr), fun t w hw hwrote =>
      Or.inl ⟨w, hw, rfl, hwrote⟩⟩

theorem step_effect (hs : s.step m e = some s') : Effect m s e s' := by
  cases e with
  | begin | update | announce | create | copy | drop => exact .quiet (quiet_move (by simp) hs)
  | commitMove i => exact effect_commitMove hs
  | abortMove => exact .quiet (quiet_abortMove hs)
  | abort t =>
    cases hs
    exact .quiet (quiet_setWriter nofun)
  | shards i e =>
    simp only [step] at hs
    split_ifs at hs
    exact .quiet (quiet_onShards hs).1
  | start t i =>
    obtain ⟨_, rfl⟩ := guard_eq_some hs
    have h : Quiet m s (s.setWriter t (some ⟨i, [], false, [], []⟩)) :=
      quiet_setWriter fun w₁ hw₁ hwrote => by
        cases hw₁
        simp [Writer.Wrote] at hwrote
    exact .quiet ⟨h.table, h.rows, h.done, h.snapshot, h.wrote⟩
  | route t k =>
    simp only [step] at hs
    split at hs
    · rename_i w hw
      split_ifs at hs
      obtain ⟨s₁, hs₁, rfl⟩ := Option.map_eq_some_iff.mp hs
      obtain ⟨h₁, -, hwriter⟩ := quiet_onShards (m := m) hs₁
      exact .quiet (h₁.trans (quiet_keepPuts (w := w) (by rw [hwriter]; exact hw) rfl id))
    · cases hs
  | inode t o =>
    simp only [step] at hs
    split at hs
    · rename_i w hw
      exact .quiet (quiet_stepInode hw hs)
    · cases hs
  | commit t =>
    simp only [step] at hs
    (repeat' split at hs) <;> cases hs
    rename_i w hw _
    exact .writer hw
  | openTable t =>
    simp only [step] at hs
    (repeat' split at hs) <;> cases hs
    rename_i w hw _
    exact .quiet (quiet_keepPuts hw rfl id)
  | closeTable t =>
    simp only [step] at hs
    split at hs <;> cases hs
    rename_i w hw
    exact .quiet (quiet_keepPuts hw rfl id)

/-! ## 3. Where the tables are

This much holds in every run: where the move has committed the source has no table, and where it
has not the target has none; so there is never anybody who writes the shard on the target before
that. -/

structure Placed (m : Move) (s : MoveState) : Prop where
  source : m.sourceServerId ∈ s.stage.done → (s.server m.sourceServerId).table = none
  target : m.targetServerId ∉ s.stage.done → (s.server m.targetServerId).table = none
  others : ∀ i, i ≠ m.sourceServerId → i ≠ m.targetServerId → (s.server i).table = none
  wrote : ∀ t w, s.writer t = some w → w.Wrote → w.server = m.sourceServerId ∨
    w.server = m.targetServerId ∧ m.targetServerId ∈ s.stage.done

theorem placed_init (shards : ServerId → CacheState) (rows : InodeTable) :
    Placed m (init m shards rows) where
  source h := absurd h not_mem_nil
  target _ := if_neg (Ne.symm m.differ)
  others _ hs _ := if_neg hs
  wrote _ _ h := by cases h

/-- A server with a table is the source, or the target after its commit. -/
theorem Placed.of_table (h : Placed m s) (hi : (s.server i).table ≠ none) :
    i = m.sourceServerId ∨ i = m.targetServerId ∧ m.targetServerId ∈ s.stage.done := by
  obtain ⟨-, htarget, hothers, -⟩ := h
  grind

theorem Placed.quiet (h : Placed m s) (hq : Quiet m s s') : Placed m s' := by
  have htable := fun i => h.of_table (i := i)
  obtain ⟨hsource, htarget, hothers, hwrote⟩ := h
  obtain ⟨htable', -, hdone, -, hwrote'⟩ := hq
  constructor <;> grind

theorem table_afterMove (i : ServerId) (shards : CacheState) (rows : InodeTable) (j : ServerId) :
    ((afterMove m s i shards rows).server j).table =
      if j = i then s.tableAfter m rows i else (s.server j).table := by
  by_cases hj : j = i
  · subst hj
    simp [afterMove, setServer]
  · simp [afterMove, setServer, hj]

theorem Placed.afterMove (h : Placed m s) (i : ServerId) (shards : CacheState) (rows : InodeTable) :
    Placed m (afterMove m s i shards rows) := by
  have hdiffer := m.differ
  have htable := fun j => table_afterMove (m := m) (s := s) i shards rows j
  have hdone : (MoveState.afterMove m s i shards rows).stage.done = i :: s.stage.done := rfl
  obtain ⟨hsource, htarget, hothers, hwrote⟩ := h
  refine ⟨?_, ?_, ?_, fun t w hw hputs => ?_⟩
  case refine_4 =>
    exact (hwrote t w hw hputs).imp_right fun ht => ⟨ht.1, mem_cons_of_mem _ ht.2⟩
  all_goals
    simp only [htable, hdone, tableAfter]
    grind

theorem table_afterCommit (t : Sid) (w : Writer) (j : ServerId) :
    ((afterCommit s t w).server j).table =
      if j = w.server then (s.server j).table.map (applyPuts w.puts) else (s.server j).table := by
  by_cases hj : j = w.server
  · subst hj
    simp [afterCommit, setServer]
  · simp [afterCommit, setServer, hj]

theorem table_afterCommit_none (t : Sid) (w : Writer) {j : ServerId}
    (h : (s.server j).table = none) : ((afterCommit s t w).server j).table = none := by
  rw [table_afterCommit, h]
  split <;> rfl

theorem Placed.afterCommit (h : Placed m s) (t : Sid) (w : Writer) :
    Placed m (afterCommit s t w) where
  source hmem := table_afterCommit_none t w (h.source hmem)
  target hnot := table_afterCommit_none t w (h.target hnot)
  others i hs ht := table_afterCommit_none t w (h.others i hs ht)
  wrote t' w' hw' := by
    by_cases ht : t' = t
    · subst ht
      simp [MoveState.afterCommit] at hw'
    · exact h.wrote t' w' (by simpa [MoveState.afterCommit, ht] using hw')

theorem Over.mem_done (h : s.Over m) : ∀ i ∈ m.servers, i ∈ s.stage.done := by
  unfold Over at h
  split at h
  · rename_i hstage
    rw [hstage]
    exact h
  · exact h.elim

/-! ## 4. Where the rows are -/

/-- Until the move has committed somewhere the rows are on the source; from its commit on the
target they are there; and the snapshot is what they are as long as it is only that. -/
structure Inv (m : Move) (s : MoveState) : Prop extends Placed m s where
  onSource : s.stage.done = [] → (s.server m.sourceServerId).table = some s.rows
  onTarget : m.targetServerId ∈ s.stage.done → (s.server m.targetServerId).table = some s.rows
  snapshot : ∀ rows, s.stage.snapshot = some rows → m.targetServerId ∉ s.stage.done → rows = s.rows

theorem inv_init (shards : ServerId → CacheState) (rows : InodeTable) :
    Inv m (init m shards rows) where
  toPlaced := placed_init shards rows
  onSource _ := if_pos rfl
  onTarget h := absurd h not_mem_nil
  snapshot _ h := by cases h

theorem Inv.quiet (h : Inv m s) (hq : Quiet m s s') : Inv m s' := by
  obtain ⟨hplaced, hsource, htarget, hsnapshot⟩ := h
  refine ⟨hplaced.quiet hq, ?_, ?_, ?_⟩ <;> obtain ⟨htable, hrows, hdone, hsnapshot', -⟩ := hq <;>
    grind

/-- The target gets the snapshot, and that is what the rows are. -/
theorem Inv.afterMove {rows : InodeTable} (h : Inv m s) (shards : CacheState)
    (hsnapshot : s.stage.snapshot = some rows) (hi : i ∉ s.stage.done) :
    Inv m (afterMove m s i shards rows) where
  toPlaced := h.toPlaced.afterMove i shards rows
  onSource hnil := by cases hnil
  onTarget hmem := by
    rw [table_afterMove]
    split
    · rename_i heq
      rw [tableAfter, if_pos heq.symm, h.snapshot rows hsnapshot (heq ▸ hi)]
      rfl
    · rename_i hne
      exact h.onTarget ((mem_cons.mp hmem).resolve_left hne)
  snapshot rows' hr hnot := by
    cases hr
    exact h.snapshot rows hsnapshot fun hmem => hnot (mem_cons_of_mem _ hmem)

theorem done_of_snapshot (h : st.snapshot = none) : st.done = [] := by
  cases st <;> first | rfl | cases h

/-- If the writer has written anything, its server has the rows at this moment. -/
theorem Inv.afterCommit (h : Inv m s) (hw : s.writer t = some w) (hok : CommitOk m s (.commit t)) :
    Inv m (afterCommit s t w) := by
  have hplaced := h.toPlaced.afterCommit t w
  by_cases hputs : w.puts = []
  · have hrows : applyPuts w.puts s.rows = s.rows := by
      rw [hputs]
      rfl
    have htable : ∀ j, ((MoveState.afterCommit s t w).server j).table = (s.server j).table := by
      intro j
      rw [table_afterCommit, hputs]
      split
      · exact Option.map_id_apply
      · rfl
    refine ⟨hplaced, fun hdone => ?_, fun hmem => ?_, fun rows hr hnot => ?_⟩
    · exact (htable _).trans ((h.onSource hdone).trans (congrArg some hrows.symm))
    · exact (htable _).trans ((h.onTarget hmem).trans (congrArg some hrows.symm))
    · exact (h.snapshot rows hr hnot).trans hrows.symm
  · rcases h.wrote t w hw (Or.inl hputs) with hsrc | ⟨htgt, hdone⟩
    · -- on the source: before the snapshot, so nothing is committed yet
      have hnone := hok w hw hsrc hputs
      have hnil := done_of_snapshot hnone
      refine ⟨hplaced, fun _ => ?_, fun hmem => ?_, fun rows hr => ?_⟩
      · rw [table_afterCommit, if_pos hsrc.symm, h.onSource hnil]
        rfl
      · rw [show (MoveState.afterCommit s t w).stage.done = [] from hnil] at hmem
        exact absurd hmem not_mem_nil
      · exact absurd (hnone.symm.trans hr) (by simp)
    · -- on the target: the move has committed there
      refine ⟨hplaced, fun hnil => ?_, fun _ => ?_, fun rows _ hnot => absurd hdone hnot⟩
      · rw [show s.stage.done = [] from hnil] at hdone
        exact absurd hdone not_mem_nil
      · rw [table_afterCommit, if_pos htgt.symm, h.onTarget hdone]
        rfl

theorem inv_step (h : Inv m s) (hok : CommitOk m s e) (hs : s.step m e = some s') : Inv m s' := by
  cases step_effect hs with
  | quiet hq => exact h.quiet hq
  | move shards hsnapshot hi => exact h.afterMove shards hsnapshot hi
  | writer hw => exact h.afterCommit hw hok

end MoveState

open MoveState

/-- **The move keeps the rows**, in every run in which no transaction that has written on the source
commits after the snapshot of the source is taken. -/
theorem move_keeps_rows (m : Move) (shards : ServerId → CacheState) (rows : InodeTable)
    (s : MoveState) (hrun : Run (step m) (CommitOk m) (init m shards rows) s) : s.KeepsRows m := by
  have h : Inv m s := hrun.invariant (inv_init shards rows) fun s e s' h hok hs => inv_step h hok hs
  constructor
  · intro hover k
    rw [rowAt, rowAt, h.onTarget (hover.mem_done _ m.target_mem),
      h.source (hover.mem_done _ m.source_mem)]
    exact ⟨rfl, rfl⟩
  · intro hidle k
    have hdone : s.stage.done = [] := by
      rw [hidle]
      rfl
    rw [rowAt, rowAt, h.onSource hdone, h.target (by rw [hdone]; exact not_mem_nil)]
    exact ⟨rfl, rfl⟩

/-- The only shard goes from server 1 to server 2. -/
def oneToTwo : Move where
  rangePoint := int32Max
  targetServerId := 2
  sourceServerId := 1
  session := 9
  servers := [0, 1, 2]
  source_mem := by decide
  target_mem := by decide
  differ := by decide
  shardValue _ := 0
  hashBytesUint32 _ := 0

/-- Every server has the table of one shard, on server 1, in its cache. -/
def onServerOne (_ : ServerId) : CacheState :=
  { CacheState.init [(int32Max, 1)] with invalid := false, cache := [(int32Max, 1)] }

def newFile : Key := ⟨1, [97]⟩

/-- Session 5 begins a `create` on the source and finds that the shard is there. -/
def createRoutes : List MoveEvent :=
  [.start 5 1, .shards 1 (.searchStart 5), .shards 1 (.searchCheck 5), .route 5 newFile]

/-- It inserts the row, in a subtransaction of its own. -/
def createInserts : List MoveEvent :=
  [.inode 5 .beginSub, .openTable 5, .inode 5 (.insert newFile (fileRow 1 7)), .closeTable 5,
    .inode 5 .releaseSub]

/-- The move as far as the copy. -/
def moveCopies : List MoveEvent :=
  [.shards 0 (.searchStart 9), .shards 0 (.searchCheck 9), .begin, .update 0, .announce 0,
    .update 1, .announce 1, .update 2, .announce 2, .create, .copy]

/-- The rest of the move. -/
def moveEnds : List MoveEvent := [.drop, .commitMove 0, .commitMove 1, .commitMove 2]

theorem move_keeps_rows_create_first :
    ∃ s, exec (step oneToTwo) (init oneToTwo onServerOne ∅)
        (createRoutes ++ createInserts ++ [.commit 5] ++ (moveCopies ++ moveEnds)) = some s ∧
      s.Over oneToTwo ∧ s.rowAt 2 newFile = some (fileRow 1 7) ∧ s.KeepsRows oneToTwo := by
  refine ⟨_, rfl, by simp [Over, oneToTwo], rfl, move_keeps_rows oneToTwo onServerOne ∅ _
    (Run.of_exec_meet (createRoutes ++ createInserts ++ [.commit 5] ++ (moveCopies ++ moveEnds))
      rfl ?_)⟩
  have hcreate : AllMeet (step oneToTwo) (CommitOk oneToTwo) (init oneToTwo onServerOne ∅)
      (createRoutes ++ createInserts) :=
    allMeet_of_forall _ _ (by simp [createRoutes, createInserts, CommitOk])
  refine AllMeet.append (hcreate.append fun s hs => ?_) fun _ _ =>
    allMeet_of_forall _ _ (by simp [moveCopies, moveEnds, CommitOk])
  cases hs
  exact ⟨fun _ _ _ _ => rfl, fun _ _ => trivial⟩

/-- **A `create` between the copy and the drop.**  It has committed on the source, and after the
move its row is on neither server. -/
theorem create_lost_in_move :
    ∃ s, exec (step oneToTwo) (init oneToTwo onServerOne ∅)
        (createRoutes ++ moveCopies ++ createInserts ++ [.commit 5] ++ moveEnds) = some s ∧
      s.Over oneToTwo ∧ AList.lookup newFile s.rows = some (fileRow 1 7) ∧
      s.rowAt 1 newFile = none ∧ s.rowAt 2 newFile = none ∧ ¬ s.KeepsRows oneToTwo := by
  refine ⟨_, rfl, by simp [Over, oneToTwo], rfl, rfl, rfl, ?_⟩
  intro h
  exact absurd (h.1 (by simp [Over, oneToTwo]) newFile).1 (by decide)

end FalconFS.MoveShard
