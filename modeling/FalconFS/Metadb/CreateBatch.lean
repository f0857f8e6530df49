/-
# A batch of creates

`FalconCreateHandle` inserts the rows of a batch shard by shard, in groups of
`BATCH_OPERATION_GROUP_SIZE`, each in a subtransaction of its own.  When an insert finds its key
taken, the whole group is rolled back, the request is marked `FILE_EXISTS`, and the group is tried
again; a marked request reads the row that is there.  What the reads have put into the requests
stays when a group is rolled back.

`MetaHandle.lean` has the same loop as a program, for its operations on the tables.  Here it is
with all the data of the requests, for one server that is alone with its tables; section 5 says
that the two agree.  Both callers pass `updateExisted = false`, so that branch is the only one.
-/
import FalconFS.Metadb.HandleSpec

namespace FalconFS.CreateBatch

open AList

/-! ## 1. Requests -/

/-- The fields of `MetaProcessInfo` that the loop reads and writes. -/
structure MetaProcessInfo where
  /-- Its place in `infoArray`. -/
  index : Nat
  /-- `parentId_partId` and `name`. -/
  key : Key
  errorCode : ErrorCode
  inodeId : InodeId
  stSize : Int
  stNlink : Nat
  stMode : Nat
  nodeId : Int
  deriving DecidableEq

namespace MetaProcessInfo

/-- A request as it comes into the loop. -/
def ofItem (self : ServerId) (it : Item) : MetaProcessInfo :=
  ⟨it.index, it.target.key, .success, it.target.inodeId, 0, 1, sIfreg ||| 0o644, self⟩

/-- The row that is inserted; `st_nlink` is written as 1. -/
def row (x : MetaProcessInfo) : InodeRow := ⟨x.inodeId, x.stMode, 1, x.stSize, x.nodeId⟩

/-- `SearchAndUpdateInodeTableInfo`, as it is called for a marked request. -/
def search (tbl : InodeTable) (x : MetaProcessInfo) : MetaProcessInfo :=
  match lookup x.key tbl with
  | none => x
  | some r => { x with
      inodeId := r.stIno
      stSize := r.stSize
      stNlink := r.stNlink
      stMode := r.stMode
      nodeId := r.primaryNodeId }

def mark (x : MetaProcessInfo) : MetaProcessInfo := { x with errorCode := .fileExists }

/-- The answer for a request whose key has this row. -/
def existing (r : InodeRow) (x : MetaProcessInfo) : MetaProcessInfo :=
  ⟨x.index, x.key, .fileExists, r.stIno, r.stSize, r.stNlink, r.stMode, r.primaryNodeId⟩

section

variable (tbl : InodeTable) (x : MetaProcessInfo)

@[simp] theorem key_search : (x.search tbl).key = x.key := by
  unfold search
  split <;> rfl

@[simp] theorem errorCode_search : (x.search tbl).errorCode = x.errorCode := by
  unfold search
  split <;> rfl

@[simp] theorem index_search : (x.search tbl).index = x.index := by
  unfold search
  split <;> rfl

end

end MetaProcessInfo

open MetaProcessInfo

/-! ## 2. The loop -/

/-- What a subtransaction comes to.  When it has failed, `info` is the first of `rest`. -/
structure Group where
  table : InodeTable
  handled : List MetaProcessInfo
  rest : List MetaProcessInfo
  failed : Bool

/-- The inner loop, with `currentGroupHandled`. -/
def group (tbl : InodeTable) : Nat → List MetaProcessInfo → Group
  | _, [] => ⟨tbl, [], [], false⟩
  | 0, todo => ⟨tbl, [], todo, false⟩
  | n + 1, x :: todo =>
    if x.errorCode ≠ .success then
      let x := if x.errorCode = .fileExists then x.search tbl else x
      let g := group tbl (n + 1) todo
      { g with handled := x :: g.handled }
    else if (lookup x.key tbl).isNone then
      let g := group (insert x.key x.row tbl) n todo
      { g with handled := x :: g.handled }
    else ⟨tbl, [], x :: todo, true⟩

def unmarked (todo : List MetaProcessInfo) : Nat := todo.countP fun x => x.errorCode = .success

/-- `PG_CATCH`: the request that failed is marked. -/
def markHead : List MetaProcessInfo → List MetaProcessInfo
  | [] => []
  | x :: todo => x.mark :: todo

/-- **Every request of a group is handled or left**, with all that a search leaves as it is. -/
theorem group_map {β : Type} {f : MetaProcessInfo → β} (hf : ∀ tbl x, f (x.search tbl) = f x)
    (tbl : InodeTable) (n : Nat) (todo : List MetaProcessInfo) :
    (group tbl n todo).handled.map f ++ (group tbl n todo).rest.map f = todo.map f := by
  fun_induction group tbl n todo with
  | case1 | case2 => rfl
  | case3 tbl n x todo hmarked y g ih =>
    have hy : f y = f x := by
      simp only [y]
      split
      · exact hf tbl x
      · rfl
    simpa [g, hy] using ih
  | case4 tbl n x todo _ _ g ih => simpa [g] using ih
  | case5 => rfl

open List

theorem group_count (tbl : InodeTable) (n : Nat) (todo : List MetaProcessInfo) :
    (group tbl n todo).handled.length + (group tbl n todo).rest.length = todo.length ∧
      unmarked (group tbl n todo).handled + unmarked (group tbl n todo).rest = unmarked todo := by
  have hcodes := group_map errorCode_search tbl n todo
  refine ⟨by simpa using congrArg length hcodes, ?_⟩
  simpa [unmarked, countP_map, Function.comp_def] using
    congrArg (countP fun c => c = .success) hcodes

variable {tbl tbl' saved : InodeTable} {todo orig xs : List MetaProcessInfo} {x : MetaProcessInfo}
  {r : InodeRow} {k : Key} {c : CreateItem} {items : List CreateItem} {i : Nat}

/-- The request that failed was not marked. -/
theorem group_failed {n : Nat} (h : (group tbl n todo).failed = true) :
    ∃ x rest, (group tbl n todo).rest = x :: rest ∧ x.errorCode = .success := by
  fun_induction group tbl n todo with
  | case1 | case2 => cases h
  | case3 tbl n x todo hmarked y g ih => exact ih h
  | case4 tbl n x todo _ _ g ih => exact ih h
  | case5 tbl n x todo hsuccess _ => exact ⟨x, todo, rfl, not_not.mp hsuccess⟩

theorem group_progress {n : Nat} (hn : 0 < n) (hne : todo ≠ [])
    (h : (group tbl n todo).failed = false) : (group tbl n todo).handled ≠ [] := by
  match n, todo, hn, hne with
  | n + 1, x :: todo, _, _ =>
    unfold group at h ⊢
    split at h
    · rename_i hmarked
      simp [hmarked]
    · rename_i hsuccess
      split at h
      · rename_i hfree
        simp [hsuccess, hfree]
      · cases h

theorem unmarked_markHead (hx : x.errorCode = .success) (rest : List MetaProcessInfo) :
    unmarked (markHead (x :: rest)) + 1 = unmarked (x :: rest) := by
  simp [unmarked, markHead, mark, hx]

/-- What is left to do: requests, and marks to be made. -/
def work (todo : List MetaProcessInfo) : Nat := todo.length + unmarked todo

/-- A group that fails marks a request. -/
theorem work_failed {n : Nat} (h : (group tbl n todo).failed = true) :
    work ((group tbl n todo).handled ++ markHead (group tbl n todo).rest) < work todo := by
  obtain ⟨x, rest, hrest, hx⟩ := group_failed h
  have hcount := group_count tbl n todo
  have hmark := unmarked_markHead hx rest
  rw [hrest] at hcount ⊢
  simp only [work, unmarked, markHead, length_append, countP_append,
    length_cons] at *
  omega

/-- A group that succeeds shortens the list. -/
theorem work_handled {n : Nat} (hn : 0 < n) (hne : todo ≠ [])
    (h : (group tbl n todo).failed = false) : work (group tbl n todo).rest < work todo := by
  have hcount := group_count tbl n todo
  have hlen := length_pos_iff.mpr (group_progress hn hne h)
  unfold work
  omega

/-- The loop over the subtransactions of a shard, down to an empty list. -/
def rounds (tbl : InodeTable) (todo : List MetaProcessInfo) : InodeTable × List MetaProcessInfo :=
  if todo = [] then (tbl, [])
  else
    if (group tbl batchOperationGroupSize todo).failed = true then
      rounds tbl ((group tbl batchOperationGroupSize todo).handled ++
        markHead (group tbl batchOperationGroupSize todo).rest)
    else
      let r := rounds (group tbl batchOperationGroupSize todo).table
        (group tbl batchOperationGroupSize todo).rest
      (r.1, (group tbl batchOperationGroupSize todo).handled ++ r.2)
termination_by work todo
decreasing_by
  · rename_i hfailed
    exact work_failed hfailed
  · rename_i hne hfailed
    exact work_handled (by decide) hne (by simpa using hfailed)

/-- `FalconCreateHandle`, from where the requests are sorted into shards. -/
def createShards (tbl : InodeTable) :
    List (List MetaProcessInfo) → InodeTable × List MetaProcessInfo
  | [] => (tbl, [])
  | infos :: shards =>
    let r := rounds tbl (infos.filter fun x => x.errorCode = .success)
    let r' := createShards r.1 shards
    (r'.1, r.2 ++ r'.2)

/-! ## 3. One at a time -/

/-- A request by itself: its row is inserted, or the answer has the row that is there. -/
def insertOne (tbl : InodeTable) (x : MetaProcessInfo) : InodeTable × MetaProcessInfo :=
  match lookup x.key tbl with
  | none => (insert x.key x.row tbl, x)
  | some r => (tbl, x.existing r)

def insertAll (tbl : InodeTable) : List MetaProcessInfo → InodeTable × List MetaProcessInfo
  | [] => (tbl, [])
  | x :: xs =>
    let r := insertAll (insertOne tbl x).1 xs
    (r.1, (insertOne tbl x).2 :: r.2)

theorem insertAll_append (xs ys : List MetaProcessInfo) (tbl : InodeTable) :
    insertAll tbl (xs ++ ys) = ((insertAll (insertAll tbl xs).1 ys).1,
      (insertAll tbl xs).2 ++ (insertAll (insertAll tbl xs).1 ys).2) := by
  induction xs generalizing tbl with
  | nil => rfl
  | cons x xs ih => simp only [cons_append, insertAll, ih]

/-- **The marks are right**: of the requests `orig`, some have been marked in `todo`, and only such
whose key is taken when their turn comes, one at a time. -/
inductive Sound : InodeTable → List MetaProcessInfo → List MetaProcessInfo → Prop
  | nil (tbl : InodeTable) : Sound tbl [] []
  | fresh {tbl : InodeTable} {x : MetaProcessInfo} {todo orig : List MetaProcessInfo} :
      x.errorCode = .success → Sound (insertOne tbl x).1 todo orig →
        Sound tbl (x :: todo) (x :: orig)
  | marked {tbl : InodeTable} {x y : MetaProcessInfo} {r : InodeRow}
      {todo orig : List MetaProcessInfo} :
      x.errorCode = .fileExists → x.index = y.index → x.key = y.key →
        lookup y.key tbl = some r → Sound tbl todo orig → Sound tbl (x :: todo) (y :: orig)

theorem sound_self (infos : List MetaProcessInfo) (h : ∀ x ∈ infos, x.errorCode = .success)
    (tbl : InodeTable) : Sound tbl infos infos := by
  induction infos generalizing tbl with
  | nil => exact .nil tbl
  | cons x infos ih =>
    exact .fresh (h x mem_cons_self) (ih (fun y hy => h y (mem_cons_of_mem _ hy)) _)

/-- A marked request that reads its row has the answer. -/
theorem search_eq_existing {y : MetaProcessInfo} (hx : x.errorCode = .fileExists)
    (hindex : x.index = y.index) (hkey : x.key = y.key) (hr : lookup y.key tbl = some r) :
    x.search tbl = y.existing r := by
  rw [search, hkey, hr, existing, ← hindex, ← hkey, ← hx]

theorem group_marked (hx : x.errorCode = .fileExists) (n : Nat) (todo : List MetaProcessInfo) :
    group tbl (n + 1) (x :: todo) =
      { group tbl (n + 1) todo with
        handled := x.search tbl :: (group tbl (n + 1) todo).handled } := by
  simp [group, hx]

theorem group_free (hx : x.errorCode = .success) (hfree : lookup x.key tbl = none) (n : Nat)
    (todo : List MetaProcessInfo) :
    group tbl (n + 1) (x :: todo) = { group (insert x.key x.row tbl) n todo with
      handled := x :: (group (insert x.key x.row tbl) n todo).handled } := by
  simp [group, hx, hfree]

theorem group_taken (hx : x.errorCode = .success) (htaken : lookup x.key tbl = some r)
    (n : Nat) (todo : List MetaProcessInfo) :
    group tbl (n + 1) (x :: todo) = ⟨tbl, [], x :: todo, true⟩ := by
  simp [group, hx, htaken]

open AList

/-- **A subtransaction**: one that fails has found another mark, one that succeeds has done the
first requests one at a time. -/
theorem group_sound (h : Sound tbl todo orig) (n : Nat) : ((group tbl n todo).failed = true ∧
        Sound tbl ((group tbl n todo).handled ++ markHead (group tbl n todo).rest) orig) ∨
      ((group tbl n todo).failed = false ∧ ∃ first rest, orig = first ++ rest ∧
        insertAll tbl first = ((group tbl n todo).table, (group tbl n todo).handled) ∧
          Sound (group tbl n todo).table (group tbl n todo).rest rest) := by
  induction h generalizing n with
  | nil tbl =>
    rw [group]
    exact .inr ⟨rfl, [], [], rfl, rfl, .nil tbl⟩
  | @fresh tbl x todo orig hx hs ih =>
    match n with
    | 0 => exact .inr ⟨rfl, [], x :: orig, rfl, rfl, .fresh hx hs⟩
    | n + 1 =>
      cases hkey : lookup x.key tbl with
      | none =>
        have hone : insertOne tbl x = (insert x.key x.row tbl, x) := by
          rw [insertOne, hkey]
        rw [hone] at hs ih
        rw [group_free hx hkey]
        rcases ih n with ⟨hfail, hsound⟩ | ⟨hok, first, rest, rfl, hall, hsound⟩
        · refine .inl ⟨hfail, .fresh hx ?_⟩
          rw [hone]
          exact hsound
        · refine .inr ⟨hok, x :: first, rest, rfl, ?_, hsound⟩
          simp only [insertAll, hone, hall]
      | some r =>
        have hone : insertOne tbl x = (tbl, x.existing r) := by rw [insertOne, hkey]
        rw [hone] at hs
        rw [group_taken hx hkey]
        exact .inl ⟨rfl, .marked rfl rfl rfl hkey hs⟩
  | @marked tbl x y r todo orig hx hindex hkey hr hs ih =>
    match n with
    | 0 => exact .inr ⟨rfl, [], y :: orig, rfl, rfl, .marked hx hindex hkey hr hs⟩
    | n + 1 =>
      have hsearch := search_eq_existing hx hindex hkey hr
      rw [group_marked hx]
      rcases ih (n + 1) with ⟨hfail, hsound⟩ | ⟨hok, first, rest, rfl, hall, hsound⟩
      · refine .inl ⟨hfail, .marked ?_ ?_ ?_ hr hsound⟩
        · rw [errorCode_search, hx]
        · rw [index_search, hindex]
        · rw [key_search, hkey]
      · refine .inr ⟨hok, y :: first, rest, rfl, ?_, hsound⟩
        have hone : insertOne tbl y = (tbl, y.existing r) := by rw [insertOne, hr]
        simp only [insertAll, hone, hall, hsearch]

/-- **The loop of a shard** comes to what one at a time comes to. -/
theorem rounds_eq_insertAll (h : Sound tbl todo orig) : rounds tbl todo = insertAll tbl orig := by
  fun_induction rounds tbl todo generalizing orig with
  | case1 tbl =>
    cases h
    rfl
  | case2 tbl todo hne hfailed ih =>
    rcases group_sound h batchOperationGroupSize with ⟨-, hsound⟩ | ⟨hok, -⟩
    · exact ih hsound
    · simp [hok] at hfailed
  | case3 tbl todo hne hfailed r =>
    rename_i ih
    rcases group_sound h batchOperationGroupSize with
      ⟨hfail, -⟩ | ⟨-, first, rest, rfl, hall, hsound⟩
    · exact absurd hfail hfailed
    · rw [insertAll_append, hall]
      simp only [r, ih hsound]

/-! ## 4. Key by key -/

/-- The requests for one key. -/
def forKey (k : Key) (xs : List MetaProcessInfo) : List MetaProcessInfo :=
  xs.filter fun x => x.key = k

theorem key_of_mem_forKey (h : x ∈ forKey k xs) : x.key = k := by
  simpa using (mem_filter.mp h).2

theorem key_insertOne (tbl : InodeTable) (x : MetaProcessInfo) :
    (insertOne tbl x).2.key = x.key := by
  unfold insertOne
  split <;> rfl

/-- A request for another key changes nothing for this one. -/
theorem lookup_insertOne_of_ne (h : x.key ≠ k) : lookup k (insertOne tbl x).1 = lookup k tbl := by
  unfold insertOne
  split
  · exact lookup_insert_ne (Ne.symm h)
  · rfl

/-- A request for this key sees only what there is under the key. -/
theorem insertOne_congr (h : lookup x.key tbl = lookup x.key tbl') :
    (insertOne tbl x).2 = (insertOne tbl' x).2 ∧
      lookup x.key (insertOne tbl x).1 = lookup x.key (insertOne tbl' x).1 := by
  unfold insertOne
  rw [← h]
  split
  · simp
  · rename_i r hr
    exact ⟨rfl, h⟩

/-- **Requests for different keys do not meet.** -/
theorem insertAll_forKey (k : Key) (xs : List MetaProcessInfo) (h : lookup k tbl = lookup k tbl') :
    forKey k (insertAll tbl xs).2 = (insertAll tbl' (forKey k xs)).2 ∧
      lookup k (insertAll tbl xs).1 = lookup k (insertAll tbl' (forKey k xs)).1 := by
  induction xs generalizing tbl tbl' with
  | nil => exact ⟨rfl, h⟩
  | cons x xs ih =>
    by_cases hk : x.key = k
    · subst hk
      obtain ⟨hans, hlook⟩ := insertOne_congr h
      have hself := ih hlook
      simp only [insertAll, forKey, key_insertOne, decide_true, filter_cons_of_pos, hans]
        at hself ⊢
      exact ⟨congrArg _ hself.1, hself.2⟩
    · have hother := ih ((lookup_insertOne_of_ne hk).trans h)
      simpa [insertAll, forKey, key_insertOne, hk] using hother

/-- The requests for one key, when it has a row. -/
theorem insertAll_of_lookup (xs : List MetaProcessInfo) (hxs : ∀ x ∈ xs, x.key = k)
    (h : lookup k tbl = some r) : insertAll tbl xs = (tbl, xs.map (existing r)) := by
  induction xs with
  | nil => rfl
  | cons x xs ih =>
    have hone : insertOne tbl x = (tbl, x.existing r) := by
      rw [insertOne, hxs x mem_cons_self, h]
    simp only [insertAll, hone, ih fun y hy => hxs y (mem_cons_of_mem _ hy), map_cons]

/-- ... and when it has none. -/
theorem insertAll_of_lookup_none (xs : List MetaProcessInfo) (hxs : ∀ y ∈ x :: xs, y.key = k)
    (h : lookup k tbl = none) :
    insertAll tbl (x :: xs) = (insert k x.row tbl, x :: xs.map (existing x.row)) := by
  have hkey := hxs x mem_cons_self
  have hone : insertOne tbl x = (insert k x.row tbl, x) := by
    rw [insertOne, hkey, h]
  have hrest := insertAll_of_lookup xs (fun y hy => hxs y (mem_cons_of_mem _ hy))
    (lookup_insert (a := k) (b := x.row) tbl)
  simp only [insertAll, hone, hrest]

/-- A list cut into parts by key, with every part in order. -/
theorem perm_of_forKey {ys : List MetaProcessInfo} (h : ∀ k, forKey k xs = forKey k ys) :
    xs.Perm ys := by
  rw [perm_iff_count]
  intro a
  have hcount : ∀ zs : List MetaProcessInfo, (forKey a.key zs).count a = zs.count a := fun zs =>
    count_filter (by simp)
  rw [← hcount xs, ← hcount ys, h]

variable (cfg : Config)

/-- The requests of the shards, in the order of the shards. -/
def shardLists (infos : List MetaProcessInfo) : List (List MetaProcessInfo) :=
  cfg.shards.map fun n => infos.filter fun x => cfg.shard x.key = n

theorem createShards_eq_insertAll (lists : List (List MetaProcessInfo))
    (h : ∀ infos ∈ lists, ∀ x ∈ infos, x.errorCode = .success) (tbl : InodeTable) :
    createShards tbl lists = insertAll tbl lists.flatten := by
  induction lists generalizing tbl with
  | nil => rfl
  | cons infos lists ih =>
    have hself := h infos mem_cons_self
    have hfilter : (infos.filter fun x => x.errorCode = .success) = infos :=
      filter_eq_self.mpr fun x hx => by simpa using hself x hx
    have hrounds := rounds_eq_insertAll (sound_self infos hself tbl)
    have hrest := ih (fun infos' hi => h infos' (mem_cons_of_mem _ hi)) (insertAll tbl infos).1
    simp only [createShards, hfilter, hrounds, hrest, flatten_cons, insertAll_append]

/-- Every key has one shard. -/
theorem forKey_shardLists (infos : List MetaProcessInfo) (k : Key) :
    forKey k (shardLists cfg infos).flatten = forKey k infos := by
  have hpart : ∀ n, forKey k (infos.filter fun x => cfg.shard x.key = n) =
      if cfg.shard k = n then forKey k infos else [] := by
    intro n
    rw [forKey, filter_filter]
    split
    · rename_i hn
      refine filter_congr fun x _ => ?_
      by_cases hx : x.key = k
      · simp [hx, hn]
      · simp [hx]
    · rename_i hn
      refine filter_eq_nil_iff.mpr fun x _ => ?_
      by_cases hx : x.key = k
      · simp [hx, hn]
      · simp [hx]
  have hshards : ∀ ns : List Nat, ns.Nodup →
      forKey k (ns.map fun n => infos.filter fun x => cfg.shard x.key = n).flatten =
        if cfg.shard k ∈ ns then forKey k infos else [] := by
    intro ns hns
    induction ns with
    | nil => rfl
    | cons n ns ih =>
      obtain ⟨hn, hns⟩ := nodup_cons.mp hns
      have hcons :
          forKey k ((n :: ns).map fun n => infos.filter fun x => cfg.shard x.key = n).flatten =
          forKey k (infos.filter fun x => cfg.shard x.key = n) ++
            forKey k (ns.map fun n => infos.filter fun x => cfg.shard x.key = n).flatten := by
        simp [forKey]
      rw [hcons, hpart, ih hns]
      by_cases hk : cfg.shard k = n
      · subst hk
        simp [hn]
      · simp [hk]
  rw [shardLists, hshards _ cfg.shards_nodup, if_pos (cfg.shard_mem k)]

/-- **A batch of creates comes to what its requests come to one at a time.**  For a key that has a
row, every request gets `FILE_EXISTS` with the data of the row; for a key that has none, the first
request succeeds with its row, and the others get `FILE_EXISTS` with the data of that row.
Nothing else changes. -/
theorem create_one_at_a_time (self : ServerId) (tbl : InodeTable) (items : List Item) :
    let infos := items.map (ofItem self)
    let r := createShards tbl (shardLists cfg infos)
    (r.2.Perm (insertAll tbl infos).2 ∧
      ∀ k, lookup k r.1 = lookup k (insertAll tbl infos).1) ∧
    ∀ k,
      (∀ row, lookup k tbl = some row → lookup k r.1 = some row ∧
        forKey k r.2 = (forKey k infos).map (existing row)) ∧
      (lookup k tbl = none →
        (forKey k infos = [] ∧ lookup k r.1 = none ∧ forKey k r.2 = []) ∨
        ∃ x others, forKey k infos = x :: others ∧ lookup k r.1 = some x.row ∧
          forKey k r.2 = x :: others.map (existing x.row)) := by
  intro infos r
  have hsuccess : ∀ lists ∈ shardLists cfg infos, ∀ x ∈ lists, x.errorCode = .success := by
    intro lists hl x hx
    obtain ⟨n, -, rfl⟩ := mem_map.mp hl
    obtain ⟨it, -, rfl⟩ := mem_map.mp (mem_of_mem_filter hx)
    rfl
  have hr : r = insertAll tbl (shardLists cfg infos).flatten :=
    createShards_eq_insertAll _ hsuccess tbl
  have hkey : ∀ k, forKey k r.2 = (insertAll tbl (forKey k infos)).2 ∧
      lookup k r.1 = lookup k (insertAll tbl (forKey k infos)).1 := by
    intro k
    rw [hr, ← forKey_shardLists cfg infos k]
    exact insertAll_forKey k _ rfl
  refine ⟨⟨perm_of_forKey fun k => ?_, fun k => ?_⟩, fun k => ⟨fun row hrow => ?_, fun hnone => ?_⟩⟩
  · rw [(hkey k).1, (insertAll_forKey k infos rfl).1]
  · rw [(hkey k).2, (insertAll_forKey k infos rfl).2]
  · have hall := insertAll_of_lookup (forKey k infos) (fun x hx => key_of_mem_forKey hx) hrow
    rw [(hkey k).1, (hkey k).2, hall]
    exact ⟨hrow, rfl⟩
  · obtain ⟨hans, hlook⟩ := hkey k
    cases hxs : forKey k infos with
    | nil =>
      rw [hxs] at hans hlook
      exact .inl ⟨rfl, hlook.trans hnone, hans⟩
    | cons x others =>
      have hall := insertAll_of_lookup_none others
        (fun y hy => key_of_mem_forKey (hxs ▸ hy)) hnone
      rw [hxs, hall] at hans hlook
      exact .inr ⟨x, others, rfl, hlook.trans (lookup_insert _), hans⟩

/-! ## 5. The program of the handlers

`createGroups` of `MetaHandle.lean` is the loop as a program.  Run by a server that is alone, it
comes to the same table, and the requests that it reports are the marked ones. -/

/-- The table that the transaction sees, and the one that a rollback goes back to. -/
def exec (s : InodeTable × InodeTable) : (o : ServerOp) → Option ((InodeTable × InodeTable) × o.Res)
  | .inode .beginSub => some ((s.1, s.1), ())
  | .inode .rollbackSub => some ((s.2, s.2), ())
  | .inode o =>
    some ((applyPuts (o.puts (o.result cfg.shard s.1)) s.1, s.2), o.result cfg.shard s.1)
  | _ => none

/-- A request of the loop and one of the program. -/
structure Matches (i : ServerId) (x : MetaProcessInfo) (c : CreateItem) : Prop where
  index : x.index = c.item.index
  key : x.key = c.item.target.key
  code : x.errorCode = if c.fileExists then .fileExists else .success
  row : c.fileExists = false → x.row = fileRow i c.item.target.inodeId

/-- The places of the requests that are marked. -/
def marks (xs : List MetaProcessInfo) : List Nat :=
  (xs.filter fun x => x.errorCode = .fileExists).map (·.index)

@[simp] theorem marks_append (xs ys : List MetaProcessInfo) :
    marks (xs ++ ys) = marks xs ++ marks ys := by
  simp [marks]

theorem group_marks (tbl : InodeTable) (n : Nat) (todo : List MetaProcessInfo) :
    marks (group tbl n todo).handled ++ marks (group tbl n todo).rest = marks todo := by
  have hboth := group_map (f := fun x => (x.errorCode, x.index)) (by simp) tbl n todo
  simpa [marks, filter_map, Function.comp_def] using
    congrArg (fun l => (l.filter fun c => c.1 = .fileExists).map Prod.snd) hboth

variable {cfg} {self : ServerId}

open Prog

theorem run_marked (hc : c.fileExists = true) (items : List CreateItem) (tbl saved : InodeTable)
    (n : Nat) :
    (createGroup self (n + 1) (c :: items)).run (exec cfg) (tbl, saved) =
      (createGroup self (n + 1) items).run (exec cfg) (tbl, saved) := by
  have hputs : ∀ r, InodeOp.puts (.searchAndUpdate c.item.target.key .read) r = [] := by
    intro r
    cases r <;> rfl
  rw [createGroup, if_pos hc]
  simp only [Handler.inode, op_bind, ret_bind, run, exec, hputs, applyPuts_nil]

theorem exec_insert (tbl saved : InodeTable) (k : Key) (row : InodeRow) :
    exec cfg (tbl, saved) (.inode (.insert k row)) =
      if (lookup k tbl).isNone then some ((insert k row tbl, saved), true)
      else some ((tbl, saved), false) := by
  show some ((applyPuts (if (lookup k tbl).isNone then [⟨k, none, some row⟩] else []) tbl,
    saved), (lookup k tbl).isNone) = _
  cases (lookup k tbl).isNone <;> rfl

theorem run_insert (cfg : Config) (self : ServerId) (hc : c.fileExists = false)
    (items : List CreateItem) (tbl saved : InodeTable) (n : Nat) :
    (createGroup self (n + 1) (c :: items)).run (exec cfg) (tbl, saved) =
      if (lookup c.item.target.key tbl).isNone then
        (createGroup self n items).run (exec cfg)
          (insert c.item.target.key (fileRow self c.item.target.inodeId) tbl, saved)
      else some ((tbl, saved), .ok (.error c.item.index)) := by
  rw [createGroup, if_neg (by simp [hc])]
  simp only [Handler.inode, op_bind, ret_bind, run, exec_insert]
  cases (lookup c.item.target.key tbl).isNone <;> rfl

/-- One subtransaction. -/
theorem run_createGroup (cfg : Config) (h : List.Forall₂ (Matches self) todo items)
    (tbl saved : InodeTable) (n : Nat) :
    ((group tbl n todo).failed = false ∧
      ∃ rest, List.Forall₂ (Matches self) (group tbl n todo).rest rest ∧
        (createGroup self n items).run (exec cfg) (tbl, saved) =
          some (((group tbl n todo).table, saved), .ok (.ok rest))) ∨
    ((group tbl n todo).failed = true ∧
      ∃ x, (group tbl n todo).rest.head? = some x ∧
        (createGroup self n items).run (exec cfg) (tbl, saved) =
          some (((group tbl n todo).table, saved), .ok (.error x.index))) := by
  induction h generalizing tbl n with
  | nil =>
    rw [group, createGroup]
    exact .inl ⟨rfl, [], .nil, rfl⟩
  | @cons x c todo items hx hs ih =>
    cases n with
    | zero => exact .inl ⟨rfl, c :: items, .cons hx hs, rfl⟩
    | succ n =>
      cases hc : c.fileExists with
      | true =>
        have hcode : x.errorCode = .fileExists := by rw [hx.code, hc, if_pos rfl]
        rw [run_marked hc, group_marked hcode]
        exact ih tbl (n + 1)
      | false =>
        have hcode : x.errorCode = .success := by rw [hx.code, hc]; rfl
        have hrun := run_insert cfg self hc items tbl saved n
        rw [← hx.key, ← hx.row hc, ← hx.index] at hrun
        cases hkey : lookup x.key tbl with
        | none =>
          rw [hkey, if_pos (by rfl)] at hrun
          rw [group_free hcode hkey, hrun]
          exact ih _ n
        | some r =>
          rw [hkey, if_neg (by simp)] at hrun
          rw [group_taken hcode hkey, hrun]
          exact .inr ⟨rfl, x, rfl, rfl⟩

theorem map_index_eq (h : List.Forall₂ (Matches self) todo items) :
    todo.map (·.index) = items.map (·.item.index) := by
  induction h with
  | nil => rfl
  | cons hx _ ih => simp only [map_cons, hx.index, ih]

theorem markExists_of_notMem (h : i ∉ items.map (·.item.index)) : markExists i items = items := by
  have hne : ∀ c ∈ items, c.item.index ≠ i := fun c hc heq => h (mem_map.mpr ⟨c, hc, heq⟩)
  rw [markExists, map_congr_left fun c hc => if_neg (hne c hc), map_id']

/-- After a failure both sides mark the same request. -/
theorem matches_markExists (h : List.Forall₂ (Matches self) todo items)
    (hnd : (todo.map (·.index)).Nodup) (tbl : InodeTable) (n : Nat)
    (hfail : (group tbl n todo).failed = true) (hx : (group tbl n todo).rest.head? = some x) :
    List.Forall₂ (Matches self)
      ((group tbl n todo).handled ++ markHead (group tbl n todo).rest)
        (markExists x.index items) := by
  induction h generalizing tbl n with
  | nil => simp [group] at hfail
  | @cons y c todo items hy hs ih =>
    obtain ⟨hnotMem, hnd⟩ := nodup_cons.mp hnd
    -- the request that fails comes after a request that is handled
    have hafter : ∀ tbl n, (group tbl n todo).rest.head? = some x → c.item.index ≠ x.index := by
      intro tbl n hhead heq
      refine hnotMem ?_
      show y.index ∈ _
      rw [← group_map index_search tbl n todo, hy.index, heq]
      exact mem_append_right _ (mem_map_of_mem (mem_of_mem_head? hhead))
    match n with
    | 0 => cases hfail
    | n + 1 =>
      cases hc : c.fileExists with
      | true =>
        have hcode : y.errorCode = .fileExists := by rw [hy.code, hc, if_pos rfl]
        rw [group_marked hcode] at hfail hx ⊢
        have hhead : markExists x.index (c :: items) = c :: markExists x.index items := by
          simp [markExists, hafter tbl (n + 1) hx]
        rw [hhead]
        refine .cons ⟨?_, ?_, ?_, fun hf => ?_⟩ (ih hnd tbl (n + 1) hfail hx)
        · rw [index_search, hy.index]
        · rw [key_search, hy.key]
        · rw [errorCode_search, hy.code]
        · simp [hc] at hf
      | false =>
        have hcode : y.errorCode = .success := by rw [hy.code, hc]; rfl
        cases hkey : lookup y.key tbl with
        | none =>
          rw [group_free hcode hkey] at hfail hx ⊢
          have hhead : markExists x.index (c :: items) = c :: markExists x.index items := by
            simp [markExists, hafter _ n hx]
          rw [hhead]
          exact .cons hy (ih hnd _ n hfail hx)
        | some r =>
          rw [group_taken hcode hkey] at hx ⊢
          obtain rfl : y = x := by simpa using hx
          have hhead : markExists y.index (c :: items) =
              { c with fileExists := true } :: markExists y.index items := by
            simp [markExists, hy.index]
          have hrest : markExists y.index items = items :=
            markExists_of_notMem (map_index_eq hs ▸ hnotMem)
          rw [hhead, hrest]
          exact .cons ⟨hy.index, hy.key, rfl, fun hf => by cases hf⟩ hs

theorem marks_markHead (hx : x.errorCode = .success) (rest : List MetaProcessInfo) :
    marks (markHead (x :: rest)) = x.index :: marks (x :: rest) := by
  simp [marks, markHead, mark, hx]

theorem map_index_markHead (rest : List MetaProcessInfo) :
    (markHead rest).map (·.index) = rest.map (·.index) := by
  cases rest <;> rfl

theorem ne_nil_of_matches (h : List.Forall₂ (Matches self) todo items) (hne : todo ≠ []) :
    items ≠ [] := by
  rintro rfl
  exact hne (forall₂_nil_right_iff.mp h)

theorem run_round_ok {rest : List CreateItem} (hne : items ≠ [])
    (h : (createGroup self batchOperationGroupSize items).run (exec cfg) (tbl, tbl) =
      some ((tbl', tbl), .ok (.ok rest))) (n : Nat) :
    (createGroups self (n + 1) items).run (exec cfg) (tbl, saved) =
      (createGroups self n rest).run (exec cfg) (tbl', tbl) := by
  rw [createGroups, if_neg hne]
  simp only [Handler.inode, op_bind, ret_bind, run, exec, run_bind_ok h]
  rfl

theorem run_round_error (hne : items ≠ [])
    (h : (createGroup self batchOperationGroupSize items).run (exec cfg) (tbl, tbl) =
      some ((tbl', tbl), .ok (.error i))) {n : Nat} {s : InodeTable × InodeTable}
    {marked : List Nat} (hs : (createGroups self n (markExists i items)).run (exec cfg) (tbl, tbl) =
      some (s, .ok marked)) :
    (createGroups self (n + 1) items).run (exec cfg) (tbl, saved) =
      some (s, .ok (i :: marked)) := by
  rw [createGroups, if_neg hne]
  simp only [Handler.inode, op_bind, ret_bind, run, exec, run_bind_ok h,
    run_bind_ok hs]
  rfl

/-- **The program of the handlers**: with as many rounds as it is given it comes to the table of the
loop, and it reports the requests that the loop has marked. -/
theorem run_createGroups (cfg : Config) (tbl saved : InodeTable) {todo : List MetaProcessInfo}
    {items : List CreateItem} (h : List.Forall₂ (Matches self) todo items)
    (hnd : (todo.map (·.index)).Nodup) {n : Nat} (hn : work todo ≤ n) :
    ∃ saved' marked, (createGroups self n items).run (exec cfg) (tbl, saved) =
        some (((rounds tbl todo).1, saved'), .ok marked) ∧
      (marks (rounds tbl todo).2).Perm (marked ++ marks todo) := by
  fun_induction rounds tbl todo generalizing saved items n with
  | case1 tbl =>
    cases h
    match n with
    | 0 => exact ⟨saved, [], rfl, List.Perm.refl _⟩
    | n + 1 => exact ⟨saved, [], rfl, List.Perm.refl _⟩
  | case2 tbl todo hne hfailed ih =>
    obtain ⟨hok, -⟩ | ⟨-, x, hx, hrun⟩ := run_createGroup cfg h tbl tbl batchOperationGroupSize
    · simp [hok] at hfailed
    have hitems := ne_nil_of_matches h hne
    have hwork := work_failed hfailed
    match n with
    | 0 => omega
    | n + 1 =>
    obtain ⟨rest, hrest⟩ : ∃ rest, (group tbl batchOperationGroupSize todo).rest = x :: rest :=
      head?_eq_some_iff.mp hx
    obtain ⟨y, rest', hrest', hy⟩ := group_failed hfailed
    obtain ⟨rfl, rfl⟩ := cons.inj (hrest.symm.trans hrest')
    obtain ⟨saved', marked, hrun', hperm⟩ := ih tbl (matches_markExists h hnd tbl _ hfailed hx)
      (by rwa [map_append, map_index_markHead, group_map index_search]) (n := n) (by omega)
    refine ⟨saved', x.index :: marked, run_round_error hitems hrun hrun', hperm.trans ?_⟩
    rw [marks_append, hrest, marks_markHead hy, ← group_marks tbl batchOperationGroupSize todo,
      hrest, ← append_assoc, cons_append, ← append_assoc]
    exact perm_middle
  | case3 tbl todo hne hfailed r ih =>
    obtain ⟨hok, rest, hrest, hrun⟩ | ⟨hbad, -⟩ :=
      run_createGroup cfg h tbl tbl batchOperationGroupSize
    · have hitems := ne_nil_of_matches h hne
      have hwork := work_handled (by decide) hne hok
      match n with
      | 0 => omega
      | n + 1 =>
        have hnd' : ((group tbl batchOperationGroupSize todo).rest.map (·.index)).Nodup := by
          rw [← group_map index_search tbl batchOperationGroupSize todo] at hnd
          exact (nodup_append.mp hnd).2.1
        obtain ⟨saved', marked, hrun', hperm⟩ := ih tbl hrest hnd' (n := n) (by omega)
        refine ⟨saved', marked, (run_round_ok hitems hrun n).trans hrun', ?_⟩
        rw [marks_append, ← group_marks tbl batchOperationGroupSize todo]
        exact (hperm.append_left _).trans (perm_append_comm_assoc _ _ _)
    · exact absurd hbad hfailed

section

variable (items : List Item)

/-- The requests of a shard as the program has them. -/
theorem matches_ofItem :
    List.Forall₂ (Matches self) (items.map (ofItem self)) (items.map fun it => ⟨it, false⟩) := by
  induction items with
  | nil => exact .nil
  | cons it items ih => exact .cons ⟨rfl, rfl, rfl, fun _ => rfl⟩ ih

theorem work_ofItem : work (items.map (ofItem self)) = 2 * items.length := by
  have hall : unmarked (items.map (ofItem self)) = items.length := by
    rw [unmarked, countP_eq_length.mpr, length_map]
    intro x hx
    obtain ⟨it, -, rfl⟩ := mem_map.mp hx
    rfl
  rw [work, hall, length_map]
  omega

theorem marks_ofItem : marks (items.map (ofItem self)) = [] := by
  rw [marks, filter_eq_nil_iff.mpr, map_nil]
  intro x hx
  obtain ⟨it, -, rfl⟩ := mem_map.mp hx
  simp [ofItem]

theorem filter_map_ofItem (n : Nat) :
    ((items.map (ofItem self)).filter fun x => cfg.shard x.key = n) =
      (items.filter fun it => cfg.shard it.target.key = n).map (ofItem self) := by
  rw [filter_map]
  rfl

theorem filter_success_ofItem :
    ((items.map (ofItem self)).filter fun x => x.errorCode = .success) =
      items.map (ofItem self) := by
  refine filter_eq_self.mpr fun x hx => ?_
  obtain ⟨it, -, rfl⟩ := mem_map.mp hx
  rfl

/-- **The loops over the shards.**  The program has the rounds that it needs. -/
theorem run_createShards (hnd : (items.map (·.index)).Nodup) (shards : List Nat)
    (tbl saved : InodeTable) :
    ∃ saved' marked, (shards.mapM fun n =>
          let todo := items.filter fun it => cfg.shard it.target.key = n
          createGroups self (2 * todo.length + 1) (todo.map fun it => ⟨it, false⟩)).run
        (exec cfg) (tbl, saved) =
          some (((createShards tbl (shards.map fun n =>
            (items.map (ofItem self)).filter fun x => cfg.shard x.key = n)).1, saved'),
          .ok marked) ∧
      (marks (createShards tbl (shards.map fun n =>
        (items.map (ofItem self)).filter fun x => cfg.shard x.key = n)).2).Perm marked.flatten := by
  induction shards generalizing tbl saved with
  | nil => exact ⟨saved, [], rfl, List.Perm.refl _⟩
  | cons n shards ih =>
    obtain ⟨todo, htodo⟩ : ∃ todo, todo = items.filter fun it => cfg.shard it.target.key = n :=
      ⟨_, rfl⟩
    have hnd' : ((todo.map (ofItem self)).map (·.index)).Nodup := by
      rw [map_map, htodo]
      exact hnd.sublist (filter_sublist.map _)
    have hwork : work (todo.map (ofItem self)) ≤ 2 * todo.length + 1 := by
      rw [work_ofItem]
      omega
    obtain ⟨saved₁, codes, hrun, hperm⟩ :=
      run_createGroups cfg tbl saved (matches_ofItem todo) hnd' hwork
    obtain ⟨saved₂, marked, hrun', hperm'⟩ := ih (rounds tbl (todo.map (ofItem self))).1 saved₁
    rw [marks_ofItem, append_nil] at hperm
    refine ⟨saved₂, codes :: marked, ?_, ?_⟩
    · rw [mapM_cons]
      simp only [map_cons, createShards, filter_map_ofItem, filter_success_ofItem, ← htodo]
      simp only [filter_map_ofItem] at hrun'
      rw [run_bind_ok hrun, run_bind_ok hrun']
      rfl
    · simp only [map_cons, createShards, filter_map_ofItem, filter_success_ofItem, ← htodo,
        marks_append, flatten_cons] at hperm' ⊢
      exact hperm.append hperm'

theorem run_createShards_twice : ∃ st marked, ([0].mapM fun n =>
      let todo := [Item.mk 0 ⟨1, [97], 7⟩, ⟨1, ⟨1, [97], 8⟩⟩].filter fun it =>
        oneWorker.shard it.target.key = n
      createGroups 1 (2 * todo.length + 1) (todo.map (⟨·, false⟩))).run
        (exec oneWorker) (∅, ∅) = some (st, .ok marked) := by
  obtain ⟨_, marked, hrun, -⟩ := run_createShards [⟨0, ⟨1, [97], 7⟩⟩,
    ⟨1, ⟨1, [97], 8⟩⟩] (by decide) [0] ∅ ∅
  exact ⟨_, marked, hrun⟩

end

end FalconFS.CreateBatch
