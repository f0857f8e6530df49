/-
# The workers of a listing

`ReadDir.lean` of this directory takes a worker as something that answers with the next part of
its entries.  Here it is shown that `FalconReadDirHandle` does, while the directory does not
change: whatever the sizes of the pages, they are the consecutive parts of one list, `listing`,
and the shard index and the name that it returns stand behind the page.

No name is on two workers, because its shard is on one.  So the handlers of a shard table are a
`Directory`, and what is proved there holds of them.
-/
import FalconFS.Client.ReadDirListing
import FalconFS.Metadb.ReadDir

namespace FalconFS.ReadDir

open Paging ShardTable List

variable {Name : Type} [LinearOrder Name] {cfg : Config Name}

/-! ## 1. The listing of a worker -/

/-- The rows of the directory in the shards of this worker. -/
def listing (cfg : Config Name) (snap : Snapshot cfg) : List (Row Name) :=
  cfg.table.rows.flatMap fun row =>
    if row.2 = cfg.localServerId then (snap.rows row.1).filter (scanKey cfg .newShard) else []

theorem covers_listing (snap : Snapshot cfg) :
    Covers (Seen fun _ _ => snap) (Stable fun _ _ => snap) (front cfg .newShard 0)
      (front cfg .newShard cfg.table.rows.length) ((listing cfg snap).map cfg.position) := by
  have hstep : ∀ i ≤ cfg.table.rows.length,
      Covers (Seen fun _ _ => snap) (Stable fun _ _ => snap) (front cfg .newShard 0)
        (front cfg .newShard i) (((cfg.table.rows.take i).flatMap fun row =>
          if row.2 = cfg.localServerId then (snap.rows row.1).filter (scanKey cfg .newShard)
          else []).map cfg.position) := by
    intro i
    induction i with
    | zero => exact fun _ => Covers.nil (front_upward _ _)
    | succ i ih =>
      intro hi
      obtain ⟨⟨shardId, workerId⟩, hrow⟩ : ∃ row, cfg.table.rows[i]? = some row :=
        ⟨_, getElem?_eq_getElem hi⟩
      have hpart : Covers (Seen fun _ _ => snap) (Stable fun _ _ => snap) (front cfg .newShard i)
          (front cfg .newShard (i + 1)) ((if workerId = cfg.localServerId then
            (snap.rows shardId).filter (scanKey cfg .newShard) else []).map cfg.position) := by
        split
        · rename_i hlocal
          exact covers_scan (hlocal ▸ hrow) .newShard 0 0
        · rename_i hremote
          exact covers_skip hrow hremote
      have hall := (ih (by omega)).append hpart
      rw [← map_append] at hall
      rw [take_add_one, hrow, Option.toList_some, flatMap_append, flatMap_singleton]
      exact hall
  have h := hstep cfg.table.rows.length (le_refl _)
  rwa [take_length] at h

variable {snap : Snapshot cfg} {p : Position Name} {r : Row Name} {m : Nat}

theorem stable_of_seen (hp : Seen (fun _ _ => snap) p) : Stable (fun _ _ => snap) p := by
  obtain ⟨i, shardId, page, scan, r, hi, hr, hentry, rfl⟩ := hp
  refine ⟨i, r.name, ⟨shardId, hi, fun _ _ => ⟨r, hr, hentry, rfl⟩⟩, ?_⟩
  rw [show r.parentIdPartId = cfg.key r.name from hentry]

theorem mem_listing_of_seen (hp : Seen (fun _ _ => snap) p) :
    p ∈ (listing cfg snap).map cfg.position := by
  refine (covers_listing snap).complete p (stable_of_seen hp) ?_ ?_
  · exact Nat.zero_le _
  · obtain ⟨i, shardId, page, scan, r, hi, -, -, rfl⟩ := hp
    rw [front_newShard]
    exact Nat.not_le.mpr (List.getElem?_eq_some_iff.mp hi).1

theorem stable_of_mem_listing (hp : p ∈ (listing cfg snap).map cfg.position) :
    Stable (fun _ _ => snap) p :=
  stable_of_seen ((covers_listing snap).mem p hp).2.2

/-- A row of this worker in the snapshot. -/
def LocalRow (snap : Snapshot cfg) (r : Row Name) : Prop :=
  ∃ (i : Nat) (shardId : Int),
    cfg.table.rows[i]? = some (shardId, cfg.localServerId) ∧ r ∈ snap.rows shardId

/-- Rows at one position are one row. -/
theorem eq_of_position {r' : Row Name} (hr : LocalRow snap r) (hr' : LocalRow snap r')
    (h : cfg.position r = cfg.position r') : r = r' := by
  obtain ⟨i, shardId, hi, hmem⟩ := hr
  obtain ⟨i', shardId', hi', hmem'⟩ := hr'
  obtain ⟨-, hkey, hname⟩ := position_inj h
  have hkey := BitVec.eq_of_toInt_eq hkey
  obtain rfl : shardId = shardId' := by
    rw [← snap.placed shardId r hmem, ← snap.placed shardId' r' hmem', hkey]
  have hirrefl : ∀ s s' : Row Name, IndexLt s s' → s.parentIdPartId = s'.parentIdPartId →
      s.name ≠ s'.name := by
    rintro s s' (hlt | ⟨-, hlt⟩) hkey
    · exact absurd hlt (hkey ▸ lt_irrefl _)
    · exact hlt.ne
  obtain ⟨a, ha, rfl⟩ := getElem_of_mem hmem
  obtain ⟨b, hb, rfl⟩ := getElem_of_mem hmem'
  have hordered := pairwise_iff_getElem.mp (snap.ordered shardId)
  rcases Nat.lt_trichotomy a b with hlt | rfl | hlt
  · exact absurd hname (hirrefl _ _ (hordered a b ha hb hlt) hkey)
  · rfl
  · exact absurd hname.symm (hirrefl _ _ (hordered b a hb ha hlt) hkey.symm)

theorem localRow_of_mem_listing (hr : r ∈ listing cfg snap) : LocalRow snap r := by
  obtain ⟨⟨shardId, workerId⟩, hrow, hmem⟩ := mem_flatMap.mp hr
  obtain ⟨i, hi, heq⟩ := getElem_of_mem hrow
  dsimp only at hmem
  split at hmem
  · rename_i hlocal
    refine ⟨i, shardId, ?_, mem_of_mem_filter hmem⟩
    rw [getElem?_eq_getElem hi, heq, hlocal]
  · cases hmem

theorem entry_of_mem_listing (hr : r ∈ listing cfg snap) : cfg.Entry r := by
  obtain ⟨⟨shardId, workerId⟩, -, hmem⟩ := mem_flatMap.mp hr
  dsimp only at hmem
  split at hmem
  · obtain ⟨hmem, hscan⟩ := mem_filter.mp hmem
    exact ((scanKey_iff hmem .newShard).mp hscan).1
  · cases hmem

/-! ## 2. The pages -/

/-- The loop returns rows of the snapshot, and no more than it is asked for. -/
theorem readShards_rows (snap : Snapshot cfg) (m : Nat) : ∀ (rounds scan : Nat)
    (state : StreamSearchState Name) (i : Nat) (result : List (Row Name)), result.length ≤ m →
      (∀ r ∈ result, LocalRow snap r) →
      (readShards cfg (fun _ => snap) m rounds scan state i result).1.length ≤ m ∧
        ∀ r ∈ (readShards cfg (fun _ => snap) m rounds scan state i result).1, LocalRow snap r := by
  intro rounds
  induction rounds with
  | zero => exact fun _ _ _ _ hlen hrows => ⟨hlen, hrows⟩
  | succ rounds ih =>
    intro scan state i result hlen hrows
    unfold readShards
    split
    · exact ⟨hlen, hrows⟩
    · rename_i shardId workerId hi
      split
      · exact ih _ _ _ _ hlen hrows
      · rename_i hlocal
        have hlen' : (result ++ ((snap.rows shardId).filter (scanKey cfg state)).take
            (m - result.length)).length ≤ m := by
          rw [length_append, length_take]
          omega
        have hrows' : ∀ r ∈ result ++ ((snap.rows shardId).filter (scanKey cfg state)).take
            (m - result.length), LocalRow snap r := by
          intro r hr
          rcases mem_append.mp hr with hr | hr
          · exact hrows r hr
          · exact ⟨i, shardId, not_not.mp hlocal ▸ hi,
              mem_of_mem_filter (mem_of_mem_take hr)⟩
        dsimp only
        split
        · exact ⟨hlen', hrows'⟩
        · split
          · exact ih _ _ _ _ hlen' hrows'
          · exact ih _ _ _ _ hlen' hrows'

theorem eq_of_map_position {rows rows' : List (Row Name)} (hrows : ∀ r ∈ rows, LocalRow snap r)
    (hrows' : ∀ r ∈ rows', LocalRow snap r) (h : rows.map cfg.position = rows'.map cfg.position) :
    rows = rows' := by
  induction rows generalizing rows' with
  | nil => exact (map_eq_nil_iff.mp h.symm).symm
  | cons r rows ih =>
    match rows' with
    | [] => cases h
    | r' :: rows' =>
      obtain ⟨hhead, htail⟩ := cons.inj h
      rw [eq_of_position (hrows r mem_cons_self) (hrows' r' mem_cons_self) hhead,
        ih (fun s hs => hrows s (mem_cons_of_mem _ hs))
          (fun s hs => hrows' s (mem_cons_of_mem _ hs)) htail]

/-- A cursor that stands behind the first `n` rows of the listing. -/
def Behind (snap : Snapshot cfg) (n : Nat) (cursor : Cursor Name) : Prop :=
  CursorOk cfg cursor ∧ Splits (ahead cfg cursor) ((listing cfg snap).map cfg.position) n

theorem behind_none (snap : Snapshot cfg) : Behind snap 0 none := by
  refine ⟨trivial, fun p hp => ?_, fun p _ => Nat.zero_le _⟩
  rw [take_zero] at hp
  cases hp

theorem pageSize_natCast (m : Nat) : pageSize m = m := by
  rw [pageSize, if_neg (by omega), Int.toNat_natCast]

theorem falconReadDirHandle_rows (snap : Snapshot cfg) (m : Nat) (cursor : Cursor Name) :
    (falconReadDirHandle cfg (fun _ => snap) m cursor).1.length ≤ m ∧
      ∀ r ∈ (falconReadDirHandle cfg (fun _ => snap) m cursor).1, LocalRow snap r := by
  have hrows := readShards_rows snap m (cfg.table.rows.length + 3) 0 (startState cursor).1
    (startState cursor).2 [] (Nat.zero_le _) (fun r hr => (nomatch hr))
  unfold falconReadDirHandle
  rw [pageSize_natCast]
  dsimp only
  split <;> exact hrows

/-- There is a cursor exactly when the page is full. -/
theorem falconReadDirHandle_full (snap : Snapshot cfg) (hm : 0 < m) (cursor : Cursor Name) :
    (falconReadDirHandle cfg (fun _ => snap) m cursor).2 = none ↔
      (falconReadDirHandle cfg (fun _ => snap) m cursor).1.length < m := by
  unfold falconReadDirHandle
  rw [pageSize_natCast]
  dsimp only
  split
  · rename_i hlt
    exact ⟨fun _ => hlt, fun _ => rfl⟩
  · rename_i hge
    refine ⟨fun hnone => ?_, fun hlt => absurd hlt hge⟩
    rw [Option.map_eq_none_iff, getLast?_eq_none_iff] at hnone
    rw [hnone] at hge
    exact absurd hm hge

/-- **A page is the next part of the listing.** -/
theorem falconReadDirHandle_page {n : Nat} {cursor : Cursor Name} (h : Behind snap n cursor)
    (hm : 0 < m) :
    (falconReadDirHandle cfg (fun _ => snap) m cursor).1 = ((listing cfg snap).drop n).take m ∧
      (n + m ≤ (listing cfg snap).length →
        Behind snap (n + m) (falconReadDirHandle cfg (fun _ => snap) m cursor).2) := by
  obtain ⟨hlen, hrows⟩ := falconReadDirHandle_rows snap m cursor
  have hfull := falconReadDirHandle_full snap hm cursor
  rcases hr : falconReadDirHandle cfg (fun _ => snap) m cursor with ⟨result, cursor'⟩
  rw [hr] at hlen hrows hfull
  dsimp only at hlen hrows hfull ⊢
  have hsorted := (covers_listing snap).sorted
  -- the part that a call covers, whatever is in front of it afterwards
  have hpart : ∀ F, Covers (Seen fun _ _ => snap) (Stable fun _ _ => snap) (ahead cfg cursor) F
      (result.map cfg.position) → result = ((listing cfg snap).drop n).take result.length ∧
        Splits F ((listing cfg snap).map cfg.position) (n + result.length) := by
    intro F hcovers
    obtain ⟨hout, hsplit⟩ := hcovers.fixed hsorted (fun p => mem_listing_of_seen)
      (fun p => stable_of_mem_listing) h.2
    rw [length_map] at hout hsplit
    rw [← map_drop, ← map_take] at hout
    refine ⟨eq_of_map_position hrows (fun r hmem => ?_) hout, hsplit⟩
    exact localRow_of_mem_listing (mem_of_mem_drop (mem_of_mem_take hmem))
  rcases falconReadDirHandle_ok (fun _ _ => snap) 0 (by omega) h.1 hr with
    ⟨rfl, hcovers⟩ | ⟨hne, -, hok, hcovers⟩
  · obtain ⟨hresult, hsplit⟩ := hpart _ hcovers
    have hend : (listing cfg snap).length ≤ n + result.length := by
      rw [← length_map cfg.position, ← drop_eq_nil_iff]
      refine eq_nil_iff_forall_not_mem.mpr fun p hp => ?_
      exact ((covers_listing snap).mem p (mem_of_mem_drop hp)).2.1 (hsplit.2 p hp)
    have hshort := hfull.mp rfl
    have hlength := congrArg length hresult
    rw [length_take, length_drop] at hlength
    refine ⟨?_, fun hle => absurd hle (by omega)⟩
    rw [hresult, take_of_length_le (by rw [length_drop]; omega),
      take_of_length_le (by rw [length_drop]; omega)]
  · obtain ⟨hresult, hsplit⟩ := hpart _ hcovers
    obtain rfl : result.length = m := by
      have := mt hfull.mpr hne
      omega
    exact ⟨hresult, fun _ => ⟨hok, hsplit⟩⟩

end FalconFS.ReadDir

namespace FalconFS.ClientReadDir

open ReadDir ShardTable

variable {Name : Type}

/-! ## 3. The directory of a shard table -/

/-- What the request gives to the handler: the index is -1 and there is no name, or there are
both. -/
def toCursor : Int → Option Name → Cursor Name
  | .ofNat i, some name => some (i, name)
  | _, _ => none

/-- What the handler gives to the response. -/
def toResponse (r : List (Row Name) × Cursor Name) : Response Name :=
  ⟨r.2.elim (-1) fun c => c.1, r.2.map Prod.snd, r.1.map fun row => ⟨row.name, row.mode⟩⟩

theorem toCursor_toResponse (r : List (Row Name) × Cursor Name) :
    toCursor (toResponse r).lastShardIndex (toResponse r).lastFileName = r.2 := by
  obtain ⟨rows, _ | ⟨i, name⟩⟩ := r <;> rfl

/-- The worker with this id. -/
def workerConfig (cfg : Config Name) (id : Int) : Config Name := { cfg with localServerId := id }

variable [LinearOrder Name]

/-- A name is in one shard, and this is on one worker. -/
theorem worker_of_name {cfg : Config Name} {id id' : Int} {snap : Snapshot (workerConfig cfg id)}
    {snap' : Snapshot (workerConfig cfg id')} {r r' : Row Name}
    (hr : r ∈ listing (workerConfig cfg id) snap) (hr' : r' ∈ listing (workerConfig cfg id') snap')
    (hname : r.name = r'.name) : id = id' := by
  obtain ⟨i, shardId, hi, hmem⟩ := localRow_of_mem_listing hr
  obtain ⟨i', shardId', hi', hmem'⟩ := localRow_of_mem_listing hr'
  have hentry : r.parentIdPartId = (workerConfig cfg id).key r.name := entry_of_mem_listing hr
  have hentry' : r'.parentIdPartId = (workerConfig cfg id').key r'.name := entry_of_mem_listing hr'
  have hkey : r.parentIdPartId = r'.parentIdPartId := by
    rw [hentry, hentry', hname]
    rfl
  have hshard : shardId = shardId' := by
    rw [← snap.placed shardId r hmem, ← snap'.placed shardId' r' hmem', hkey]
    rfl
  have hindex : i = i' := by
    rw [← points_idxOf hi, ← points_idxOf hi', hshard]
    rfl
  have hrow : some (shardId, id) = some (shardId', id') := hi.symm.trans (hindex ▸ hi')
  exact (Prod.mk.inj (Option.some.inj hrow)).2

/-- **The handlers of a shard table**, each with its tables as they are, for one directory. -/
def tableDirectory (cfg : Config Name) (workers : List Int) (hworkers : workers.Nodup)
    (snap : ∀ id, Snapshot (workerConfig cfg id)) (order : Nat → List Int → List Int)
    (horder : ∀ n ids, (order n ids).Perm ids) : Directory Int Name where
  workerInfo := workers
  order := order
  entries id := (listing (workerConfig cfg id) (snap id)).map fun row => ⟨row.name, row.mode⟩
  answer id m i name :=
    toResponse (falconReadDirHandle (workerConfig cfg id) (fun _ => snap id) m (toCursor i name))
  Behind id n i name := ReadDir.Behind (snap id) n (toCursor i name)
  workers_nodup := hworkers
  order_perm := horder
  names_nodup := by
    rw [List.map_flatMap]
    refine List.nodup_flatMap.mpr ⟨fun id _ => ?_, hworkers.imp fun {id id'} hne => ?_⟩
    · rw [List.map_map]
      exact names_nodup (covers_listing (snap id))
    · intro name hname hname'
      simp only [List.map_map] at hname hname'
      obtain ⟨r, hr, rfl⟩ := List.mem_map.mp hname
      obtain ⟨r', hr', heq⟩ := List.mem_map.mp hname'
      exact hne (worker_of_name hr hr' heq.symm)
  behind_zero id _ := behind_none (snap id)
  answer_length id m i name := by
    rw [toResponse, List.length_map]
    exact (falconReadDirHandle_rows (snap id) m _).1
  answer_page id _ n i name h _ m := by
    rw [toResponse, ← List.map_drop, ← List.map_take]
    rcases Nat.eq_zero_or_pos m with rfl | hm
    · have hlen := (falconReadDirHandle_rows (snap id) 0 (toCursor i name)).1
      rw [List.eq_nil_of_length_eq_zero (Nat.le_zero.mp hlen), List.take_zero]
    · rw [(falconReadDirHandle_page h hm).1]
  answer_behind id _ n i name h m hm hle := by
    rw [toCursor_toResponse]
    rw [List.length_map] at hle
    exact (falconReadDirHandle_page h hm).2 hle

/-- **What fits into one epoch is listed exactly**, whatever the filler accepts. -/
theorem tableDirectory_delivers {cfg : Config Name} {workers : List Int} (hworkers : workers.Nodup)
    {snap : ∀ id, Snapshot (workerConfig cfg id)} {order : Nat → List Int → List Int}
    (horder : ∀ n ids, (order n ids).Perm ids)
    (hshort : ∀ id ∈ workers,
      (listing (workerConfig cfg id) (snap id)).length < fileNumberPerWorker workers.length)
    {rooms : Nat → Nat} (hrooms : ∀ n, 0 < rooms n) :
    Delivers (tableDirectory cfg workers hworkers snap order horder) rooms := by
  refine delivers_of_one_epoch (fun id hid => ?_) hrooms
  show (List.map _ _).length < _
  rw [List.length_map]
  exact hshort id hid

/-- Entries on both of two workers, in pages of two. -/
theorem tableDirectory_delivers_two : Delivers (tableDirectory (twoShards 1) [1, 2] (by decide)
    (fun id => snapshotOf (twoShards id) [1, 2, 5, 6, 8]
      (show ([1, 2, 5, 6, 8].map (rowOf (twoShards 1))).Pairwise IndexLt by decide))
    (fun _ ids => ids.reverse) fun _ ids => ids.reverse_perm) fun _ => 2 :=
  tableDirectory_delivers _ _ (by decide) fun _ => Nat.two_pos

end FalconFS.ClientReadDir
