/-
# Reading a directory in pages

`FalconReadDirHandle` goes through the inode tables of the shards of its own worker, one after the
other, and in each through the index on (`parentid_partid`, `name`).  A page ends when it has
enough entries; the next call gets the index of the shard and the last name, and goes on in three
steps: the same part id behind that name, the greater part ids, the following shards.

Everything between the calls may change but the shard table, and each scan of a call has its own
snapshot.  A row's position is the triple of its shard's index, its key and its name.  The three
steps are consecutive segments of that order, so the cursor never needs the row it was taken from:
that row may be gone (`Lib.Paging`).

Keys are `bigint`, so they are compared as signed numbers, although the code computes them without a
sign; for one directory this makes no difference (`combine_toInt`).
-/
import Mathlib.Data.Prod.Lex
import Mathlib.Data.List.Nodup
import Mathlib.Data.List.Perm.Subperm
import FalconFS.Lib.Paging
import FalconFS.Metadb.ShardTable

namespace FalconFS.ReadDir

open Paging ShardTable OrderedMap List

/-! ## 1. Keys -/

theorem masked_lt {p : BitVec 16} (hp : p &&& 0x1FFF = p) : p.toNat < 2 ^ 13 := by
  have h := congrArg BitVec.toNat hp
  rw [BitVec.toNat_and] at h
  have hle : p.toNat &&& (0x1FFF : BitVec 16).toNat ≤ (0x1FFF : BitVec 16).toNat := Nat.and_le_right
  have hmask : (0x1FFF : BitVec 16).toNat = 8191 := by decide
  omega

theorem combine_toNat (d : BitVec 64) {p : BitVec 16} (hp : p &&& 0x1FFF = p) :
    (combineParentIdWithPartId d p).toNat = d.toNat % 2 ^ 51 * 2 ^ 13 + p.toNat := by
  have hlt := masked_lt hp
  have hshift : (d <<< partIdBitCount).toNat = (d.toNat % 2 ^ 51) <<< 13 := by
    rw [BitVec.toNat_shiftLeft, Nat.shiftLeft_eq, Nat.shiftLeft_eq]
    unfold partIdBitCount
    omega
  have hext : (p.zeroExtend 64).toNat = p.toNat := by
    rw [BitVec.toNat_setWidth]
    exact Nat.mod_eq_of_lt (by omega)
  rw [combineParentIdWithPartId, BitVec.toNat_or, hshift, hext,
    ← Nat.shiftLeft_add_eq_or_of_lt hlt, Nat.shiftLeft_eq]

/-- **Signed keys of a directory** are a multiple of `2 ^ 13` and the part id. -/
theorem combine_toInt (d : BitVec 64) {p : BitVec 16} (hp : p &&& 0x1FFF = p) :
    (combineParentIdWithPartId d p).toInt = (combineParentIdWithPartId d 0).toInt + p.toNat ∧
      8192 ∣ (combineParentIdWithPartId d 0).toInt ∧ p.toNat < 8192 := by
  have hlt := masked_lt hp
  have h := combine_toNat d hp
  have h0 := combine_toNat d (p := 0) (by decide)
  have hz : (0 : BitVec 16).toNat = 0 := rfl
  rw [BitVec.toInt_eq_toNat_cond, BitVec.toInt_eq_toNat_cond]
  refine ⟨?_, ?_, hlt⟩
  · split <;> split <;> omega
  · split <;> omega

/-! ## 2. The handler -/

/-- A row of an inode table, as far as it is read here. -/
structure Row (Name : Type) where
  parentIdPartId : BitVec 64
  name : Name
  mode : BitVec 32
  deriving DecidableEq, Repr

/-- What does not change between the calls: the shard table, which of its servers is this one, the
directory, and how names are hashed. -/
structure Config (Name : Type) where
  table : Table
  hashBytesUint32 : BitVec 32 → BitVec 32
  localServerId : Int
  directoryId : BitVec 64
  hashPartId : Name → BitVec 16
  masked : ∀ name, hashPartId name &&& 0x1FFF = hashPartId name

/-- `StreamSearchState`, with the name that two of the states use. -/
inductive StreamSearchState (Name : Type) where
  | newShard
  | sameIdGreaterName (lastFileName : Name)
  | greaterId (lastFileName : Name)
  deriving DecidableEq, Repr

section Handler

variable {Name : Type} [LinearOrder Name] (cfg : Config Name)

/-- The key of a name in the directory. -/
def Config.key (name : Name) : BitVec 64 :=
  combineParentIdWithPartId cfg.directoryId (cfg.hashPartId name)

/-- The shard a key belongs to, named by its range point. -/
def Config.shardOf (key : BitVec 64) : Int :=
  match searchShardInfoByShardValue cfg.hashBytesUint32 cfg.table.rows key with
  | .ok (rangePoint, _) => rangePoint
  | .error _ => 0

/-- A row before another in the index on (`parentid_partid`, `name`). -/
def IndexLt (r r' : Row Name) : Prop :=
  r.parentIdPartId.toInt < r'.parentIdPartId.toInt ∨
    (r.parentIdPartId = r'.parentIdPartId ∧ r.name < r'.name)

instance (r r' : Row Name) : Decidable (IndexLt r r') := inferInstanceAs (Decidable (_ ∨ _))

/-- What one scan can see: the table of each shard in the order of its index.  Every row has the
key of its name in some directory, and is in the shard of its key. -/
structure Snapshot where
  rows : Int → List (Row Name)
  ordered : ∀ shardId, (rows shardId).Pairwise IndexLt
  keyed : ∀ shardId, ∀ r ∈ rows shardId, ∃ parentId,
    r.parentIdPartId = combineParentIdWithPartId parentId (cfg.hashPartId r.name)
  placed : ∀ shardId, ∀ r ∈ rows shardId, cfg.shardOf r.parentIdPartId = shardId

/-- The scan keys of a state. -/
def scanKey : StreamSearchState Name → Row Name → Bool
  | .sameIdGreaterName lastFileName, r =>
    r.parentIdPartId == cfg.key lastFileName && decide (lastFileName < r.name)
  | .greaterId lastFileName, r =>
    decide ((cfg.key lastFileName).toInt < r.parentIdPartId.toInt) &&
      decide (r.parentIdPartId.toInt ≤ (combineParentIdWithPartId cfg.directoryId 0x1FFF).toInt)
  | .newShard, r =>
    decide ((combineParentIdWithPartId cfg.directoryId 0).toInt ≤ r.parentIdPartId.toInt) &&
      decide (r.parentIdPartId.toInt ≤ (combineParentIdWithPartId cfg.directoryId 0x1FFF).toInt)

def nextState : StreamSearchState Name → StreamSearchState Name
  | .sameIdGreaterName lastFileName => .greaterId lastFileName
  | .greaterId _ => .newShard
  | .newShard => .newShard

/-- The `while` over the shards: the entries read, and the shard index at its end.  `snap` gives
the snapshot of each scan of the call.  The inner loop takes rows until there are `maxReadCount`;
there are fewer when it begins. -/
def readShards (snap : Nat → Snapshot cfg) (maxReadCount : Nat) : Nat → Nat →
    StreamSearchState Name → Nat → List (Row Name) → List (Row Name) × Nat
  | 0, _, _, shardIndex, result => (result, shardIndex)
  | rounds + 1, scanNo, state, shardIndex, result =>
    match cfg.table.rows[shardIndex]? with
    | none => (result, shardIndex)
    | some (shardId, workerId) =>
      if workerId ≠ cfg.localServerId then
        readShards snap maxReadCount rounds scanNo state (shardIndex + 1) result
      else
        let rows := ((snap scanNo).rows shardId).filter (scanKey cfg state)
        let result := result ++ rows.take (maxReadCount - result.length)
        let state := nextState state
        if maxReadCount ≤ result.length then (result, shardIndex)
        else if state = .newShard then
          readShards snap maxReadCount rounds (scanNo + 1) state (shardIndex + 1) result
        else readShards snap maxReadCount rounds (scanNo + 1) state shardIndex result

/-- Where a call goes on: the last shard index and the last file name.  `none` is the index -1. -/
abbrev Cursor (Name : Type) := Option (Nat × Name)

def startState : Cursor Name → StreamSearchState Name × Nat
  | none => (.newShard, 0)
  | some (lastShardIndex, lastFileName) => (.sameIdGreaterName lastFileName, lastShardIndex)

/-- `readDirMaxReadCount`, of which -1 stands for no limit. -/
def pageSize (readDirMaxReadCount : Int) : Nat :=
  (if readDirMaxReadCount = -1 then int32Max else readDirMaxReadCount).toNat

/-- `FalconReadDirHandle`, behind the lookup of the directory.  The shard index grows in all
rounds but two, so these rounds are enough. -/
def falconReadDirHandle (snap : Nat → Snapshot cfg) (readDirMaxReadCount : Int)
    (cursor : Cursor Name) : List (Row Name) × Cursor Name :=
  let maxReadCount := pageSize readDirMaxReadCount
  let (state, shardIndex) := startState cursor
  let (result, shardIndex) :=
    readShards cfg snap maxReadCount (cfg.table.rows.length + 3) 0 state shardIndex []
  if result.length < maxReadCount then (result, none)
  else (result, result.getLast?.map fun r => (shardIndex, r.name))

end Handler

/-! ## 3. Positions -/

section Positions

variable {Name : Type} {cfg : Config Name}

/-- The index of a shard, the key and the name, in that order. -/
abbrev Position (Name : Type) := ℕ ×ₗ ℤ ×ₗ Name

def position (shardIndex : Nat) (key : Int) (name : Name) : Position Name :=
  toLex (shardIndex, toLex (key, name))

variable {a a' i : Nat} {k k' shardId workerId : Int} {n n' last : Name} {r : Row Name}
  {A : Position Name → Prop} {result rows : List (Row Name)} {sizes : Nat → Int}

theorem position_inj (h : position a k n = position a' k' n') : a = a' ∧ k = k' ∧ n = n' := by
  have h' := toLex.injective h
  obtain ⟨ha, hrest⟩ := Prod.mk.inj h'
  obtain ⟨hk, hn⟩ := Prod.mk.inj (toLex.injective hrest)
  exact ⟨ha, hk, hn⟩

theorem exists_position (p : Position Name) : ∃ a k n, p = position a k n :=
  ⟨(ofLex p).1, (ofLex (ofLex p).2).1, (ofLex (ofLex p).2).2, rfl⟩

/-- The range points, which name the shards, in the order of the table. -/
def Config.points (cfg : Config Name) : List Int := cfg.table.rows.map ShardTable.Row.rangePoint

theorem points_nodup (cfg : Config Name) : cfg.points.Nodup :=
  (pairwise_map.mpr (cfg.table.increasing.imp fun h => h.ne))

theorem key_bounds (name : Name) :
    (combineParentIdWithPartId cfg.directoryId 0).toInt ≤ (cfg.key name).toInt ∧
      (cfg.key name).toInt ≤ (combineParentIdWithPartId cfg.directoryId 0x1FFF).toInt := by
  obtain ⟨hkey, -, hlt⟩ := combine_toInt cfg.directoryId (cfg.masked name)
  obtain ⟨hupper, -, -⟩ := combine_toInt cfg.directoryId (p := 0x1FFF) (by decide)
  have hmask : (0x1FFF : BitVec 16).toNat = 8191 := by decide
  unfold Config.key
  omega

theorem points_idxOf (h : cfg.table.rows[i]? = some (shardId, workerId)) :
    cfg.points.idxOf shardId = i := by
  have hget : cfg.points[i]? = some shardId := by
    simp [Config.points, h, ShardTable.Row.rangePoint]
  obtain ⟨hlt, rfl⟩ := List.getElem?_eq_some_iff.mp hget
  exact (points_nodup cfg).idxOf_getElem i hlt

variable [LinearOrder Name]

theorem position_lt :
    position a k n < position a' k' n' ↔ a < a' ∨ (a = a' ∧ (k < k' ∨ (k = k' ∧ n < n'))) := by
  simp [position, Prod.Lex.toLex_lt_toLex]

def Config.position (cfg : Config Name) (r : Row Name) : Position Name :=
  ReadDir.position (cfg.points.idxOf (cfg.shardOf r.parentIdPartId)) r.parentIdPartId.toInt r.name

/-- A row of the shard with index `i` has `i` in its position. -/
theorem position_of_mem {snap : Snapshot cfg} (h : cfg.table.rows[i]? = some (shardId, workerId))
    (hr : r ∈ snap.rows shardId) : cfg.position r = position i r.parentIdPartId.toInt r.name := by
  rw [Config.position, snap.placed shardId r hr, points_idxOf h]

/-- A row of the directory. -/
def Config.Entry (cfg : Config Name) (r : Row Name) : Prop := r.parentIdPartId = cfg.key r.name

/-- **The scan keys pick the rows of the directory and no others.** -/
theorem entry_of_bounds {snap : Snapshot cfg} (hr : r ∈ snap.rows shardId)
    (hlo : (combineParentIdWithPartId cfg.directoryId 0).toInt ≤ r.parentIdPartId.toInt)
    (hhi : r.parentIdPartId.toInt ≤ (combineParentIdWithPartId cfg.directoryId 0x1FFF).toInt) :
    cfg.Entry r := by
  obtain ⟨parentId, hkey⟩ := snap.keyed shardId r hr
  obtain ⟨hown, hdvd, hlt⟩ := combine_toInt cfg.directoryId (cfg.masked r.name)
  obtain ⟨hupper, -, -⟩ := combine_toInt cfg.directoryId (p := 0x1FFF) (by decide)
  obtain ⟨hother, hdvd', -⟩ := combine_toInt parentId (cfg.masked r.name)
  have hmask : (0x1FFF : BitVec 16).toNat = 8191 := by decide
  rw [hkey] at hlo hhi
  apply BitVec.eq_of_toInt_eq
  rw [hkey]
  unfold Config.key
  omega

/-- What is still to be read in a state, as a condition on positions. -/
def front (cfg : Config Name) : StreamSearchState Name → Nat → Position Name → Prop
  | .newShard, i, p => i ≤ (ofLex p).1
  | .sameIdGreaterName last, i, p => position i (cfg.key last).toInt last < p
  | .greaterId last, i, p =>
    i < (ofLex p).1 ∨ (i = (ofLex p).1 ∧ (cfg.key last).toInt < (ofLex (ofLex p).2).1)

theorem front_newShard : front cfg .newShard i (position a k n) ↔ i ≤ a := Iff.rfl

theorem front_sameId : front cfg (.sameIdGreaterName last) i (position a k n) ↔
      i < a ∨ (i = a ∧ ((cfg.key last).toInt < k ∨ ((cfg.key last).toInt = k ∧ last < n))) :=
  position_lt

theorem front_greaterId : front cfg (.greaterId last) i (position a k n) ↔
      i < a ∨ (i = a ∧ (cfg.key last).toInt < k) := Iff.rfl

theorem front_upward (state : StreamSearchState Name) (i : Nat) (p q : Position Name)
    (hp : front cfg state i p) (hpq : p ≤ q) : front cfg state i q := by
  obtain ⟨a, k, n, rfl⟩ := exists_position p
  obtain ⟨a', k', n', rfl⟩ := exists_position q
  have hle : a < a' ∨ (a = a' ∧ (k < k' ∨ (k = k' ∧ n ≤ n'))) := by
    rcases hpq.lt_or_eq with hlt | heq
    · rcases position_lt.mp hlt with h | ⟨h, h' | ⟨h', h''⟩⟩
      · exact .inl h
      · exact .inr ⟨h, Or.inl h'⟩
      · exact .inr ⟨h, Or.inr ⟨h', h''.le⟩⟩
    · obtain ⟨ha, hk, hn⟩ := position_inj heq
      exact .inr ⟨ha, Or.inr ⟨hk, hn.le⟩⟩
  cases state with
  | newShard =>
    rw [front_newShard] at hp ⊢
    omega
  | sameIdGreaterName last => exact lt_of_lt_of_le hp hpq
  | greaterId last =>
    rw [front_greaterId] at hp ⊢
    omega

/-- The shard index with which the loop goes on after a scan. -/
def nextIndex (state : StreamSearchState Name) (i : Nat) : Nat :=
  if nextState state = .newShard then i + 1 else i

@[simp] theorem nextIndex_newShard (i : Nat) :
    nextIndex (.newShard : StreamSearchState Name) i = i + 1 := if_pos rfl

@[simp] theorem nextIndex_sameId (last : Name) (i : Nat) :
    nextIndex (.sameIdGreaterName last) i = i := if_neg (by simp [nextState])

@[simp] theorem nextIndex_greaterId (last : Name) (i : Nat) :
    nextIndex (.greaterId last) i = i + 1 := if_pos rfl

/-- The part of a shard that a state reads. -/
def segment (cfg : Config Name) : StreamSearchState Name → Int → Name → Prop
  | .newShard, _, _ => True
  | .sameIdGreaterName last, k, n => k = (cfg.key last).toInt ∧ last < n
  | .greaterId last, k, _ => (cfg.key last).toInt < k

/-- A position that is in front before a scan of shard `i` and not after it: what the scan must
read. -/
theorem between_iff (state : StreamSearchState Name) : front cfg state i (position a k n) ∧
        ¬front cfg (nextState state) (nextIndex state i) (position a k n) ↔
      a = i ∧ segment cfg state k n := by
  cases state with
  | newShard =>
    simp only [nextState, nextIndex_newShard, front_newShard, segment, and_true]
    omega
  | sameIdGreaterName last =>
    simp only [nextState, nextIndex_sameId, front_sameId, front_greaterId, segment]
    constructor
    · rintro ⟨h | ⟨rfl, h | ⟨h, hn⟩⟩, hnot⟩
      · exact absurd (.inl h) hnot
      · exact absurd (.inr ⟨rfl, h⟩) hnot
      · exact ⟨rfl, h.symm, hn⟩
    · rintro ⟨rfl, rfl, hn⟩
      refine ⟨Or.inr ⟨rfl, Or.inr ⟨rfl, hn⟩⟩, ?_⟩
      rintro (h | ⟨-, h⟩)
      · exact lt_irrefl _ h
      · exact lt_irrefl _ h
  | greaterId last =>
    simp only [nextState, nextIndex_greaterId, front_greaterId, front_newShard, segment]
    omega

theorem front_next (state : StreamSearchState Name) (i : Nat) (p : Position Name)
    (h : front cfg (nextState state) (nextIndex state i) p) : front cfg state i p := by
  obtain ⟨a, k, n, rfl⟩ := exists_position p
  cases state with
  | newShard =>
    simp only [nextState, nextIndex_newShard, front_newShard] at h ⊢
    omega
  | sameIdGreaterName last =>
    simp only [nextState, nextIndex_sameId, front_greaterId, front_sameId] at h ⊢
    rcases h with h | ⟨h, hk⟩
    · exact .inl h
    · exact .inr ⟨h, Or.inl hk⟩
  | greaterId last =>
    simp only [nextState, nextIndex_greaterId, front_newShard, front_greaterId] at h ⊢
    omega

/-! ## 4. One scan -/

section

variable (snap : Nat → Nat → Snapshot cfg)

/-- Rows of the directory that some scan has seen, in a shard of this worker. -/
def Seen (p : Position Name) : Prop :=
  ∃ i shardId page scan r, cfg.table.rows[i]? = some (shardId, cfg.localServerId) ∧
    r ∈ (snap page scan).rows shardId ∧ cfg.Entry r ∧ p = position i r.parentIdPartId.toInt r.name

/-- A name of the directory that is in a shard of this worker in every snapshot. -/
def StableAt (i : Nat) (name : Name) : Prop :=
  ∃ shardId, cfg.table.rows[i]? = some (shardId, cfg.localServerId) ∧
    ∀ page scan, ∃ r ∈ (snap page scan).rows shardId, cfg.Entry r ∧ r.name = name

def Stable (p : Position Name) : Prop :=
  ∃ i name, StableAt snap i name ∧ p = position i (cfg.key name).toInt name

end

theorem scanKey_iff {snap : Snapshot cfg} (hr : r ∈ snap.rows shardId)
    (state : StreamSearchState Name) :
    scanKey cfg state r = true ↔ cfg.Entry r ∧ segment cfg state r.parentIdPartId.toInt r.name := by
  have hbounds : cfg.Entry r →
      (combineParentIdWithPartId cfg.directoryId 0).toInt ≤ r.parentIdPartId.toInt ∧
        r.parentIdPartId.toInt ≤ (combineParentIdWithPartId cfg.directoryId 0x1FFF).toInt := by
    intro he
    rw [show r.parentIdPartId = cfg.key r.name from he]
    exact key_bounds r.name
  cases state with
  | newShard =>
    simp only [scanKey, segment, Bool.and_eq_true, decide_eq_true_eq, and_true]
    exact ⟨fun h => entry_of_bounds hr h.1 h.2, hbounds⟩
  | sameIdGreaterName last =>
    simp only [scanKey, segment, Bool.and_eq_true, beq_iff_eq, decide_eq_true_eq]
    constructor
    · rintro ⟨hkey, hname⟩
      have hlast := @key_bounds _ cfg last
      rw [← hkey] at hlast
      exact ⟨entry_of_bounds hr hlast.1 hlast.2, congrArg _ hkey, hname⟩
    · rintro ⟨-, hkey, hname⟩
      exact ⟨BitVec.eq_of_toInt_eq hkey, hname⟩
  | greaterId last =>
    simp only [scanKey, segment, Bool.and_eq_true, decide_eq_true_eq]
    constructor
    · rintro ⟨hgt, hhi⟩
      have hlast := @key_bounds _ cfg last
      exact ⟨entry_of_bounds hr (by omega) hhi, hgt⟩
    · rintro ⟨he, hgt⟩
      exact ⟨hgt, (hbounds he).2⟩

/-- **A scan reads its segment**: everything between the fronts before and after it. -/
theorem covers_scan {snap : Nat → Nat → Snapshot cfg}
    (hi : cfg.table.rows[i]? = some (shardId, cfg.localServerId)) (state : StreamSearchState Name)
    (page scan : Nat) :
    Covers (Seen snap) (Stable snap) (front cfg state i)
      (front cfg (nextState state) (nextIndex state i))
      ((((snap page scan).rows shardId).filter (scanKey cfg state)).map cfg.position) := by
  have hpos : ∀ r ∈ (snap page scan).rows shardId,
      cfg.position r = position i r.parentIdPartId.toInt r.name := fun r hr => position_of_mem hi hr
  refine ⟨?_, ?_, ?_, front_next state i, front_upward _ _⟩
  · refine pairwise_map.mpr ?_
    have hordered := ((snap page scan).ordered shardId).filter (scanKey cfg state)
    refine hordered.imp_of_mem fun {r r'} hr hr' hlt => ?_
    rw [hpos r (mem_filter.mp hr).1, hpos r' (mem_filter.mp hr').1, position_lt]
    refine .inr ⟨rfl, ?_⟩
    rcases hlt with hkey | ⟨hkey, hname⟩
    · exact .inl hkey
    · exact .inr ⟨congrArg _ hkey, hname⟩
  · intro p hp
    obtain ⟨r, hr, rfl⟩ := mem_map.mp hp
    obtain ⟨hmem, hscan⟩ := mem_filter.mp hr
    obtain ⟨hentry, hseg⟩ := (scanKey_iff hmem state).mp hscan
    rw [hpos r hmem]
    obtain ⟨hfront, hnext⟩ := (between_iff state).mpr ⟨rfl, hseg⟩
    exact ⟨hfront, hnext, i, shardId, page, scan, r, hi, hmem, hentry, rfl⟩
  · rintro p ⟨i', name, ⟨shardId', hi', hall⟩, rfl⟩ hfront hnext
    obtain ⟨rfl, hseg⟩ := (between_iff state).mp ⟨hfront, hnext⟩
    obtain ⟨rfl, -⟩ := Prod.mk.inj (Option.some.inj (hi'.symm.trans hi))
    obtain ⟨r, hr, hentry, rfl⟩ := hall page scan
    have hkey : r.parentIdPartId = cfg.key r.name := hentry
    rw [← hkey] at hseg ⊢
    refine mem_map.mpr ⟨r, mem_filter.mpr ⟨hr, ?_⟩, hpos r hr⟩
    exact (scanKey_iff hr state).mpr ⟨hentry, hseg⟩

/-- A shard of another worker has nothing that could be missed. -/
theorem covers_skip {snap : Nat → Nat → Snapshot cfg}
    (hi : cfg.table.rows[i]? = some (shardId, workerId)) (hw : workerId ≠ cfg.localServerId) :
    Covers (Seen snap) (Stable snap) (front cfg .newShard i) (front cfg .newShard (i + 1)) [] := by
  refine ⟨List.Pairwise.nil, fun p hp => (nomatch hp), ?_, ?_, front_upward _ _⟩
  · rintro p ⟨i', name, ⟨shardId', hi', -⟩, rfl⟩ hfront hnext
    rw [front_newShard] at hfront hnext
    obtain rfl : i' = i := by omega
    obtain ⟨-, hworker⟩ := Prod.mk.inj (Option.some.inj (hi.symm.trans hi'))
    exact absurd hworker hw
  · intro p hp
    obtain ⟨a, k, n, rfl⟩ := exists_position p
    rw [front_newShard] at hp ⊢
    omega

/-! ## 5. One call -/

/-- How many more rounds a state takes in its shard. -/
def roundsLeft : StreamSearchState Name → Nat
  | .newShard => 0
  | .greaterId _ => 1
  | .sameIdGreaterName _ => 2

variable (snap : Nat → Nat → Snapshot cfg)

/-- What a call has returned, from the front it started at: everything, or a full page whose last
row is where the next call goes on. -/
def PageOk (A : Position Name → Prop) (maxReadCount : Nat)
    (result : List (Row Name)) (shardIndex : Nat) : Prop :=
  (result.length < maxReadCount ∧ Covers (Seen snap) (Stable snap) A
      (front cfg .newShard cfg.table.rows.length) (result.map cfg.position)) ∨
    (result.length = maxReadCount ∧ ∃ r shardId, result.getLast? = some r ∧ cfg.Entry r ∧
      cfg.table.rows[shardIndex]? = some (shardId, cfg.localServerId) ∧
      Covers (Seen snap) (Stable snap) A (front cfg (.sameIdGreaterName r.name) shardIndex)
        (result.map cfg.position))

/-- A page that a scan has filled. -/
theorem pageOk_full {snap : Nat → Nat → Snapshot cfg} (hA : ∀ p q, A p → p ≤ q → A q)
    {m page scan : Nat} (hi : cfg.table.rows[i]? = some (shardId, cfg.localServerId))
    {state : StreamSearchState Name}
    (hrows : rows = ((snap page scan).rows shardId).filter (scanKey cfg state))
    (h : Covers (Seen snap) (Stable snap) A (front cfg state i) (result.map cfg.position))
    (hlt : result.length < m) (hfull : m ≤ (result ++ rows.take (m - result.length)).length) :
    PageOk snap A m (result ++ rows.take (m - result.length)) i := by
  have hall := h.append (covers_scan hi state page scan)
  rw [← hrows, ← map_append] at hall
  rw [length_append, length_take] at hfull
  obtain ⟨init, r, htake⟩ : ∃ init r, rows.take (m - result.length) = init ++ [r] := by
    refine ⟨_, _, (dropLast_append_getLast (l := rows.take (m - result.length)) ?_).symm⟩
    intro hnil
    have := congrArg length hnil
    rw [length_take, length_nil] at this
    omega
  have hsplit : rows = init ++ r :: rows.drop (m - result.length) := by
    conv_lhs => rw [← take_append_drop (m - result.length) rows, htake]
    simp
  have hmem : r ∈ rows := by
    rw [hsplit]
    simp
  obtain ⟨hr, hscan⟩ := mem_filter.mp (hrows ▸ hmem)
  have hentry := ((scanKey_iff hr state).mp hscan).1
  have hcut := hall.cut hA ((result ++ init).map cfg.position) (cfg.position r)
    ((rows.drop (m - result.length)).map cfg.position) (by
      conv_lhs => rw [hsplit]
      simp)
  refine .inr ⟨?_, r, shardId, ?_, hentry, hi, ?_⟩
  · rw [length_append, length_take]
    omega
  · rw [htake, ← append_assoc, getLast?_concat]
  · rw [position_of_mem hi hr, show r.parentIdPartId = cfg.key r.name from hentry] at hcut
    have hposr : cfg.position r = position i (cfg.key r.name).toInt r.name := by
      rw [position_of_mem hi hr, show r.parentIdPartId = cfg.key r.name from hentry]
    rw [htake, ← append_assoc, map_append, map_singleton, hposr]
    exact hcut

/-- **The loop over the shards.**  The induction is on the rounds that are left. -/
theorem readShards_ok (hA : ∀ p q, A p → p ≤ q → A q) (page m : Nat) :
    ∀ (rounds scan : Nat) (state : StreamSearchState Name) (i : Nat) (result : List (Row Name)),
      cfg.table.rows.length - i + roundsLeft state < rounds → i ≤ cfg.table.rows.length →
      (state ≠ .newShard → ∃ shardId, cfg.table.rows[i]? = some (shardId, cfg.localServerId)) →
      Covers (Seen snap) (Stable snap) A (front cfg state i) (result.map cfg.position) →
      result.length < m →
      PageOk snap A m (readShards cfg (snap page) m rounds scan state i result).1
        (readShards cfg (snap page) m rounds scan state i result).2 := by
  intro rounds
  induction rounds with
  | zero =>
    intro scan state i result hrounds
    omega
  | succ rounds ih =>
    intro scan state i result hrounds hile hlocal h hlt
    unfold readShards
    cases hi : cfg.table.rows[i]? with
    | none =>
      have hend := List.getElem?_eq_none_iff.mp hi
      obtain rfl : i = cfg.table.rows.length := by omega
      have hstate : state = .newShard := by
        by_contra hne
        obtain ⟨shardId, hsome⟩ := hlocal hne
        rw [hi] at hsome
        cases hsome
      subst hstate
      exact .inl ⟨hlt, h⟩
    | some row =>
      obtain ⟨shardId, workerId⟩ := row
      obtain ⟨hilt, -⟩ := List.getElem?_eq_some_iff.mp hi
      dsimp only
      split
      · rename_i hw
        have hstate : state = .newShard := by
          by_contra hne
          obtain ⟨shardId', hsome⟩ := hlocal hne
          rw [hi] at hsome
          exact hw (Prod.mk.inj (Option.some.inj hsome)).2
        subst hstate
        have hskip := h.append (covers_skip hi hw)
        rw [List.append_nil] at hskip
        simp only [roundsLeft] at hrounds
        exact ih scan .newShard (i + 1) result (by simp only [roundsLeft]; omega) (by omega)
          (fun hne => absurd rfl hne) hskip hlt
      · rename_i hw
        obtain rfl : workerId = cfg.localServerId := not_not.mp hw
        generalize hrows : ((snap page scan).rows shardId).filter (scanKey cfg state) = rows
        split
        · rename_i hfull
          exact pageOk_full hA hi hrows.symm h hlt hfull
        · rename_i hfull
          -- the scan did not fill the page, so nothing of it was cut off
          have htake : rows.take (m - result.length) = rows := by
            apply List.take_of_length_le
            rw [List.length_append, List.length_take] at hfull
            omega
          have hnext := h.append (covers_scan hi state page scan)
          rw [hrows, ← List.map_append] at hnext
          rw [htake] at hfull ⊢
          have hlt' : (result ++ rows).length < m := by omega
          cases state with
          | newShard =>
            rw [nextIndex_newShard] at hnext
            simp only [roundsLeft] at hrounds
            exact ih _ _ (i + 1) _ (by simp only [nextState, roundsLeft]; omega) (by omega)
              (fun hne => absurd rfl hne) hnext hlt'
          | sameIdGreaterName last =>
            rw [nextIndex_sameId] at hnext
            simp only [roundsLeft] at hrounds
            simp only [nextState, reduceCtorEq, if_false]
            exact ih _ _ i _ (by simp only [roundsLeft]; omega) hile (fun _ => ⟨shardId, hi⟩) hnext
              hlt'
          | greaterId last =>
            rw [nextIndex_greaterId] at hnext
            simp only [roundsLeft] at hrounds
            exact ih _ _ (i + 1) _ (by simp only [nextState, roundsLeft]; omega) (by omega)
              (fun hne => absurd rfl hne) hnext hlt'

/-- What is left to read at a cursor; a call that is not the first has a cursor in a shard of this
worker. -/
def CursorOk (cfg : Config Name) : Cursor Name → Prop
  | none => True
  | some (i, _) => ∃ shardId, cfg.table.rows[i]? = some (shardId, cfg.localServerId)

def ahead (cfg : Config Name) (cursor : Cursor Name) : Position Name → Prop :=
  front cfg (startState cursor).1 (startState cursor).2

/-- **One call**: the page it returns continues from its cursor, and it ends the listing or gives
the cursor to go on with. -/
theorem falconReadDirHandle_ok (page : Nat)
    {readDirMaxReadCount : Int} (hsize : 1 ≤ readDirMaxReadCount) {cursor : Cursor Name}
    (hc : CursorOk cfg cursor) {cursor' : Cursor Name}
    (h : falconReadDirHandle cfg (snap page) readDirMaxReadCount cursor = (result, cursor')) :
    (cursor' = none ∧ Covers (Seen snap) (Stable snap) (ahead cfg cursor)
        (front cfg .newShard cfg.table.rows.length) (result.map cfg.position)) ∨
      (cursor' ≠ none ∧ 1 ≤ result.length ∧ CursorOk cfg cursor' ∧
        Covers (Seen snap) (Stable snap) (ahead cfg cursor) (ahead cfg cursor')
          (result.map cfg.position)) := by
  have hpos : 0 < pageSize readDirMaxReadCount := by
    unfold pageSize
    rw [if_neg (by omega)]
    omega
  have hindex : (startState cursor).2 ≤ cfg.table.rows.length := by
    cases cursor with
    | none => exact Nat.zero_le _
    | some c =>
      obtain ⟨shardId, hi⟩ := hc
      exact (List.getElem?_eq_some_iff.mp hi).1.le
  have hlocal : (startState cursor).1 ≠ .newShard →
      ∃ shardId, cfg.table.rows[(startState cursor).2]? = some (shardId, cfg.localServerId) := by
    cases cursor with
    | none => exact fun hne => absurd rfl hne
    | some c => exact fun _ => hc
  have hrounds : cfg.table.rows.length - (startState cursor).2 + roundsLeft (startState cursor).1 <
      cfg.table.rows.length + 3 := by
    cases cursor with
    | none => simp only [startState, roundsLeft]; omega
    | some c => simp only [startState, roundsLeft]; omega
  have hpage := readShards_ok snap (front_upward _ _) page (pageSize readDirMaxReadCount)
    (cfg.table.rows.length + 3) 0 (startState cursor).1 (startState cursor).2 [] hrounds hindex
    hlocal (Covers.nil (front_upward _ _)) hpos
  unfold falconReadDirHandle at h
  dsimp only at h
  rcases hpage with ⟨hlt, hcovers⟩ | ⟨hfull, r, shardId, hlast, -, hi, hcovers⟩
  · rw [if_pos hlt] at h
    obtain ⟨rfl, rfl⟩ := Prod.mk.inj h
    exact .inl ⟨rfl, hcovers⟩
  · rw [if_neg (by omega), hlast] at h
    obtain ⟨rfl, rfl⟩ := Prod.mk.inj h
    exact .inr ⟨Option.some_ne_none _, by omega, ⟨shardId, hi⟩, hcovers⟩

/-! ## 6. The whole listing -/

inductive Progress (Name : Type) where
  | going (cursor : Cursor Name)
  | finished
  deriving DecidableEq, Repr

/-- The first `n` calls: what they have returned, and where the listing stands.  Call `page` asks
for `sizes page` entries. -/
def pages (cfg : Config Name) (snap : Nat → Nat → Snapshot cfg) (sizes : Nat → Int) :
    Nat → List (Row Name) × Progress Name
  | 0 => ([], .going none)
  | n + 1 =>
    match pages cfg snap sizes n with
    | (rows, .finished) => (rows, .finished)
    | (rows, .going cursor) =>
      match falconReadDirHandle cfg (snap n) (sizes n) cursor with
      | (result, none) => (rows ++ result, .finished)
      | (result, some cursor') => (rows ++ result, .going (some cursor'))

/-- What the first calls have covered, and that each of them that was not the last has returned
something. -/
def ListingOk (n : Nat) (rows : List (Row Name)) : Progress Name → Prop
  | .going cursor => CursorOk cfg cursor ∧ n ≤ rows.length ∧
      Covers (Seen snap) (Stable snap) (front cfg .newShard 0) (ahead cfg cursor)
        (rows.map cfg.position)
  | .finished => Covers (Seen snap) (Stable snap) (front cfg .newShard 0)
      (front cfg .newShard cfg.table.rows.length) (rows.map cfg.position)

theorem pages_ok (hsizes : ∀ n, 1 ≤ sizes n) (n : Nat) :
    ListingOk snap n (pages cfg snap sizes n).1 (pages cfg snap sizes n).2 := by
  induction n with
  | zero => exact ⟨trivial, le_refl 0, Covers.nil (front_upward _ _)⟩
  | succ n ih =>
    unfold pages
    rcases hp : pages cfg snap sizes n with ⟨rows, cursor | _⟩
    · rw [hp] at ih
      obtain ⟨hc, hlen, hcovers⟩ := ih
      dsimp only
      rcases hcall : falconReadDirHandle cfg (snap n) (sizes n) cursor with ⟨result, cursor'⟩
      rcases falconReadDirHandle_ok snap n (hsizes n) hc hcall with
        ⟨rfl, hlast⟩ | ⟨hne, hpos, hc', hnext⟩
      · have hall := hcovers.append hlast
        rw [← map_append] at hall
        exact hall
      · obtain ⟨c', rfl⟩ := Option.ne_none_iff_exists'.mp hne
        have hall := hcovers.append hnext
        rw [← map_append] at hall
        refine ⟨hc', ?_, hall⟩
        dsimp only at hlen ⊢
        rw [length_append]
        omega
    · rw [hp] at ih
      exact ih

/-- Two rows of the directory with one name are at one position, so a listing that is strictly
increasing has no name twice. -/
theorem names_nodup {snap : Nat → Nat → Snapshot cfg} {F : Position Name → Prop}
    (h : Covers (Seen snap) (Stable snap) A F (rows.map cfg.position)) :
    (rows.map Row.name).Nodup := by
  have hentry : ∀ r ∈ rows, cfg.Entry r := by
    intro r hr
    obtain ⟨-, -, i, shardId, page, scan, r', hi, hmem, hentry', hpos⟩ :=
      h.mem (cfg.position r) (mem_map_of_mem hr)
    obtain ⟨-, hkey, hname⟩ := position_inj hpos
    unfold Config.Entry
    rw [BitVec.eq_of_toInt_eq hkey, hname]
    exact hentry'
  have hsorted := pairwise_map.mp h.sorted
  refine pairwise_map.mpr (hsorted.imp_of_mem fun {r r'} hr hr' hlt heq => ?_)
  have hkey : r.parentIdPartId = r'.parentIdPartId := by
    rw [show r.parentIdPartId = cfg.key r.name from hentry r hr,
      show r'.parentIdPartId = cfg.key r'.name from hentry r' hr', heq]
  have hsame : cfg.position r = cfg.position r' := by
    unfold Config.position
    rw [hkey, heq]
  exact absurd hsame hlt.ne

/-- Every row a later scan sees was there, under its name, in every earlier one. -/
def NoInserts : Prop :=
  ∀ page scan page' scan', page < page' ∨ (page = page' ∧ scan ≤ scan') →
    ∀ shardId, ∀ r ∈ (snap page' scan').rows shardId, ∃ r' ∈ (snap page scan).rows shardId,
      r'.parentIdPartId = r.parentIdPartId ∧ r'.name = r.name

/-- The positions that the first snapshot has. -/
def firstPositions : List (Position Name) :=
  cfg.points.flatMap fun shardId => ((snap 0 0).rows shardId).map cfg.position

theorem seen_first {snap : Nat → Nat → Snapshot cfg} (hno : NoInserts snap) {p : Position Name}
    (hp : Seen snap p) : p ∈ firstPositions snap := by
  obtain ⟨i, shardId, page, scan, r, hi, hr, -, rfl⟩ := hp
  have hle : 0 < page ∨ (0 = page ∧ 0 ≤ scan) := by omega
  obtain ⟨r', hr', hkey, hname⟩ := hno 0 0 page scan hle shardId r hr
  refine mem_flatMap.mpr ⟨shardId, ?_, mem_map.mpr ⟨r', hr', ?_⟩⟩
  · have hmem := mem_map_of_mem (f := ShardTable.Row.rangePoint) (mem_of_getElem? hi)
    exact hmem
  · rw [position_of_mem hi hr', hkey, hname]

/-- **Without inserts the listing ends**: each call that is not the last returns a position that no
other has, and there are only those of the first snapshot. -/
theorem pages_finish {snap : Nat → Nat → Snapshot cfg} (hsizes : ∀ n, 1 ≤ sizes n)
    (hno : NoInserts snap) : ∃ n rows, pages cfg snap sizes n = (rows, .finished) := by
  have hok := pages_ok snap hsizes ((firstPositions snap).length + 1)
  rcases hp : pages cfg snap sizes ((firstPositions snap).length + 1) with ⟨rows, cursor | _⟩
  · exfalso
    rw [hp] at hok
    obtain ⟨-, hlen, hcovers⟩ := hok
    have hnodup : (rows.map cfg.position).Nodup := hcovers.sorted.imp fun h => h.ne
    have hsub : rows.map cfg.position ⊆ firstPositions snap := fun p hmem =>
      seen_first hno (hcovers.mem p hmem).2.2
    have hle := (subperm_of_subset hnodup hsub).length_le
    rw [length_map] at hle
    dsimp only at hlen
    omega
  · exact ⟨_, rows, hp⟩

/-- **Directory paging.**  However the entries change between the scans, no name is returned twice;
when the listing ends, every name that was there all the time has been returned exactly once; and if
nothing is inserted meanwhile, it does end. -/
theorem readdir_paging (cfg : Config Name) (snap : Nat → Nat → Snapshot cfg) (sizes : Nat → Int)
    (hsizes : ∀ n, 1 ≤ sizes n) :
    (∀ n, ((pages cfg snap sizes n).1.map Row.name).Nodup) ∧
    (∀ n rows, pages cfg snap sizes n = (rows, .finished) → ∀ i name, StableAt snap i name →
      (rows.map Row.name).count name = 1) ∧
    (NoInserts snap → ∃ n rows, pages cfg snap sizes n = (rows, .finished)) := by
  have hnodup : ∀ n, ((pages cfg snap sizes n).1.map Row.name).Nodup := by
    intro n
    have hok := pages_ok snap hsizes n
    rcases hp : pages cfg snap sizes n with ⟨rows, cursor | _⟩
    · rw [hp] at hok
      exact names_nodup hok.2.2
    · rw [hp] at hok
      exact names_nodup hok
  refine ⟨hnodup, ?_, pages_finish hsizes⟩
  intro n rows hp i name hstable
  have hok := pages_ok snap hsizes n
  have hn := hnodup n
  rw [hp] at hok hn
  obtain ⟨shardId, hi, hall⟩ := hstable
  have hilt := (List.getElem?_eq_some_iff.mp hi).1
  have hmem :=
    hok.complete (position i (cfg.key name).toInt name) ⟨i, name, ⟨shardId, hi, hall⟩, rfl⟩
    (Nat.zero_le i) (by rw [front_newShard]; omega)
  obtain ⟨r, hr, hpos⟩ := List.mem_map.mp hmem
  have hname := (position_inj hpos).2.2
  exact List.count_eq_one_of_mem hn (List.mem_map.mpr ⟨r, hr, hname⟩)

end Positions

/-- Two shards, of the servers 1 and 2; names are numbers and their own part ids. -/
def twoShards (localServerId : Int) : Config Nat where
  table := ⟨[(3, 1), (int32Max, 2)], List.pairwise_pair.mpr (by decide), 2, rfl⟩
  hashBytesUint32 := id
  localServerId := localServerId
  directoryId := 7
  hashPartId n := BitVec.ofNat 16 n &&& 0x1FFF
  masked n := by rw [BitVec.and_assoc, BitVec.and_self]

def rowOf (cfg : Config Nat) (name : Nat) : Row Nat := ⟨cfg.key name, name, 0⟩

/-- A directory with these entries. -/
def snapshotOf (cfg : Config Nat) (names : List Nat)
    (h : (names.map (rowOf cfg)).Pairwise IndexLt) : Snapshot cfg where
  rows shardId := (names.map (rowOf cfg)).filter fun r => cfg.shardOf r.parentIdPartId = shardId
  ordered _ := h.filter _
  keyed _ r hr := by
    obtain ⟨name, -, rfl⟩ := mem_map.mp (mem_of_mem_filter hr)
    exact ⟨cfg.directoryId, rfl⟩
  placed _ r hr := by simpa using (mem_filter.mp hr).2

/-- After the first page, 4 is unlinked and 6 is created. -/
def changing (page _ : Nat) : Snapshot (twoShards 2) :=
  if page = 0 then snapshotOf _ [1, 4, 5, 8] (by decide) else snapshotOf _ [1, 5, 6, 8] (by decide)

/-- Pages of two entries: the third is empty and ends the listing. -/
theorem readdir_paging_changing :
    ∃ rows, pages (twoShards 2) changing (fun _ => 2) 3 = (rows, .finished) ∧
      rows.map Row.name = [4, 5, 6, 8] ∧ (rows.map Row.name).count 8 = 1 := by
  have hpages : pages (twoShards 2) changing (fun _ => 2) 3 =
      ([4, 5, 6, 8].map (rowOf (twoShards 2)), .finished) := by
    decide
  have hstable : StableAt changing 1 8 := by
    refine ⟨int32Max, rfl, fun page _ => ⟨rowOf _ 8, ?_, rfl, rfl⟩⟩
    unfold changing
    split <;> decide
  exact ⟨_, hpages, rfl, (readdir_paging (twoShards 2) changing (fun _ => 2)
    fun _ => by decide).2.1 3 _ hpages 1 8 hstable⟩

end FalconFS.ReadDir
