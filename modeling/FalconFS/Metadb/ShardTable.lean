/-
# The shard table of the server

A shard table lists range points in increasing order; the shard of a hash value is the first one
whose point is not below it.  The hash is taken of the part id alone, which
`CombineParentIdWithPartId` puts into the low 13 bits of the shard column, so the parent id does
not matter (`hashShard_combine`).  `falcon_renew_shard_table` is what the server reports to
clients.
-/
import Mathlib.Algebra.Group.Int.Defs
import Mathlib.Algebra.Group.Nat.Defs
import Mathlib.Data.Int.Order.Basic
import FalconFS.Lib.OrderedMap

namespace FalconFS.ShardTable

open OrderedMap BitVec

/-! ## 1. Part ids and hash values -/

abbrev Byte := BitVec 8

def int32Max : Int := 2 ^ 31 - 1

def int32Min : Int := -2 ^ 31

def fileNameLength : Nat := 256

def partIdMask : BitVec 64 := 0x1FFF

def partIdBitCount : Nat := 13

/-- A `char` in an arithmetic expression, on a machine where it is signed or not. -/
def charValue (signedChar : Bool) (c : Byte) : BitVec 16 :=
  if signedChar then c.signExtend 16 else c.zeroExtend 16

/-- `strnlen`: the bytes before the first NUL, but no more than `maxLen`. -/
def strnlen (str : List Byte) (maxLen : Nat) : Nat :=
  ((str.take maxLen).takeWhile fun c => c != 0).length

/-- One turn of the loop of `HashPartId`; `hashValue` is a `uint16_t`. -/
def mixChar (signedChar : Bool) (hashValue : BitVec 16) (c : Byte) : BitVec 16 :=
  hashValue * 31 + charValue signedChar c

/-- `HashPartId` of the server, given the memory from the first byte of the name on. -/
def hashPartId (signedChar : Bool) (fileName : List Byte) : BitVec 16 :=
  (fileName.take (strnlen fileName fileNameLength)).foldl (mixChar signedChar) 0 &&& 0x1FFF

def combineParentIdWithPartId (parentId : BitVec 64) (partId : BitVec 16) : BitVec 64 :=
  (parentId <<< partIdBitCount) ||| partId.zeroExtend 64

/-- No bit of an id below `2 ^ 51` is shifted out. -/
theorem combineParentIdWithPartId_ne_zero {parentId : Nat} (hne : parentId ≠ 0)
    (hlt : parentId < 2 ^ 51) (partId : BitVec 16) :
    combineParentIdWithPartId (BitVec.ofNat 64 parentId) partId ≠ 0 := by
  intro h
  have hshift := congrArg BitVec.toNat (BitVec.or_eq_zero_iff.mp h).1
  simp only [partIdBitCount, toNat_shiftLeft, toNat_ofNat, Nat.shiftLeft_eq] at hshift
  omega

/-- The hash of a 64-bit value, as both sides compute it around `hash_bytes_uint32`. -/
def hashInt64 (hashBytesUint32 : BitVec 32 → BitVec 32) (val : BitVec 64) : Int :=
  let lohalf := val.truncate 32
  let hihalf := (val.sshiftRight 32).truncate 32
  let lohalf := lohalf ^^^ (if 0 ≤ val.toInt then hihalf else ~~~hihalf)
  (hashBytesUint32 lohalf &&& ~~~(1#32 <<< 31)).toInt

def hashShard (hashBytesUint32 : BitVec 32 → BitVec 32) (parentIdPartId : BitVec 64) : Int :=
  hashInt64 hashBytesUint32 (parentIdPartId &&& partIdMask)

theorem mask64_bit : ∀ i < 64, partIdMask.getLsbD i = decide (i < 13) := by decide

theorem mask16_bit : ∀ i < 64, (0x1FFF : BitVec 16).getLsbD i = decide (i < 13) := by decide

/-- **The parent id does not matter**: the mask leaves exactly the part id. -/
theorem hashShard_combine (hash : BitVec 32 → BitVec 32) (parentId : BitVec 64) (partId : BitVec 16)
    (hpart : partId &&& 0x1FFF = partId) :
    hashShard hash (combineParentIdWithPartId parentId partId) =
      hashInt64 hash (partId.zeroExtend 64) := by
  unfold hashShard
  congr 1
  apply eq_of_getLsbD_eq
  intro i hi
  have hbit := congrArg (fun v => v.getLsbD i) hpart
  simp only [getLsbD_and, mask16_bit i hi] at hbit
  simp only [combineParentIdWithPartId, partIdBitCount, getLsbD_and, getLsbD_or,
    getLsbD_shiftLeft, mask64_bit i hi, getLsbD_setWidth, hi, decide_true,
    Bool.true_and]
  by_cases h13 : i < 13
  · simp [h13]
  · simp only [h13, decide_false, Bool.and_false] at hbit ⊢
    exact hbit

theorem hashPartId_mask (signedChar : Bool) (fileName : List Byte) :
    hashPartId signedChar fileName &&& 0x1FFF = hashPartId signedChar fileName := by
  unfold hashPartId
  rw [BitVec.and_assoc, BitVec.and_self]

theorem clear_sign (v : BitVec 32) : (v &&& ~~~(1#32 <<< 31)).msb = false := by
  rw [msb_and, show (~~~(1#32 <<< 31)).msb = false by decide, Bool.and_false]

/-- **Hash values are not negative**, so only the range points from 0 on matter. -/
theorem hashInt64_range (hash : BitVec 32 → BitVec 32) (val : BitVec 64) :
    0 ≤ hashInt64 hash val ∧ hashInt64 hash val ≤ int32Max := by
  unfold hashInt64
  dsimp only
  generalize hash _ = v
  have hmsb := clear_sign v
  have hlt := msb_eq_false_iff_two_mul_lt.mp hmsb
  rw [toInt_eq_toNat_of_msb hmsb]
  unfold int32Max
  omega

/-! ## 2. The table -/

/-- A row of `falcon_shard_table`, as the pair that the search is made over. -/
abbrev Row := Int × Int

namespace Row

def rangePoint (r : Row) : Int := r.1

def serverId (r : Row) : Int := r.2

end Row

/-- A well-formed table: the range points are strictly increasing, and the last one is
`INT32_MAX`. -/
structure Table where
  rows : List Row
  increasing : Sorted rows
  last : ∃ serverId, rows.getLast? = some (int32Max, serverId)

/-- The comparison of the binary search; an index behind the table is never looked at. -/
def below (rows : List Row) (hashValue : Int) (i : Nat) : Bool :=
  match rows[i]? with
  | some r => decide (r.rangePoint < hashValue)
  | none => false

/-- `SearchShardInfoByHashValue`, on the rows of the cache: the range point and the server id. -/
def searchShardInfoByHashValue (rows : List Row) (hashValue : Int) : Except String (Int × Int) :=
  let l := bisect (below rows hashValue) rows.length 0 rows.length
  match rows[l]? with
  | some r => .ok (r.rangePoint, r.serverId)
  | none =>
    let maxSupport := (rows.getLast?.map Row.rangePoint).getD 0
    .error s!"shard value {hashValue} out of range, max support {maxSupport}"

def searchShardInfoByShardValue (hashBytesUint32 : BitVec 32 → BitVec 32) (rows : List Row)
    (shardColValue : BitVec 64) : Except String (Int × Int) :=
  searchShardInfoByHashValue rows (hashShard hashBytesUint32 shardColValue)

theorem below_mono {rows : List Row} (hs : Sorted rows) (hashValue : Int) (i j : Nat) (hij : i ≤ j)
    (hj : below rows hashValue j = true) : below rows hashValue i = true := by
  unfold below at hj ⊢
  cases hrj : rows[j]? with
  | none => simp [hrj] at hj
  | some r =>
    simp only [hrj, decide_eq_true_eq] at hj
    obtain ⟨hlt, hrj'⟩ := List.getElem?_eq_some_iff.mp hrj
    have hi : i < rows.length := by omega
    rw [List.getElem?_eq_getElem hi]
    simp only [decide_eq_true_eq]
    rcases Nat.lt_or_eq_of_le hij with hne | rfl
    · have hlt' := List.pairwise_iff_getElem.mp hs i j hi hlt hne
      rw [hrj'] at hlt'
      exact lt_trans hlt' hj
    · rw [hrj']
      exact hj

/-- **The binary search finds the least range point** that is not below the hash value, for every
hash value of an `int32`. -/
theorem search_isLeast (t : Table) {hashValue : Int} (h : hashValue ≤ int32Max) :
    ∃ r : Row, searchShardInfoByHashValue t.rows hashValue = .ok (r.rangePoint, r.serverId) ∧
      IsLeast t.rows hashValue r := by
  have hend : ∀ i, t.rows.length ≤ i → below t.rows hashValue i = false := by
    intro i hi
    simp [below, List.getElem?_eq_none hi]
  obtain ⟨hfirst, hat, hle⟩ := bisect_spec (below_mono t.increasing hashValue) t.rows.length 0
    t.rows.length (Nat.zero_le _) (by omega) (fun i hi => absurd hi (Nat.not_lt_zero i)) hend
  unfold searchShardInfoByHashValue
  generalize bisect (below t.rows hashValue) t.rows.length 0 t.rows.length = l at hfirst hat hle
  obtain ⟨serverId, hlast⟩ := t.last
  have hpos : t.rows.length - 1 < t.rows.length := by
    cases hr : t.rows with
    | nil => simp [hr] at hlast
    | cons a rows => simp
  -- the search stops before the end, since the last point is not below any hash value
  have hl : l < t.rows.length := by
    by_contra hge
    have hlow := hfirst (t.rows.length - 1) (by omega)
    rw [List.getLast?_eq_getElem?] at hlast
    simp only [below, hlast] at hlow
    exact absurd (of_decide_eq_true hlow) (not_lt.mpr h)
  have hget := List.getElem?_eq_getElem hl
  refine ⟨t.rows[l], by simp only [hget], List.getElem_mem hl, ?_, ?_⟩
  · simp only [below, hget, decide_eq_false_iff_not, not_lt] at hat
    exact hat
  · intro r hr hge
    obtain ⟨j, hj, rfl⟩ := List.getElem_of_mem hr
    by_contra hlt
    have hjl : j < l := by
      by_contra hge'
      rcases Nat.lt_or_eq_of_le (Nat.le_of_not_lt hge') with hne | rfl
      · exact hlt (List.pairwise_iff_getElem.mp t.increasing l j hl hj hne).le
      · exact hlt (le_refl _)
    have hbelow := hfirst j hjl
    simp only [below, List.getElem?_eq_getElem hj] at hbelow
    exact absurd hge (not_le.mpr (of_decide_eq_true hbelow))

/-! ## 3. What the server reports -/

/-- A row of the answer of `falcon_renew_shard_table`. -/
structure Reported where
  rangeMin : Int
  rangeMax : Int
  host : String
  port : Int
  serverId : Int
  deriving DecidableEq, Repr

def shardTableRangeMin : Int := 0

/-- The loop of `falcon_renew_shard_table`; `connectionInfo` is the answer of
`GetForeignServerConnectionInfo` for a server id. -/
def reportFrom (connectionInfo : Int → String × Int) (rangeLow : Int) : List Row → List Reported
  | [] => []
  | r :: rows =>
    ⟨rangeLow, r.rangePoint, (connectionInfo r.serverId).1, (connectionInfo r.serverId).2,
      r.serverId⟩ :: reportFrom connectionInfo (r.rangePoint + 1) rows

def falconRenewShardTable (connectionInfo : Int → String × Int) (rows : List Row) : List Reported :=
  reportFrom connectionInfo shardTableRangeMin rows

end FalconFS.ShardTable
