/-
# The key-value table

`KV_PUT`, `KV_GET` and `KV_DEL` keep one row for each key in the shard of the worker that owns the
key, found by the unique index.  A put never looks for a row: it inserts one, and when the insert
raises an error it catches it and reports `SUCCESS` if the error was that the key is taken.

So the value of a key is the one of the put that made its row, until a delete takes the row away:
`get_returns_maker` says it from the requests and their replies alone, over any sequence of them.
-/
import FalconFS.Basic
import Mathlib.Logic.Function.Basic

namespace FalconFS.KvMeta

open Function List

/-! ## 1. Values and rows -/

/-- What a put gives and a get returns.  Of each array the handlers read the first `slicenum`
elements, and there are no others here. -/
@[ext] structure KvValue where
  valuelen : UInt32
  slicenum : UInt16
  valuekey : List UInt64
  location : List UInt64
  slicelen : List UInt32
  valuekey_length : valuekey.length = slicenum.toNat
  location_length : location.length = slicenum.toNat
  slicelen_length : slicelen.length = slicenum.toNat
  deriving DecidableEq

/-- The columns next to `user_key`: `int`, `smallint`, twice `bigint[]`, and `int[]`.  The arrays
are as long as `slice_num` says, so that a get does not write behind the ones it allocates. -/
structure KvRow where
  valueLen : Int32
  sliceNum : Int16
  valueKey : List Int64
  location : List Int64
  sliceLen : List Int32
  valueKey_length : valueKey.length = sliceNum.toUInt16.toNat
  location_length : location.length = sliceNum.toUInt16.toNat
  sliceLen_length : sliceLen.length = sliceNum.toUInt16.toNat
  deriving DecidableEq

/-- The tuple that `FalconKvmetaPutHandle` forms. -/
def KvValue.toRow (v : KvValue) : KvRow where
  valueLen := v.valuelen.toInt32
  sliceNum := v.slicenum.toInt16
  valueKey := v.valuekey.map UInt64.toInt64
  location := v.location.map UInt64.toInt64
  sliceLen := v.slicelen.map UInt32.toInt32
  valueKey_length := by rw [length_map, v.valuekey_length, UInt16.toUInt16_toInt16]
  location_length := by rw [length_map, v.location_length, UInt16.toUInt16_toInt16]
  sliceLen_length := by rw [length_map, v.slicelen_length, UInt16.toUInt16_toInt16]

/-- What `FalconKvmetaGetHandle` takes from a tuple. -/
def KvRow.toValue (r : KvRow) : KvValue where
  valuelen := r.valueLen.toUInt32
  slicenum := r.sliceNum.toUInt16
  valuekey := r.valueKey.map Int64.toUInt64
  location := r.location.map Int64.toUInt64
  slicelen := r.sliceLen.map Int32.toUInt32
  valuekey_length := by rw [length_map, r.valueKey_length]
  location_length := by rw [length_map, r.location_length]
  slicelen_length := by rw [length_map, r.sliceLen_length]

@[simp] theorem KvValue.toValue_toRow (v : KvValue) : v.toRow.toValue = v := by
  have h64 : Int64.toUInt64 ∘ UInt64.toInt64 = id := funext UInt64.toUInt64_toInt64
  have h32 : Int32.toUInt32 ∘ UInt32.toInt32 = id := funext UInt32.toUInt32_toInt32
  ext1 <;> simp [KvValue.toRow, KvRow.toValue, map_map, h64, h32]

/-! ## 2. The handlers -/

/-- The key-value shards of a worker, as their indexes show them. -/
abbrev KvTable := Name → Option KvRow

/-- A request.  `fault` says that the insert of a put raises an error of its own: a key too long for
the index, no memory. -/
inductive KvRequest
  | put (userkey : Name) (value : KvValue) (fault : Bool)
  | get (userkey : Name)
  | del (userkey : Name)

inductive KvReply
  | code (errorCode : ErrorCode)
  | value (v : KvValue)
  deriving DecidableEq

section Handlers

/-! `workerOf` is what `HashPartId` and `SearchShardInfoByShardValue` make of a key. -/

variable (workerOf : Name → ServerId) (self : ServerId)

/-- `FalconKvmetaPutHandle` -/
def falconKvmetaPutHandle (t : KvTable) (userkey : Name) (v : KvValue) (fault : Bool) :
    KvTable × KvReply :=
  if workerOf userkey ≠ self then (t, .code .wrongWorker)
  else if fault then (t, .code .unknown)
  else
    match t userkey with
    -- ERRCODE_UNIQUE_VIOLATION
    | some _ => (t, .code .success)
    | none => (update t userkey (some v.toRow), .code .success)

/-- `FalconKvmetaGetHandle`; the error it raises without a row ends the transaction. -/
def falconKvmetaGetHandle (t : KvTable) (userkey : Name) : KvReply :=
  if workerOf userkey ≠ self then .code .wrongWorker
  else
    match t userkey with
    | none => .code .argumentError
    | some r => .value r.toValue

/-- `FalconKvmetaDelHandle` -/
def falconKvmetaDelHandle (t : KvTable) (userkey : Name) : KvTable × KvReply :=
  if workerOf userkey ≠ self then (t, .code .wrongWorker)
  else
    match t userkey with
    | none => (t, .code .argumentError)
    | some _ => (update t userkey none, .code .success)

/-- `KVMetaProcess` -/
def kvMetaProcess (t : KvTable) : KvRequest → KvTable × KvReply
  | .put userkey v fault => falconKvmetaPutHandle workerOf self t userkey v fault
  | .get userkey => (t, falconKvmetaGetHandle workerOf self t userkey)
  | .del userkey => falconKvmetaDelHandle workerOf self t userkey

/-- The table after a sequence of requests. -/
def kvRun (t : KvTable) : List KvRequest → KvTable
  | [] => t
  | r :: rs => kvRun (kvMetaProcess workerOf self t r).1 rs

/-- What their sender sees of them: each request with its reply. -/
def kvHistory (t : KvTable) : List KvRequest → List (KvRequest × KvReply)
  | [] => []
  | r :: rs =>
    (r, (kvMetaProcess workerOf self t r).2) :: kvHistory (kvMetaProcess workerOf self t r).1 rs

/-! ## 3. The put that made the row -/

variable {workerOf self} {t : KvTable} {userkey : Name}

/-- A put keeps the rows of other keys. -/
theorem put_of_ne {k : Name} (hk : k ≠ userkey) (v : KvValue) (fault : Bool) :
    (falconKvmetaPutHandle workerOf self t k v fault).1 userkey = t userkey := by
  rw [falconKvmetaPutHandle]
  split_ifs
  · rfl
  · rfl
  · cases t k with
    | some r => rfl
    | none => exact update_of_ne hk.symm ..

theorem del_of_ne {k : Name} (hk : k ≠ userkey) :
    (falconKvmetaDelHandle workerOf self t k).1 userkey = t userkey := by
  rw [falconKvmetaDelHandle]
  split_ifs
  · rfl
  · cases t k with
    | none => rfl
    | some r => exact update_of_ne hk.symm ..

/-- The value of a key after one more request with its reply: the first put that succeeds sets it,
and a delete that succeeds takes it away. -/
def makerStep (userkey : Name) (made : Option KvValue) : KvRequest × KvReply → Option KvValue
  | (.put k v _, .code .success) => if k = userkey then some (made.getD v) else made
  | (.del k, .code .success) => if k = userkey then none else made
  | _ => made

/-- The value of the put that made the row of the key. -/
def maker (userkey : Name) (made : Option KvValue) (h : List (KvRequest × KvReply)) :
    Option KvValue :=
  h.foldl (makerStep userkey) made

theorem makerStep_put_of_ne {k : Name} (hk : k ≠ userkey) (made : Option KvValue) (v : KvValue)
    (fault : Bool) (reply : KvReply) : makerStep userkey made (.put k v fault, reply) = made := by
  unfold makerStep
  split <;> simp_all

theorem makerStep_del_of_ne {k : Name} (hk : k ≠ userkey) (made : Option KvValue)
    (reply : KvReply) : makerStep userkey made (.del k, reply) = made := by
  unfold makerStep
  split <;> simp_all

/-- A put of a key that has a row, if it raises no other error. -/
theorem put_of_stored {r : KvRow} (hown : workerOf userkey = self) (hrow : t userkey = some r)
    (v : KvValue) :
    falconKvmetaPutHandle workerOf self t userkey v false = (t, .code .success) := by
  simp [falconKvmetaPutHandle, hown, hrow]

/-- **The row follows the history**, request by request. -/
theorem kvMetaProcess_maker (hown : workerOf userkey = self) (r : KvRequest) :
    ((kvMetaProcess workerOf self t r).1 userkey).map KvRow.toValue =
      makerStep userkey ((t userkey).map KvRow.toValue)
        (r, (kvMetaProcess workerOf self t r).2) := by
  cases r with
  | get k => rfl
  | put k v fault =>
    by_cases hk : k = userkey
    · subst hk
      cases fault with
      | true => simp [kvMetaProcess, falconKvmetaPutHandle, makerStep, hown]
      | false =>
        cases hrow : t k with
        | some row => simp [kvMetaProcess, put_of_stored hown hrow, makerStep, hrow]
        | none => simp [kvMetaProcess, falconKvmetaPutHandle, makerStep, hown, hrow]
    · rw [makerStep_put_of_ne hk, kvMetaProcess, put_of_ne hk]
  | del k =>
    by_cases hk : k = userkey
    · subst hk
      cases hrow : t k with
      | some row => simp [kvMetaProcess, falconKvmetaDelHandle, makerStep, hown, hrow]
      | none => simp [kvMetaProcess, falconKvmetaDelHandle, makerStep, hown, hrow]
    · rw [makerStep_del_of_ne hk, kvMetaProcess, del_of_ne hk]

theorem kvRun_maker (hown : workerOf userkey = self) (rs : List KvRequest) :
    (kvRun workerOf self t rs userkey).map KvRow.toValue =
      maker userkey ((t userkey).map KvRow.toValue) (kvHistory workerOf self t rs) := by
  induction rs generalizing t with
  | nil => rfl
  | cons r rs ih =>
    rw [kvRun, kvHistory, ih, kvMetaProcess_maker hown]
    rfl

end Handlers

/-- **The law of the store.**  After any requests, a get of a key returns what the put that made
the row has put: the first one that has reported `SUCCESS` since the key had no row (or the value
that the key had to begin with).  A put of a key that has a row reports `SUCCESS` and changes
nothing. -/
theorem get_returns_maker (workerOf : Name → ServerId) (self : ServerId) (start : KvTable)
    (userkey : Name) (rs : List KvRequest) (hown : workerOf userkey = self) :
    let t := kvRun workerOf self start rs
    let made := maker userkey ((start userkey).map KvRow.toValue)
      (kvHistory workerOf self start rs)
    (kvMetaProcess workerOf self t (.get userkey)).2 =
        (match made with
        | some v => .value v
        | none => .code .argumentError) ∧
      (made.isSome → ∀ v,
        kvMetaProcess workerOf self t (.put userkey v false) = (t, .code .success)) := by
  intro t made
  have hmade : (t userkey).map KvRow.toValue = made := kvRun_maker hown rs
  cases hrow : t userkey with
  | none =>
    rw [hrow, Option.map_none] at hmade
    rw [← hmade]
    refine ⟨?_, fun h => by cases h⟩
    simp [kvMetaProcess, falconKvmetaGetHandle, hown, hrow]
  | some row =>
    rw [hrow, Option.map_some] at hmade
    rw [← hmade]
    refine ⟨?_, fun _ v => put_of_stored hown hrow v⟩
    simp [kvMetaProcess, falconKvmetaGetHandle, hown, hrow]

/-- One slice of eight bytes. -/
def oneSlice (valuekey : UInt64) : KvValue :=
  ⟨8, 1, [valuekey], [3], [8], rfl, rfl, rfl⟩

/-- Two puts, a delete and a third put: the second is not seen, the third is. -/
theorem get_returns_maker_deleted :
    let requests : List KvRequest := [.put [1] (oneSlice 7) false, .put [1] (oneSlice 9) false,
      .get [1], .del [1], .put [1] (oneSlice 11) false, .put [1] (oneSlice 13) false]
    (kvMetaProcess (fun _ => 0) 0 (kvRun (fun _ => 0) 0 (fun _ => none) (requests.take 3))
        (.get [1])).2 = .value (oneSlice 7) ∧
      (kvMetaProcess (fun _ => 0) 0 (kvRun (fun _ => 0) 0 (fun _ => none) requests)
        (.get [1])).2 = .value (oneSlice 11) :=
  ⟨(get_returns_maker (fun _ => 0) 0 (fun _ => none) [1] _ rfl).1,
    (get_returns_maker (fun _ => 0) 0 (fun _ => none) [1] _ rfl).1⟩

/-- **A second put is acknowledged and lost.** -/
theorem second_put_lost :
    let put := fun t v => kvMetaProcess (fun _ => 0) 0 t (.put [1] v false)
    let first := put (fun _ => none) (oneSlice 7)
    let second := put first.1 (oneSlice 9)
    first.2 = .code .success ∧ second.2 = .code .success ∧
      (kvMetaProcess (fun _ => 0) 0 second.1 (.get [1])).2 = .value (oneSlice 7) ∧
      oneSlice 7 ≠ oneSlice 9 := by
  decide

end FalconFS.KvMeta
