/-
# Batches of slice requests

`SliceMetaProcess` handles a batch of puts, gets or deletes of slices: it decodes the requests into
an array of records fresh from `palloc`, runs the handler over them and makes a reply of each.  The
handlers leave their loop at the first name that another worker owns, so the records behind it stay
as they were allocated, and a get has then written no count for the foreign name either.  A delete
scans with the snapshot of the command, which still shows what the same batch has deleted, and
PostgreSQL raises an error when a row is deleted for the second time.

`replies_own_iff` says for which batches each reply is the one of its own request.
-/
import FalconFS.Basic
import Mathlib.Data.List.Forall2

namespace FalconFS.SliceMeta

open List

/-! ## 1. Requests, rows and records -/

/-- `SliceInfo`, a row of a slice table. -/
structure SliceInfo where
  inodeId : UInt64
  chunkId : UInt32
  sliceId : UInt64
  sliceSize : UInt32
  sliceOffset : UInt32
  sliceLen : UInt32
  sliceLoc1 : UInt32
  sliceLoc2 : UInt32
  deriving DecidableEq

inductive SliceService
  | slicePut | sliceGet | sliceDel
  deriving DecidableEq

/-- A decoded request: what a put stores, and what a get or a delete looks for. -/
structure SliceRequest where
  name : Name
  slices : List SliceInfo
  inputInodeid : UInt64
  inputChunkid : UInt32

/-- What a record holds for the reply: the code, and the count with the eight arrays.  A field that
nothing has written since `palloc` is `none`. -/
structure SliceRecord where
  errorCode : Option ErrorCode
  slices : Option (List SliceInfo)
  deriving DecidableEq

def SliceRecord.fresh : SliceRecord := ⟨none, none⟩

/-- The shards of the worker as the command sees them, and the keys whose rows it has deleted. -/
structure Shards where
  rows : Nat → List SliceInfo
  deleted : List (Nat × UInt64 × UInt32)

/-- The index scan of a get or a delete. -/
def Shards.scan (t : Shards) (shardId : Nat) (r : SliceRequest) : List SliceInfo :=
  (t.rows shardId).filter fun row => row.inodeId = r.inputInodeid ∧ row.chunkId = r.inputChunkid

/-- The error of `CatalogTupleDelete`. -/
inductive Raised
  | tupleAlreadyUpdatedBySelf
  deriving DecidableEq

/-- `SearchShardInfoByShardValue` for the part of a name, and `GetLocalServerId`. -/
structure Worker where
  shardInfo : Name → Nat × ServerId
  localServerId : ServerId

variable (w : Worker)

/-- The name of the request is one of this worker's. -/
def Worker.Owns (r : SliceRequest) : Prop := (w.shardInfo r.name).2 = w.localServerId

instance (r : SliceRequest) : Decidable (w.Owns r) :=
  inferInstanceAs (Decidable ((w.shardInfo r.name).2 = w.localServerId))

/-! ## 2. The handlers -/

section

variable (t : Shards) (shardId : Nat) (r : SliceRequest)

/-- One round of `FalconSlicePutHandle`. -/
def putOne : Except Raised (Shards × SliceRecord) :=
  .ok ({ t with rows := fun i => if i = shardId then t.rows i ++ r.slices else t.rows i },
    ⟨some .success, some r.slices⟩)

/-- One round of `FalconSliceGetHandle`. -/
def getOne : Except Raised (Shards × SliceRecord) :=
  match t.scan shardId r with
  | [] => .ok (t, ⟨some .fileNotExists, some []⟩)
  | slices => .ok (t, ⟨some .success, some slices⟩)

/-- One round of `FalconSliceDelHandle`.  The snapshot does not move within the command, so the
scan finds the rows of an earlier round again. -/
def delOne : Except Raised (Shards × SliceRecord) :=
  let key := (shardId, r.inputInodeid, r.inputChunkid)
  if t.scan shardId r = [] then .ok (t, ⟨some .success, none⟩)
  else if key ∈ t.deleted then .error .tupleAlreadyUpdatedBySelf
  else .ok ({ t with deleted := key :: t.deleted }, ⟨some .success, none⟩)

end

/-- The loop of the three handlers.  `CHECK_ERROR_CODE_WITH_RETURN` leaves it. -/
def handleLoop (one : Shards → Nat → SliceRequest → Except Raised (Shards × SliceRecord)) :
    Shards → List SliceRequest → Except Raised (Shards × List SliceRecord)
  | t, [] => .ok (t, [])
  | t, r :: rest =>
    if w.Owns r then
      match one t (w.shardInfo r.name).1 r with
      | .error e => .error e
      | .ok (t, record) =>
        match handleLoop one t rest with
        | .error e => .error e
        | .ok (t, records) => .ok (t, record :: records)
    else .ok (t, { SliceRecord.fresh with errorCode := some .wrongWorker } ::
      rest.map fun _ => SliceRecord.fresh)

def falconSlicePutHandle := handleLoop w putOne

def falconSliceGetHandle := handleLoop w getOne

def falconSliceDelHandle := handleLoop w delOne

/-! ## 3. The replies -/

/-- A reply: the code, and for a get the slices. -/
structure SliceReply where
  errorCode : ErrorCode
  slices : Option (List SliceInfo)
  deriving DecidableEq

section

variable (metaService : SliceService)

/-- `SerializedSliceResponseEncode` for one record; `none` if it reads what nothing has written. -/
def encode (record : SliceRecord) : Option SliceReply :=
  match metaService, record.errorCode, record.slices with
  | .sliceGet, some errorCode, some slices => some ⟨errorCode, some slices⟩
  | .sliceGet, _, _ => none
  | _, some errorCode, _ => some ⟨errorCode, none⟩
  | _, none, _ => none

/-- `SliceMetaProcess` behind the decoder. -/
def sliceMetaProcess (rows : Nat → List SliceInfo)
    (requests : List SliceRequest) : Except Raised (Shards × List (Option SliceReply)) :=
  let handle := match metaService with
    | .slicePut => falconSlicePutHandle w
    | .sliceGet => falconSliceGetHandle w
    | .sliceDel => falconSliceDelHandle w
  match handle ⟨rows, []⟩ requests with
  | .error e => .error e
  | .ok (t, records) => .ok (t, records.map (encode metaService))

/-- **The reply of a request alone**, a request that this worker owns. -/
def ownReply (rows : Nat → List SliceInfo) (r : SliceRequest) : SliceReply :=
  let found := Shards.scan ⟨rows, []⟩ (w.shardInfo r.name).1 r
  match metaService with
  | .sliceGet => ⟨if found = [] then .fileNotExists else .success, some found⟩
  | _ => ⟨.success, none⟩

/-- The reply carries the result of its own request: `WRONG_WORKER` if the name is another worker's,
and what the request alone gives if it is not. -/
def Carries (rows : Nat → List SliceInfo) (r : SliceRequest) (reply : Option SliceReply) : Prop :=
  if w.Owns r then reply = some (ownReply w metaService rows r)
  else ∃ known, reply = some known ∧ known.errorCode = .wrongWorker

end

/-- Two requests for the rows of one inode and chunk, in the same shard, and there are such rows. -/
def SameRows (rows : Nat → List SliceInfo) (r r' : SliceRequest) : Prop :=
  (w.shardInfo r.name).1 = (w.shardInfo r'.name).1 ∧ r.inputInodeid = r'.inputInodeid ∧
    r.inputChunkid = r'.inputChunkid ∧ Shards.scan ⟨rows, []⟩ (w.shardInfo r'.name).1 r' ≠ []

/-- **The batches that are answered**: of puts and deletes, those with a foreign name at the end or
nowhere, and no rows deleted twice; of gets, those with no foreign name. -/
def Undisturbed (rows : Nat → List SliceInfo) (requests : List SliceRequest) : SliceService → Prop
  | .slicePut => requests.Pairwise fun r _ => w.Owns r
  | .sliceGet => ∀ r ∈ requests, w.Owns r
  | .sliceDel => requests.Pairwise fun r r' => w.Owns r ∧ (w.Owns r' → ¬SameRows w rows r r')

/-! ## 4. Which batches are answered -/

variable {w} {metaService : SliceService} {rows : Nat → List SliceInfo}
  {one : Shards → Nat → SliceRequest → Except Raised (Shards × SliceRecord)}
  {t : Shards} {r : SliceRequest} {rest requests : List SliceRequest}

variable (w metaService rows one) in
/-- The loop from a state on ends, and every record gives the reply of its request. -/
def Answered (t : Shards) (requests : List SliceRequest) : Prop :=
  ∃ t' records, handleLoop w one t requests = .ok (t', records) ∧
    List.Forall₂ (fun r record => Carries w metaService rows r (encode metaService record))
      requests records

theorem answered_nil : Answered w metaService rows one t [] := ⟨t, [], rfl, .nil⟩

theorem encode_fresh : encode metaService SliceRecord.fresh = none := by
  cases metaService <;> rfl

theorem not_carries_none : ¬Carries w metaService rows r none := by
  unfold Carries
  split
  · simp
  · rintro ⟨known, h, -⟩
    cases h

/-- A name of the worker's: its round, and the loop behind it. -/
theorem answered_cons_owned (h : w.Owns r) : Answered w metaService rows one t (r :: rest) ↔
      ∃ t' record, one t (w.shardInfo r.name).1 r = .ok (t', record) ∧
        encode metaService record = some (ownReply w metaService rows r) ∧
        Answered w metaService rows one t' rest := by
  constructor
  · rintro ⟨t', records, hloop, hall⟩
    rw [handleLoop, if_pos h] at hloop
    cases hone : one t (w.shardInfo r.name).1 r with
    | error e => simp [hone] at hloop
    | ok first =>
      cases hrest : handleLoop w one first.1 rest with
      | error e => simp [hone, hrest] at hloop
      | ok last =>
        simp only [hone, hrest] at hloop
        cases hloop
        obtain ⟨hfirst, hlast⟩ := forall₂_cons.1 hall
        rw [Carries, if_pos h] at hfirst
        exact ⟨first.1, first.2, rfl, hfirst, last.1, last.2, hrest, hlast⟩
  · rintro ⟨t', record, hone, hfirst, t'', records, hrest, hlast⟩
    refine ⟨t'', record :: records, ?_, .cons ?_ hlast⟩
    · rw [handleLoop, if_pos h, hone]
      simp only [hrest]
    · rwa [Carries, if_pos h]

/-- **A foreign name ends the loop**: nothing may stand behind it, and a get has not even written
its own count. -/
theorem answered_cons_foreign (h : ¬w.Owns r) :
    Answered w metaService rows one t (r :: rest) ↔ rest = [] ∧ metaService ≠ .sliceGet := by
  constructor
  · rintro ⟨t', records, hloop, hall⟩
    rw [handleLoop, if_neg h] at hloop
    cases hloop
    obtain ⟨hfirst, hlast⟩ := forall₂_cons.1 hall
    constructor
    · cases rest with
      | nil => rfl
      | cons r' rest =>
        obtain ⟨hnext, -⟩ := forall₂_cons.1 hlast
        rw [encode_fresh] at hnext
        exact absurd hnext not_carries_none
    · rintro rfl
      exact not_carries_none hfirst
  · rintro ⟨rfl, hkind⟩
    refine ⟨t, [_], by rw [handleLoop, if_neg h]; rfl, .cons ?_ .nil⟩
    rw [Carries, if_neg h]
    cases metaService with
    | sliceGet => exact absurd rfl hkind
    | slicePut | sliceDel => exact ⟨_, rfl, rfl⟩

theorem answered_put_iff :
    Answered w .slicePut rows putOne t requests ↔ Undisturbed w rows requests .slicePut := by
  simp only [Undisturbed]
  induction requests generalizing t with
  | nil => exact iff_of_true answered_nil .nil
  | cons r rest ih =>
    rw [pairwise_cons]
    by_cases h : w.Owns r
    · rw [answered_cons_owned h]
      -- a put always goes through
      constructor
      · rintro ⟨t', record, -, -, hrest⟩
        exact ⟨fun _ _ => h, ih.1 hrest⟩
      · rintro ⟨-, hrest⟩
        exact ⟨_, _, rfl, rfl, ih.2 hrest⟩
    · rw [answered_cons_foreign h]
      cases rest with
      | nil => simp
      | cons r' rest => exact iff_of_false (by simp) fun hp => h (hp.1 r' mem_cons_self)

theorem getOne_eq (shardId : Nat) :
    getOne t shardId r = .ok (t, ⟨some (if t.scan shardId r = [] then .fileNotExists else .success),
      some (t.scan shardId r)⟩) := by
  unfold getOne
  cases hscan : t.scan shardId r <;> simp

theorem answered_get_iff (ht : t.rows = rows) :
    Answered w .sliceGet rows getOne t requests ↔ Undisturbed w rows requests .sliceGet := by
  simp only [Undisturbed]
  induction requests with
  | nil => exact iff_of_true answered_nil (by simp)
  | cons r rest ih =>
    rw [forall_mem_cons]
    by_cases h : w.Owns r
    · rw [answered_cons_owned h, getOne_eq]
      -- a get changes nothing, and finds what it finds alone
      constructor
      · rintro ⟨t', record, ⟨⟩, -, hrest⟩
        exact ⟨h, ih.1 hrest⟩
      · rintro ⟨-, hrest⟩
        refine ⟨t, _, rfl, ?_, ih.2 hrest⟩
        subst ht
        rfl
    · rw [answered_cons_foreign h]
      simp [h]

variable (w rows) in
/-- No rows that the requests are for have been deleted by the batch. -/
def Untouched (t : Shards) (requests : List SliceRequest) : Prop :=
  ∀ r ∈ requests, w.Owns r → Shards.scan ⟨rows, []⟩ (w.shardInfo r.name).1 r ≠ [] →
    ((w.shardInfo r.name).1, r.inputInodeid, r.inputChunkid) ∉ t.deleted

theorem answered_del_iff (ht : t.rows = rows) : Answered w .sliceDel rows delOne t requests ↔
      Undisturbed w rows requests .sliceDel ∧ Untouched w rows t requests := by
  simp only [Undisturbed]
  induction requests generalizing t with
  | nil => exact iff_of_true answered_nil ⟨.nil, by simp [Untouched]⟩
  | cons r rest ih =>
    rw [pairwise_cons]
    by_cases h : w.Owns r
    · have hscan : t.scan (w.shardInfo r.name).1 r = Shards.scan ⟨rows, []⟩ (w.shardInfo r.name).1 r
        := by rw [← ht]; rfl
      rw [answered_cons_owned h, delOne, hscan]
      -- without rows nothing happens; with rows, the key joins the deleted ones
      by_cases hnone : Shards.scan ⟨rows, []⟩ (w.shardInfo r.name).1 r = []
      · have hsame : ∀ r' ∈ rest, ¬SameRows w rows r r' := by
          rintro r' - ⟨hs, hi, hc, hsome⟩
          refine hsome ?_
          rw [← hs, ← hnone]
          simp only [Shards.scan, hi, hc]
        simp only [if_pos hnone]
        constructor
        · rintro ⟨t', record, ⟨⟩, -, hrest⟩
          obtain ⟨hpair, hfree⟩ := (ih ht).1 hrest
          exact ⟨⟨fun r' hr' => ⟨h, fun _ => hsame r' hr'⟩, hpair⟩,
            forall_mem_cons.2 ⟨fun _ hsome => absurd hnone hsome, hfree⟩⟩
        · rintro ⟨⟨-, hpair⟩, hfree⟩
          exact ⟨t, _, rfl, rfl, (ih ht).2 ⟨hpair, (forall_mem_cons.1 hfree).2⟩⟩
      · simp only [if_neg hnone]
        split
        case isTrue hkey =>
          refine iff_of_false ?_ fun hall => hall.2 r mem_cons_self h hnone hkey
          rintro ⟨t', record, ⟨⟩, -⟩
        case isFalse hkey =>
          let t₁ : Shards :=
            ⟨t.rows, ((w.shardInfo r.name).1, r.inputInodeid, r.inputChunkid) :: t.deleted⟩
          have hmore : Untouched w rows t₁ rest ↔
              Untouched w rows t rest ∧ ∀ r' ∈ rest, w.Owns r' → ¬SameRows w rows r r' := by
            simp only [t₁, Untouched, SameRows, mem_cons, Prod.mk.injEq, not_or]
            grind
          constructor
          · rintro ⟨t', record, ⟨⟩, -, hrest⟩
            obtain ⟨hpair, hall⟩ := (ih (t := t₁) ht).1 hrest
            obtain ⟨hfree, hsame⟩ := hmore.1 hall
            exact ⟨⟨fun r' hr' => ⟨h, hsame r' hr'⟩, hpair⟩,
              forall_mem_cons.2 ⟨fun _ _ => hkey, hfree⟩⟩
          · rintro ⟨⟨hsame, hpair⟩, hfree⟩
            refine ⟨t₁, _, rfl, rfl, (ih (t := t₁) ht).2 ⟨hpair, hmore.2 ⟨?_, ?_⟩⟩⟩
            · exact (forall_mem_cons.1 hfree).2
            · exact fun r' hr' => (hsame r' hr').2
    · rw [answered_cons_foreign h]
      cases rest with
      | nil => simp [Untouched, h]
      | cons r' rest => exact iff_of_false (by simp) fun hp => h (hp.1.1 r' mem_cons_self).1

/-- **Each reply is its own request's** exactly in the batches that nothing disturbs. -/
theorem replies_own_iff (w : Worker) (metaService : SliceService) (rows : Nat → List SliceInfo)
    (requests : List SliceRequest) :
    (∃ t replies, sliceMetaProcess w metaService rows requests = .ok (t, replies) ∧
      List.Forall₂ (Carries w metaService rows) requests replies) ↔
      Undisturbed w rows requests metaService := by
  -- the replies are the records, encoded
  have hreplies : ∀ one : Shards → Nat → SliceRequest → Except Raised (Shards × SliceRecord),
      (∃ t replies, (match handleLoop w one ⟨rows, []⟩ requests with
          | .error e => .error e
          | .ok (t, records) => Except.ok (t, records.map (encode metaService))) =
            Except.ok (t, replies) ∧
        List.Forall₂ (Carries w metaService rows) requests replies) ↔
      Answered w metaService rows one ⟨rows, []⟩ requests := by
    intro one
    unfold Answered
    cases handleLoop w one ⟨rows, []⟩ requests with
    | error e => simp
    | ok out => simp [Prod.ext_iff]
  unfold sliceMetaProcess
  cases metaService with
  | slicePut => exact (hreplies putOne).trans answered_put_iff
  | sliceGet => exact (hreplies getOne).trans (answered_get_iff rfl)
  | sliceDel =>
    refine (hreplies delOne).trans ((answered_del_iff rfl).trans (and_iff_left ?_))
    simp [Untouched]

/-- A worker that owns the names starting with 1, and requests by the first byte of their names. -/
def worker1 : Worker := ⟨fun name => (0, if name.head? = some 1 then 1 else 2), 1⟩

def get1 (first : UInt8) : SliceRequest := ⟨[first], [], 9, 0⟩

/-- **Unanswered behind a foreign name**: the second get is for a name of the worker's, and its
reply is made of memory that nothing has written; so is the count of the first. -/
theorem foreign_name_first :
    ¬∃ t replies, sliceMetaProcess worker1 .sliceGet (fun _ => []) [get1 2, get1 1] =
        .ok (t, replies) ∧
      List.Forall₂ (Carries worker1 .sliceGet fun _ => []) [get1 2, get1 1] replies := by
  rintro ⟨t, replies, hrun, hall⟩
  cases hrun
  obtain ⟨hfirst, -⟩ := forall₂_cons.1 hall
  exact not_carries_none hfirst

end FalconFS.SliceMeta
