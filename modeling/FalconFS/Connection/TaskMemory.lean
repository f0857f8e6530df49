/-
# The shared memory of a task

A task of the pool puts its request into a block of shared memory, PostgreSQL puts the response
into another one, and both are handed over by their shift alone.  This file follows the two blocks.

**The request block** is written by the pool's thread.  A single task asks for a `size_t`; a batch
adds up the sizes of its jobs in a `uint32_t` and then copies the jobs with their own sizes.  The
two sums agree below `2 ^ 32` and never above it, and a wrapped sum is often one that the allocator
has a block for (`copy_in_inside_iff`).

**The response block** is allocated in the PostgreSQL process, inside the transaction of the
statement.  When the statement fails after that, the transaction goes away and the block stays:
shared memory is not transactional, the pool's thread only sees an error, and the shift was in the
result that it did not get (`blocks_freed_iff`).  Every other block is freed before `DoWork`
returns.

A task that throws does not return, and ends the process; it is not what this file is about.
-/
import Mathlib.Data.List.Perm.Subperm
import FalconFS.Connection.WorkerTask

namespace FalconFS.Connection

open List WorkerTask SingleWorkerTask BatchWorkerTask Shmem

/-! ## 1. The copy of a batch into shared memory -/

namespace BatchWorkerTask

/-- The bytes that the block for `size` bytes has room for. -/
def blockRoom (size : Nat) : Nat := requiredSize size - sizeofMemoryHdr

/-- The writes of the copy loop: `CopyOutData` of one job after the other, with its own size. -/
def copyIn (curStartOffset : Nat) : List Job → List (Nat × List Byte)
  | [] => []
  | job :: jobs => (curStartOffset, job.data) :: copyIn (curStartOffset + job.getReqDatasize) jobs

/-- The loop that adds up the sizes of the jobs, in a `uint32_t`. -/
def addSizes : List Job → Nat → Except Stop Nat
  | [], total => .ok total
  | job :: jobs, total =>
    if job.getReqDatasize % 4 ≠ 0 then .error (.threw "param is corrupt.")
    else addSizes jobs ((total + job.getReqDatasize) % 2 ^ 32)

/-- The computed total and the block for it, if the task gets as far as the copy. -/
def paramBlock (pick : Nat → Nat) (jobs : List Job) : Except Stop (Nat × Nat) :=
  match jobs with
  | [] => .error (.threw "BatchWorkerTask: jobList is empty")
  | first :: _ =>
    match first.getFalconMetaServiceType 0, addSizes jobs 0 with
    | .error stop, _ => .error stop
    | .ok _, .error stop => .error stop
    | .ok _, .ok size =>
      let shift := falconShmemAllocatorMalloc pick size
      if shift = 0 then .error (.threw "memory exceed limit.") else .ok (size, shift)

/-- **Every write of the copy is inside the block** that was allocated for the computed total. -/
def CopyInside (pick : Nat → Nat) (jobs : List Job) : Prop :=
  ∀ size shift, paramBlock pick jobs = .ok (size, shift) → ∀ w ∈ copyIn shift jobs,
    shift ≤ w.1 ∧ w.1 + w.2.length ≤ shift + blockRoom size

/-- The task gets as far as the copy if there is a free block: the first type is a service, the
sizes are multiples of four, and the allocator serves the total as 32 bits have it. -/
def Copies (jobs : List Job) : Prop :=
  (∃ t, FirstType jobs t) ∧
  (∀ job ∈ jobs, job.getReqDatasize % 4 = 0) ∧
  Shmem.Supported (totalRequestParamDataSize jobs % 2 ^ 32)

@[simp] theorem totalRequestParamDataSize_cons (job : Job) (jobs : List Job) :
    totalRequestParamDataSize (job :: jobs) =
      job.getReqDatasize + totalRequestParamDataSize jobs := by
  simp [totalRequestParamDataSize]

/-- **The computed total is the true one, modulo `2 ^ 32`.** -/
theorem addSizes_eq {total : Nat} (ht : total < 2 ^ 32) (jobs : List Job) :
    addSizes jobs total =
      if jobs.any (fun job => job.getReqDatasize % 4 ≠ 0) then .error (.threw "param is corrupt.")
      else .ok ((total + totalRequestParamDataSize jobs) % 2 ^ 32) := by
  induction jobs generalizing total with
  | nil =>
    have hmod : (total + totalRequestParamDataSize []) % 2 ^ 32 = total := Nat.mod_eq_of_lt ht
    rw [addSizes, hmod]
    rfl
  | cons job jobs ih =>
    rw [addSizes, any_cons, totalRequestParamDataSize_cons]
    by_cases h : job.getReqDatasize % 4 ≠ 0
    · rw [if_pos h, if_pos (by simp [h])]
    · have hmod : (total + job.getReqDatasize) % 2 ^ 32 < 2 ^ 32 := Nat.mod_lt _ (by decide)
      rw [if_neg h, ih hmod, Nat.mod_add_mod, Nat.add_assoc, decide_eq_false h, Bool.false_or]

theorem addSizes_ok_iff {jobs : List Job} {total size : Nat} (ht : total < 2 ^ 32) :
    addSizes jobs total = .ok size ↔
      (∀ job ∈ jobs, job.getReqDatasize % 4 = 0) ∧
        size = (total + totalRequestParamDataSize jobs) % 2 ^ 32 := by
  have hany : jobs.any (fun job => job.getReqDatasize % 4 ≠ 0) = true ↔
      ¬ ∀ job ∈ jobs, job.getReqDatasize % 4 = 0 := by
    simp only [any_eq_true, decide_eq_true_eq, not_forall, exists_prop, ne_eq]
  rw [addSizes_eq ht]
  split
  case isTrue h => exact iff_of_false (fun h => nomatch h) fun h' => hany.mp h h'.1
  case isFalse h =>
    rw [hany, not_not] at h
    rw [Except.ok.injEq, eq_comm]
    exact (and_iff_right h).symm

variable {pick : Nat → Nat} {jobs : List Job} {size : Nat}

theorem paramBlock_ok_iff {shift : Nat} :
    paramBlock pick jobs = .ok (size, shift) ↔
      Copies jobs ∧ size = totalRequestParamDataSize jobs % 2 ^ 32 ∧ shift = pick size ∧
        shift ≠ 0 := by
  cases jobs with
  | nil =>
    refine iff_of_false (fun h => nomatch h) ?_
    rintro ⟨⟨⟨t, first, hfirst, -⟩, -⟩, -⟩
    cases hfirst
  | cons first rest =>
    have hsum := @addSizes_ok_iff (first :: rest) 0 size (by decide)
    rw [Nat.zero_add] at hsum
    constructor
    · intro h
      rw [paramBlock] at h
      split at h
      · cases h
      · cases h
      · rename_i t n ht hn
        dsimp only at h
        split at h
        · cases h
        rename_i hne
        cases h
        have hle := malloc_size_le hne
        obtain ⟨haligned, hsize⟩ := hsum.mp hn
        refine ⟨⟨⟨t, first, rfl, ht⟩, haligned, hsize ▸ hle⟩, hsize, ?_, hne⟩
        exact if_neg (Nat.not_lt_of_le hle)
    · rintro ⟨⟨⟨t, job, hjob, ht⟩, haligned, hle⟩, hsize, rfl, hne⟩
      cases hjob
      have hmalloc : falconShmemAllocatorMalloc pick size = pick size :=
        if_neg (Nat.not_lt_of_le (hsize ▸ hle))
      simp only [paramBlock, ht, hsum.mpr ⟨haligned, hsize⟩, hmalloc, if_neg hne]

/-- The writes start at the block, and the last one ends where all of them together end. -/
theorem copyIn_inside_iff {off low high : Nat} (hlow : low ≤ off) :
    (∀ w ∈ copyIn off jobs, low ≤ w.1 ∧ w.1 + w.2.length ≤ high) ↔
      jobs = [] ∨ off + totalRequestParamDataSize jobs ≤ high := by
  induction jobs generalizing off with
  | nil => simp [copyIn]
  | cons job jobs ih =>
    rw [copyIn, forall_mem_cons, ih (by omega), totalRequestParamDataSize_cons]
    have hlen : job.data.length = job.getReqDatasize := rfl
    constructor
    · rintro ⟨⟨-, hjob⟩, rfl | hrest⟩
      · exact Or.inr hjob
      · right
        omega
    · rintro (h | h)
      · cases h
      · refine ⟨⟨hlow, ?_⟩, Or.inr ?_⟩
        · rw [hlen]
          omega
        · omega

/-- A block is never larger than a page. -/
theorem blockRoom_spec (h : Shmem.Supported size) :
    size ≤ blockRoom size ∧ blockRoom size < 2 ^ 32 := by
  obtain ⟨hlevel, hcap, hle⟩ := requiredSize_spec h
  have hpage := (capacityOf_bounds _ hlevel).2
  have hsize : pageSize < 2 ^ 32 := by decide
  unfold blockRoom
  omega

/-- One answer of the allocator: the copy leaves the block if there is one and the total has
wrapped. -/
theorem copyInside_iff :
    CopyInside pick jobs ↔ ∀ size shift, paramBlock pick jobs = .ok (size, shift) →
      totalRequestParamDataSize jobs < 2 ^ 32 := by
  constructor
  · intro hinside size shift hblock
    obtain ⟨hcopies, rfl, -, -⟩ := paramBlock_ok_iff.mp hblock
    have hsmall := (blockRoom_spec hcopies.2.2).2
    rcases (copyIn_inside_iff (Nat.le_refl _)).mp (hinside _ _ hblock) with rfl | hin
    · decide
    · omega
  · intro h size shift hblock
    obtain ⟨hcopies, rfl, -, -⟩ := paramBlock_ok_iff.mp hblock
    have hroom := (blockRoom_spec hcopies.2.2).1
    rw [Nat.mod_eq_of_lt (h _ _ hblock)] at hroom ⊢
    exact (copyIn_inside_iff (Nat.le_refl _)).mpr (Or.inr (by omega))

/-- **The copy of a batch stays inside its block, whatever the allocator answers, exactly when the
true total is a 32-bit number or the task throws before it copies.** -/
theorem copy_in_inside_iff (jobs : List Job) :
    (∀ pick, CopyInside pick jobs) ↔ (Copies jobs → totalRequestParamDataSize jobs < 2 ^ 32) := by
  simp only [copyInside_iff]
  constructor
  · intro hall hcopies
    have hblock : paramBlock (fun _ => sizeofMemoryHdr) jobs = .ok (_, _) :=
      paramBlock_ok_iff.mpr ⟨hcopies, rfl, rfl, by decide⟩
    exact hall _ _ _ hblock
  · intro h pick size shift hblock
    exact h (paramBlock_ok_iff.mp hblock).1

/-- **128 requests of 32 MiB are copied into a block for none of their bytes.**  Their sizes add up
to `2 ^ 32`. -/
theorem copy_in_wraps :
    let job : Job := ⟨[.mkdir], true, replicate (2 ^ 25) 0#8⟩
    paramBlock (fun _ => sizeofMemoryHdr) (replicate 128 job) =
        .ok (0, sizeofMemoryHdr) ∧
      ¬ CopyInside (fun _ => sizeofMemoryHdr) (replicate 128 job) := by
  intro job
  have hsize : job.getReqDatasize = 2 ^ 25 := length_replicate
  have htotal : totalRequestParamDataSize (replicate 128 job) = 2 ^ 32 := by
    rw [totalRequestParamDataSize, map_replicate, sum_replicate_nat, hsize]
    rfl
  have hcopies : Copies (replicate 128 job) := by
    refine ⟨⟨.mkdir, job, rfl, rfl⟩, fun j hj => ?_, ?_⟩
    · rw [eq_of_mem_replicate hj, hsize]
      rfl
    · rw [htotal]
      decide
  have hblock : paramBlock (fun _ => sizeofMemoryHdr) (replicate 128 job) =
      .ok (0, sizeofMemoryHdr) :=
    paramBlock_ok_iff.mpr ⟨hcopies, by rw [htotal]; rfl, rfl, by decide⟩
  refine ⟨hblock, fun hinside => ?_⟩
  have hlt := copyInside_iff.mp hinside _ _ hblock
  rw [htotal] at hlt
  exact absurd hlt (Nat.lt_irrefl _)

end BatchWorkerTask

/-! ## 2. How a metadata call can end -/

/-- **How the statement of a metadata call ends.**  It fails before
`falcon_meta_call_by_serialized_shmem_internal` is called, or the function raises an error, or the
function has stored its response and returns its shift.  After that there is still the commit. -/
inductive CallEnding where
  | before (message : String)
  | inside (message : String)
  | stored (shift : Nat) (inPool : 0 < shift ∧ shift < 2 ^ 63) (block : Block)
      (atCommit : Option String)

namespace CallEnding

/-- What libpq has for the pool: a row of a statement whose commit fails is not seen. -/
def result : CallEnding → PgResult
  | before message => .failed message
  | inside message => .failed message
  | stored shift _ _ none => .tuples 1 [[⟨toString shift, shift⟩]]
  | stored _ _ _ (some message) => .failed message

def allocated : CallEnding → List Nat
  | before _ => []
  | inside _ => []
  | stored shift _ _ _ => [shift]

/-- **The statement fails after its response was stored.** -/
def FailsAfterStoring (e : CallEnding) : Prop :=
  ∃ shift inPool block message, e = stored shift inPool block (some message)

end CallEnding

/-- PostgreSQL, for the one query of a task.  A plain command may be several statements, and has no
block in shared memory.  One ending is enough: a task that returns has sent at most one call. -/
structure PgServer where
  plain : String → List PgResult
  call : CallEnding

namespace PgServer

def results (server : PgServer) : Command → List PgResult
  | .plain text => server.plain text
  | .metaCall .. => [server.call.result]

/-- The blocks that are allocated for the responses. -/
def allocated (server : PgServer) : Command → List Nat
  | .plain _ => []
  | .metaCall .. => server.call.allocated

end PgServer

/-- The connection to this server.  The only block that its results point to is the response. -/
def PgConn.servedBy (conn : PgConn) (server : PgServer) : PgConn :=
  { conn with
    answer := fun commands shift memory =>
      { results := commands.flatMap server.results
        block := fun at' =>
          match server.call with
          | .stored _ _ block _ => block
          | _ => (conn.answer commands shift memory).block at' } }

/-! ## 3. What the tasks do with shared memory -/

/-- An operation on the pool of shared memory, by the thread of the task or by PostgreSQL for it. -/
inductive PoolOp where
  | malloc (shift : Nat)
  | free (shift : Nat)
  deriving DecidableEq, Repr

namespace PoolOp

def malloced : PoolOp → Option Nat
  | malloc shift => some shift
  | free _ => none

def freed : PoolOp → Option Nat
  | malloc _ => none
  | free shift => some shift

/-- **Every block is freed**, as often as it was allocated. -/
def AllFreed (ops : List PoolOp) : Prop :=
  (ops.filterMap malloced).Subperm (ops.filterMap freed)

end PoolOp

/-- `(uint64_t)StringToInt64(PQgetvalue(res, 0, 0))`. -/
def replyShift (rows : List (List Cell)) : Nat := (firstValue rows % 2 ^ 64).toNat

namespace SingleWorkerTask

/-- The block of a result is freed when its reply has been appended. -/
def freeReply : Command → PgResult → List PoolOp
  | .metaCall .., .tuples _ rows => [.free (replyShift rows)]
  | _, _ => []

def freeReplies (host : Host) (builder : Builder) (conn : PgConn) (answer : Answer) :
    List (Command × PgResult) → SerializedData → List PoolOp
  | [], _ => []
  | (command, res) :: rest, reply =>
    match oneReply host builder conn answer command res reply with
    | .error _ => []
    | .ok reply => freeReply command res ++ freeReplies host builder conn answer rest reply

/-- The operations of `SingleWorkerTask::DoWork`, up to where it ends. -/
def poolOps (host : Host) (builder : Builder) (conn : PgConn) (server : PgServer) (job : Job) :
    List PoolOp :=
  let shift := falconShmemAllocatorMalloc conn.pick job.getReqDatasize
  if shift = 0 then []
  else
    .malloc shift ::
      match serializedDataInitShared (job.data ++ conn.behind) job.getReqDatasize with
      | none => []
      | some requestData =>
        match
          constructCommands host builder conn shift requestData job.types.length job.types 0 0 with
        | .error _ => []
        | .ok commands =>
          if pqSendQuery conn commands ≠ commands.length then []
          else
            let answer := conn.answer commands shift requestData.buffer
            (commands.flatMap server.allocated).map .malloc ++ .free shift ::
              if answer.results.length ≠ commands.length then []
              else
                freeReplies host builder conn answer (commands.zip answer.results)
                  serializedDataInitEmpty

end SingleWorkerTask

namespace BatchWorkerTask

/-- The block of the response is freed after the last job has its part of it. -/
def freeReply (host : Host) (answer : Answer) (jobs : List Job) : PgResult → List PoolOp
  | .failed _ => []
  | .tuples fields rows =>
    if rows.length ≠ 1 ∨ fields ≠ 1 then []
    else if firstValue rows = 0 then []
    else
      match (answer.block (firstValue rows)).serializedData with
      | none => []
      | some replyData =>
        match (demultiplex host replyData 0 0 jobs).stop with
        | some _ => []
        | none => [.free (replyShift rows)]

/-- The operations of `BatchWorkerTask::DoWork`, up to where it ends. -/
def poolOps (host : Host) (conn : PgConn) (server : PgServer) (jobs : List Job) : List PoolOp :=
  match paramBlock conn.pick jobs with
  | .error _ => []
  | .ok (_, shift) =>
    .malloc shift ::
      match request conn jobs with
      | .error _ => []
      | .ok (command, _) =>
        if pqSendQuery conn [command] ≠ 1 then []
        else
          let answer := conn.answer [command] shift (mergedData jobs ++ conn.behind)
          (server.allocated command).map .malloc ++
            match answer.results with
            | [] => []
            | res :: _ => .free shift :: freeReply host answer jobs res

end BatchWorkerTask

def WorkerTask.poolOps (host : Host) (builder : Builder) (conn : PgConn) (server : PgServer) :
    WorkerTask → List PoolOp
  | single job => SingleWorkerTask.poolOps host builder conn server job
  | batch jobs => BatchWorkerTask.poolOps host conn server jobs

/-- The task sends a metadata call: a batch always does, a single task unless its first operation is
a plain command. -/
def WorkerTask.CallsServer : WorkerTask → Prop
  | single job => ∃ t, job.types.head? = some t ∧ t ≠ .plainCommand
  | batch _ => True

/-! ## 4. Tasks that return -/

open PoolOp

theorem replyShift_stored {shift : Nat} (h : shift < 2 ^ 63) (text : String) :
    replyShift [[⟨text, shift⟩]] = shift := by
  simp only [replyShift, firstValue]
  omega

/-- **The balance of a task that sends a call**: the parameter is allocated and freed, the response
is allocated if the call got that far, and freed if a result points to it. -/
theorem allFreed_call_iff (param : Nat) (e : CallEnding) {freed : List PoolOp}
    (hfailed : ∀ message, e.result = .failed message → freed = [])
    (hreply : ∀ fields rows, e.result = .tuples fields rows → freed = [.free (replyShift rows)]) :
    AllFreed (.malloc param :: (e.allocated.map .malloc ++ .free param :: freed)) ↔
      ¬ e.FailsAfterStoring := by
  match e with
  | .before message =>
    obtain rfl := hfailed message rfl
    exact iff_of_true (List.Subperm.refl [param]) fun ⟨_, _, _, _, h⟩ => nomatch h
  | .inside message =>
    obtain rfl := hfailed message rfl
    exact iff_of_true (List.Subperm.refl [param]) fun ⟨_, _, _, _, h⟩ => nomatch h
  | .stored shift inPool block none =>
    obtain rfl := hreply _ _ rfl
    rw [replyShift_stored inPool.2]
    exact iff_of_true (List.Subperm.refl [param, shift]) fun ⟨_, _, _, _, h⟩ => nomatch h
  | .stored shift inPool block (some message) =>
    obtain rfl := hfailed message rfl
    refine iff_of_false (fun h => ?_) fun h => h ⟨shift, inPool, block, message, rfl⟩
    -- two blocks, one of them freed
    have hle : 2 ≤ 1 := h.length_le
    omega

section Single

variable {host : Host} {builder : Builder} {conn : PgConn} {server : PgServer} {job : Job}

/-- A request without operations: no command is sent, and the parameter is freed. -/
theorem SingleWorkerTask.allFreed_of_empty {data : List Byte} (hnil : job.types = [])
    (h : reply host builder conn job = .ok data) :
    AllFreed (poolOps host builder conn server job) := by
  unfold reply at h
  unfold poolOps
  dsimp only at h ⊢
  split at h
  · cases h
  rename_i hshift
  rw [if_neg hshift]
  cases hinit : serializedDataInitShared (job.data ++ conn.behind) job.getReqDatasize with
  | none =>
    rw [hinit] at h
    cases h
  | some requestData =>
    simp only [hinit, hnil, length_nil, constructCommands] at h ⊢
    split at h
    · cases h
    rename_i hsend
    rw [if_neg hsend]
    split at h
    · cases h
    rename_i hcount
    rw [if_neg hcount]
    exact List.Subperm.refl [_]

/-- What a task with operations that returns has done. -/
theorem SingleWorkerTask.poolOps_of_reply {data : List Byte} (hne : job.types ≠ [])
    (h : reply host builder conn job = .ok data) :
    ∃ t command res, OneSegment job.types t ∧ CommandFor host builder conn job t command ∧
      (answerTo conn job command).results = [res] ∧
      poolOps host builder conn server job =
        .malloc (paramShift conn job) ::
          ((server.allocated command).map .malloc ++
            .free (paramShift conn job) :: freeReply command res) := by
  obtain ⟨hshift, haligned, t, command, res, r, hseg, hcommand, hsend, hres, hone, -⟩ :=
    reply_ok hne h
  refine ⟨t, command, res, hseg, hcommand, hres, ?_⟩
  have hinit : serializedDataInitShared (job.data ++ conn.behind) job.getReqDatasize =
      some ⟨job.data ++ conn.behind, job.getReqDatasize, false⟩ := if_neg (by omega)
  obtain ⟨size, hsize, hsegment⟩ := (commandFor_iff hseg).mp hcommand
  have hcommands := constructCommands_of_oneSegment hseg hsize hsegment
  have hsent : pqSendQuery conn [command] = 1 := if_pos hsend
  unfold poolOps
  rw [answerTo, paramShift] at hres hone
  rw [paramShift] at hshift hcommands ⊢
  simp only [if_neg hshift, hinit, hcommands, hsent, hres, length_singleton, zip_cons_cons,
    zip_nil_left, freeReplies, hone, flatMap_cons, flatMap_nil, append_nil,
    ne_eq, not_true, if_false]

theorem SingleWorkerTask.allFreed_iff {data : List Byte}
    (h : reply host builder (conn.servedBy server) job = .ok data) :
    AllFreed (poolOps host builder (conn.servedBy server) server job) ↔
      ((single job).CallsServer → ¬ server.call.FailsAfterStoring) := by
  by_cases hne : job.types = []
  · refine iff_of_true (allFreed_of_empty hne h) ?_
    rintro ⟨t, ht, -⟩
    rw [hne] at ht
    cases ht
  obtain ⟨t, command, res, hseg, hcommand, hres, hops⟩ :=
    @poolOps_of_reply host builder (conn.servedBy server) server job data hne h
  have hres : server.results command = [res] := by
    rw [← hres]
    exact (append_nil _).symm
  have hcalls : (single job).CallsServer ↔ t ≠ .plainCommand := by
    have hhead : job.types.head? = some t := by
      rw [hseg.same, head?_replicate, if_neg (mt length_eq_zero_iff.mp hne)]
    simp only [WorkerTask.CallsServer, hhead, Option.some.injEq, exists_eq_left']
  rw [hops, hcalls]
  unfold CommandFor at hcommand
  split at hcommand
  case isTrue hplain =>
    obtain ⟨-, text, -, -, rfl⟩ := hcommand
    exact iff_of_true (List.Subperm.refl [_]) fun h => absurd hplain h
  case isFalse hcall =>
    subst hcommand
    obtain rfl : server.call.result = res := singleton_inj.mp hres
    rw [PgServer.allocated, allFreed_call_iff]
    · exact ⟨fun h _ => h, fun h => h hcall⟩
    · intro message hfailed
      rw [hfailed]
      rfl
    · intro fields rows htuples
      rw [htuples, freeReply]

end Single

section Batch

variable {host : Host} {builder : Builder} {conn : PgConn} {server : PgServer} {jobs : List Job}

/-- The batch has a block when it has a query. -/
theorem BatchWorkerTask.paramBlock_of_request {command : Command} {shift : Nat}
    (h : request conn jobs = .ok (command, shift)) :
    ∃ size, paramBlock conn.pick jobs = .ok (size, shift) ∧
      ∃ t n k s, command = .metaCall t n k s := by
  obtain ⟨hne, haligned, rfl, t, ht, rfl⟩ := request_ok_iff.mp h
  have hle : Shmem.Supported (totalRequestParamDataSize jobs) := malloc_size_le hne
  have hmod : totalRequestParamDataSize jobs % 2 ^ 32 = totalRequestParamDataSize jobs := by
    have hpage : pageSize < 2 ^ 32 := by decide
    unfold Shmem.Supported at hle
    exact Nat.mod_eq_of_lt (by omega)
  have hpick : paramShift conn jobs = conn.pick (totalRequestParamDataSize jobs) :=
    if_neg (Nat.not_lt_of_le hle)
  refine ⟨totalRequestParamDataSize jobs, paramBlock_ok_iff.mpr ?_, t, _, _, _, rfl⟩
  exact ⟨⟨⟨t, ht⟩, haligned, hmod.symm ▸ hle⟩, hmod.symm, hpick, hne⟩

/-- **A response that was cut apart for all jobs is freed**, and nothing else is. -/
theorem BatchWorkerTask.freeReply_of_respond {answer : Answer} {e : CallEnding}
    (h : (respond host builder conn jobs answer e.result).stop = none) :
    (∀ message, e.result = .failed message → freeReply host answer jobs e.result = []) ∧
    ∀ fields rows, e.result = .tuples fields rows →
      freeReply host answer jobs e.result = [.free (replyShift rows)] := by
  match e with
  | .before message => exact ⟨fun _ _ => rfl, fun _ _ h => nomatch h⟩
  | .inside message => exact ⟨fun _ _ => rfl, fun _ _ h => nomatch h⟩
  | .stored _ _ _ (some message) => exact ⟨fun _ _ => rfl, fun _ _ h => nomatch h⟩
  | .stored shift inPool block none =>
    refine ⟨fun _ h => (nomatch h), fun fields rows hrows => ?_⟩
    cases hrows
    have hne : firstValue [[⟨toString shift, shift⟩]] ≠ 0 := by
      simp only [firstValue]
      omega
    have hone : ¬ ([[(⟨toString shift, shift⟩ : Cell)]].length ≠ 1 ∨ 1 ≠ 1) := by simp
    simp only [CallEnding.result, respond, freeReply, if_neg hone, if_neg hne] at h ⊢
    generalize (answer.block _).serializedData = data at h ⊢
    cases data with
    | none => cases h
    | some replyData =>
      dsimp only at h ⊢
      rw [h]

theorem BatchWorkerTask.allFreed_iff
    (h : (doWork host builder (conn.servedBy server) jobs).stop = none) :
    AllFreed (poolOps host (conn.servedBy server) server jobs) ↔
      ¬ server.call.FailsAfterStoring := by
  unfold doWork call at h
  unfold poolOps
  cases hrequest : request (conn.servedBy server) jobs with
  | error stop =>
    rw [hrequest] at h
    cases h
  | ok p =>
    obtain ⟨command, shift⟩ := p
    obtain ⟨size, hblock, t, n, k, s, rfl⟩ := paramBlock_of_request hrequest
    simp only [hrequest, hblock] at h ⊢
    by_cases hsend : pqSendQuery (conn.servedBy server) [.metaCall t n k s] ≠ 1
    · rw [if_pos hsend] at h
      cases h
    simp only [if_neg hsend] at h ⊢
    obtain ⟨hfailed, hreply⟩ := freeReply_of_respond h
    exact allFreed_call_iff shift server.call hfailed hreply

end Batch

/-- **When a task has returned, every block of its request and its response has been freed, except
for the response of a statement that failed after it had stored it.** -/
theorem blocks_freed_iff (host : Host) (builder : Builder) (conn : PgConn) (server : PgServer)
    (task : WorkerTask) (hret : (task.doWork host builder (conn.servedBy server)).stop = none) :
    AllFreed (task.poolOps host builder (conn.servedBy server) server) ↔
      (task.CallsServer → ¬ server.call.FailsAfterStoring) := by
  cases task with
  | single job =>
    cases h : reply host builder (conn.servedBy server) job with
    | error stop =>
      rw [WorkerTask.doWork, SingleWorkerTask.doWork, h] at hret
      cases hret
    | ok data => exact SingleWorkerTask.allFreed_iff h
  | batch jobs =>
    rw [WorkerTask.poolOps, BatchWorkerTask.allFreed_iff hret]
    exact ⟨fun h _ => h, fun h => h trivial⟩

/-! ## 5. One `mkdir`, whose commit succeeds or fails -/

section Run

/-- A job with one operation and an empty parameter. -/
def mkdirJob : Job := ⟨[.mkdir], true, [0, 0, 0, 0]⟩

/-- The call stores an empty response in the second block; then the transaction commits, or not. -/
def mkdirServer (atCommit : Option String) : PgServer where
  plain _ := []
  call := .stored 16408 (by decide) ⟨7, [], [0, 0, 0, 0], nothingSmall, wordBehind⟩ atCommit

/-- A `mkdir` that commits. -/
theorem blocks_freed_mkdir :
    ((single mkdirJob).doWork .little emptyBuilder
        (quietConn.servedBy (mkdirServer none))).stop = none ∧
      AllFreed ((single mkdirJob).poolOps .little emptyBuilder
        (quietConn.servedBy (mkdirServer none)) (mkdirServer none)) := by
  have hret : ((single mkdirJob).doWork .little emptyBuilder
      (quietConn.servedBy (mkdirServer none))).stop = none := by rfl
  refine ⟨hret, (blocks_freed_iff _ _ _ _ _ hret).mpr fun _ => ?_⟩
  rintro ⟨_, _, _, _, h⟩
  cases h

/-- **A `mkdir` whose commit fails leaves its response behind**: the job is answered, the parameter
is freed, and the block at 16408 is never freed. -/
theorem response_block_leaks :
    ((single mkdirJob).doWork .little emptyBuilder
        (quietConn.servedBy (mkdirServer (some "ERROR:  commit failed")))).stop = none ∧
      (single mkdirJob).poolOps .little emptyBuilder
          (quietConn.servedBy (mkdirServer (some "ERROR:  commit failed")))
          (mkdirServer (some "ERROR:  commit failed")) =
        [.malloc 24, .malloc 16408, .free 24] ∧
      ¬ AllFreed [.malloc 24, .malloc 16408, .free 24] := by
  refine ⟨by decide +kernel, by decide +kernel, fun h => ?_⟩
  have hle : 2 ≤ 1 := h.length_le
  omega

end Run

end FalconFS.Connection
