/-
# The tasks of a pool connection

A connection of the pool has a thread that takes one task after another and runs its `DoWork`: a
`SingleWorkerTask` for one job, a `BatchWorkerTask` for jobs that were merged.  A task copies the
requests into shared memory, sends PostgreSQL a query that says where they are, and cuts what comes
back into the replies of its jobs.

Everything that can go wrong on the way throws, and nothing catches: `BackgroundWorker` has no
handler, so an exception ends the thread, and with it the process.  An outcome of a task therefore
is what was sent to its jobs and, possibly, what stopped it.

What comes from outside is a parameter, `PgConn`: the shift that the allocator gives or does not
give, whether the query could be sent, the results that PostgreSQL returns, and the blocks that
these results point to.  FlatBuffers is one too (`Builder`).  Allocations on the heap succeed.

* Sections 3 and 4 are the two kinds of tasks.
* Section 6 says when the job of a single task is answered, section 7 when the jobs of a batch are.
* Section 8 is the thread.
-/
import FalconFS.Connection.MetaCall

namespace FalconFS.Connection

open Frames List Shmem

/-! ## 1. Jobs -/

/-- What ends a task early: an exception, or an access that the language does not define. -/
inductive Stop where
  | threw (what : String)
  | trouble (t : Trouble)
  deriving DecidableEq, Repr

/-- A `BrpcMetaServiceJob`: the types of its operations, with `notSupported` for whatever
`MetaServiceTypeDecode` does not know, the flag of the request, and the attachment. -/
structure Job where
  types : List FalconMetaServiceType
  allowBatchWithOthers : Bool
  data : List Byte
  deriving DecidableEq, Repr

namespace Job

def getReqServiceCnt (job : Job) : Nat := job.types.length

def getReqDatasize (job : Job) : Nat := job.data.length

def isEmptyRequest (job : Job) : Bool := job.types.isEmpty

def isAllowBatchProcess (job : Job) : Bool :=
  match job.types with
  | [] => false
  | t :: ts => job.allowBatchWithOthers && ts.all (· == t)

def getFalconMetaServiceType (job : Job) (index : Nat) : Except Stop FalconMetaServiceType :=
  match job.types[index]? with
  | none => .error (.threw "input index out of range.")
  | some t => if t = .notSupported then .error (.threw "got unsupport serviceType.") else .ok t

end Job

inductive FalconBatchServiceType where
  | mkdir
  | create
  | stat
  | unlink
  | openFile
  | close
  | notSupport
  deriving DecidableEq, Repr

def falconMetaServiceTypeToBatchServiceType : FalconMetaServiceType → FalconBatchServiceType
  | .mkdir => .mkdir
  | .create => .create
  | .stat => .stat
  | .unlink => .unlink
  | .openFile => .openFile
  | .close => .close
  | _ => .notSupport

/-- `DispatchMetaServiceJob`: the queue that the job is put into.  A request without operations is
put into none. -/
def dispatchMetaServiceJob (job : Job) : Except Stop (Option FalconBatchServiceType) :=
  if job.isEmptyRequest then .ok none
  else
    match job.getFalconMetaServiceType 0 with
    | .error stop => .error stop
    | .ok t =>
      .ok (some (if job.isAllowBatchProcess then falconMetaServiceTypeToBatchServiceType t
        else .notSupport))

inductive WorkerTask where
  | single (job : Job)
  | batch (jobs : List Job)
  deriving DecidableEq, Repr

def WorkerTask.jobs : WorkerTask → List Job
  | single job => [job]
  | batch jobs => jobs

/-- The tasks that the pool makes: `SingleDequeueExec` of one job from the last queue,
`BatchDequeueExec` of the jobs it has taken out of one of the others. -/
def WorkerTask.Handed : WorkerTask → Prop
  | single job => dispatchMetaServiceJob job = .ok (some .notSupport)
  | batch jobs => jobs ≠ [] ∧ ∃ queue, queue ≠ .notSupport ∧
      ∀ job ∈ jobs, dispatchMetaServiceJob job = .ok (some queue)

/-! ## 2. The connection -/

/-- A value of a result: its text, and the number that `StringToInt64` makes of it. -/
structure Cell where
  text : String
  int64 : Int
  deriving DecidableEq, Repr

/-- A `PGresult`: `PGRES_TUPLES_OK` with the number of fields and the rows, or any other status with
its message. -/
inductive PgResult where
  | failed (message : String)
  | tuples (fields : Nat) (rows : List (List Cell))
  deriving DecidableEq, Repr

/-- `StringToInt64(PQgetvalue(res, 0, 0))`. -/
def firstValue (rows : List (List Cell)) : Int :=
  match rows with
  | (cell :: _) :: _ => cell.int64
  | _ => 0

/-- One statement of a query. -/
inductive Command where
  | plain (text : String)
  | metaCall (t : FalconMetaServiceType) (count shift : Nat) (signature : Int)
  deriving DecidableEq, Repr

/-- What comes back for a query: the results up to `NULL`, and the blocks at the shifts. -/
structure Answer where
  results : List PgResult
  block : Int → Block

/-- What a task finds outside itself.  `answer` is handed the commands, the shift of the parameter
and the memory from there on. -/
structure PgConn where
  pick : Nat → Nat
  signature : Nat → Int
  behind : List Byte
  readable : 4 ≤ behind.length
  fresh : Nat → Byte
  sendQuery : List Command → Bool
  errorMessage : String
  answer : List Command → Nat → List Byte → Answer

/-- `PQsendQuery`: 1 if the query was sent, however many statements it has. -/
def pqSendQuery (conn : PgConn) (commands : List Command) : Nat :=
  if conn.sendQuery commands then 1 else 0

/-- What the verifier says to the parameter of a plain command. -/
inductive PlainParam where
  | corrupt
  | otherType
  | command (text : String)
  deriving DecidableEq, Repr

/-- The FlatBuffers functions that a task uses.  `plainCommand` is handed the memory of the item and
the size as the `int` that the code computes. -/
structure Builder where
  metaResponse : FalconErrorCode → FlatBuffer
  plainCommandResponse : Nat → Nat → List String → FlatBuffer
  plainCommand : List Byte → Int → PlainParam

/-- `FalconErrorMsgAnalyse`, with `PROGRAM_ERROR` in the place of `SUCCESS`.  The message of a
result is never `NULL`. -/
def errorCodeOf (message : String) : FalconErrorCode :=
  let errorCode := falconErrorMsgAnalyse (some message)
  if errorCode = .success then .programError else errorCode

/-- Something that is sent to a job of the task. -/
inductive Event where
  | processResponse (job : Nat) (data : List Byte)
  | done (job : Nat)
  deriving DecidableEq, Repr

def Event.job : Event → Nat
  | processResponse job _ => job
  | done job => job

@[simp] theorem Event.job_processResponse (i : Nat) (data : List Byte) :
    (Event.processResponse i data).job = i := rfl

@[simp] theorem Event.job_done (i : Nat) : (Event.done i).job = i := rfl

/-- `ProcessResponse` and `Done` for one job after the other, counted from `i` on. -/
def sendEach (i : Nat) : List (List Byte) → List Event
  | [] => []
  | data :: rest => .processResponse i data :: .done i :: sendEach (i + 1) rest

structure Outcome where
  log : List Event
  stop : Option Stop
  deriving DecidableEq, Repr

/-- **Answered exactly once**, each of the `n` jobs, and the thread goes on. -/
def Outcome.Served (o : Outcome) (n : Nat) : Prop :=
  o.stop = none ∧ ∀ i < n, ∃ data,
    o.log.filter (fun e => e.job == i) = [.processResponse i data, .done i]

/-! ## 3. `SingleWorkerTask` -/

section

variable (host : Host) (builder : Builder) (conn : PgConn)

/-- A segment for the builder's buffer. -/
def putSegment (host : Host) (fresh : Nat → Byte) (reply : SerializedData) (b : FlatBuffer) :
    Except Stop SerializedData :=
  match putItem host (some fresh) reply b.item with
  | .error trouble => .error (.trouble trouble)
  | .ok reply => .ok reply

/-- How many of the types are merged behind one of type `t`.  Looking at a type may throw. -/
def sameTypes (t : FalconMetaServiceType) : List FalconMetaServiceType → Except Stop Nat
  | [] => .ok 0
  | u :: rest =>
    if u = .notSupported then .error (.threw "got unsupport serviceType.")
    else if u = t then
      match sameTypes t rest with
      | .error stop => .error stop
      | .ok more => .ok (more + 1)
    else .ok 0

/-- The conversion of a `size_t` to `int`. -/
def toInt32 (n : Int) : Int := (n + 2 ^ 31) % 2 ^ 32 - 2 ^ 31

namespace SingleWorkerTask

/-- The command for the operations of one segment, at `segment` in the parameter. -/
def segmentCommand (builder : Builder) (conn : PgConn) (shift : Nat)
    (requestData : SerializedData) (t : FalconMetaServiceType) (count segment size drawn : Nat) :
    Except Stop Command :=
  if t = .plainCommand then
    match builder.plainCommand (requestData.buffer.drop (segment + 4)) (toInt32 (size - 4)) with
    | .corrupt => .error (.threw "request param is corrupt. 1")
    | .otherType => .error (.threw "request param is corrupt. 2")
    | .command text => .ok (.plain text)
  else .ok (.metaCall t count (shift + segment) (conn.signature drawn))

/-- The loop that puts the query together.  Every round takes at least one type, so `rounds` is
the number of types at first.  The size of a segment is not checked, and is the `sd_size_t` of
`-1` for a parameter that is corrupt. -/
def constructCommands (host : Host) (builder : Builder) (conn : PgConn) (shift : Nat)
    (requestData : SerializedData) :
    Nat → List FalconMetaServiceType → Nat → Nat → Except Stop (List Command)
  | 0, _, _, _ => .ok []
  | _ + 1, [], _, _ => .ok []
  | rounds + 1, t :: rest, segment, drawn =>
    if t = .notSupported then .error (.threw "got unsupport serviceType.")
    else
      match if t = .plainCommand then .ok 0 else sameTypes t rest with
      | .error stop => .error stop
      | .ok more =>
        match serializedDataNextSeveralItemSize host requestData (segment % 2 ^ 32) (more + 1) with
        | .error trouble => .error (.trouble trouble)
        | .ok size =>
          match segmentCommand builder conn shift requestData t (more + 1) segment size drawn with
          | .error stop => .error stop
          | .ok command =>
            match constructCommands host builder conn shift requestData rounds (rest.drop more)
              (segment + size) (if t = .plainCommand then drawn else drawn + 1) with
            | .error stop => .error stop
            | .ok commands => .ok (command :: commands)

/-- What one result adds to the reply. -/
def oneReply (answer : Answer) (command : Command) (res : PgResult) (reply : SerializedData) :
    Except Stop SerializedData :=
  match res, command with
  | .failed message, _ =>
    putSegment host conn.fresh reply (builder.metaResponse (errorCodeOf message))
  | .tuples fields rows, .plain _ =>
    putSegment host conn.fresh reply
      (builder.plainCommandResponse rows.length fields (rows.flatten.map Cell.text))
  | .tuples fields rows, .metaCall _ _ _ signature =>
    if rows.length ≠ 1 ∨ fields ≠ 1 then
      .error (.threw "returned reply is corrupt in non-batch operation. 1")
    else
      let block := answer.block (firstValue rows)
      if block.signature ≠ signature then
        .error (.threw "returned reply is corrupt in non-batch operation. 2")
      else
        match block.serializedData with
        | none => .error (.threw "reply data is corrupt.")
        | some one =>
          match serializedDataAppend (some conn.fresh) reply one with
          | .error trouble => .error (.trouble trouble)
          | .ok reply => .ok reply

def collectReplies (host : Host) (builder : Builder) (conn : PgConn) (answer : Answer) :
    List (Command × PgResult) → SerializedData → Except Stop SerializedData
  | [], reply => .ok reply
  | (command, res) :: rest, reply =>
    match oneReply host builder conn answer command res reply with
    | .error stop => .error stop
    | .ok reply => collectReplies host builder conn answer rest reply

/-- `SingleWorkerTask::DoWork` up to the reply.  What `PQsendQuery` returns is compared with the
number of commands. -/
def reply (job : Job) : Except Stop (List Byte) :=
  let shift := falconShmemAllocatorMalloc conn.pick job.getReqDatasize
  if shift = 0 then .error (.threw "memory exceed limit.")
  else
    match serializedDataInitShared (job.data ++ conn.behind) job.getReqDatasize with
    | none => .error (.threw "request attachment is corrupt.")
    | some requestData =>
      match
        constructCommands host builder conn shift requestData job.types.length job.types 0 0 with
      | .error stop => .error stop
      | .ok commands =>
        if pqSendQuery conn commands ≠ commands.length then
          .error (.threw conn.errorMessage)
        else
          let answer := conn.answer commands shift requestData.buffer
          if answer.results.length ≠ commands.length then
            .error (.threw ("reply count cannot match request. " ++
              "maybe there is a request containing several plain commands."))
          else
            match collectReplies host builder conn answer (commands.zip answer.results)
              serializedDataInitEmpty with
            | .error stop => .error stop
            | .ok reply => .ok (reply.buffer.take reply.size)

def doWork (job : Job) : Outcome :=
  match reply host builder conn job with
  | .error stop => ⟨[], some stop⟩
  | .ok data => ⟨[.processResponse 0 data, .done 0], none⟩

end SingleWorkerTask

/-! ## 4. `BatchWorkerTask` -/

namespace BatchWorkerTask

def totalRequestServiceCount (jobs : List Job) : Nat := (jobs.map Job.getReqServiceCnt).sum

def totalRequestParamDataSize (jobs : List Job) : Nat := (jobs.map Job.getReqDatasize).sum

/-- The merged parameter. -/
def mergedData (jobs : List Job) : List Byte := jobs.flatMap Job.data

/-- The command and the shift of the merged parameter.  Both totals are `uint32_t`; a block for a
wrapped size is too small for what is copied into it. -/
def request (conn : PgConn) (jobs : List Job) : Except Stop (Command × Nat) :=
  match jobs with
  | [] => .error (.threw "BatchWorkerTask: jobList is empty")
  | first :: _ =>
    match first.getFalconMetaServiceType 0 with
    | .error stop => .error stop
    | .ok t =>
      if jobs.any (fun job => job.getReqDatasize % 4 ≠ 0) then .error (.threw "param is corrupt.")
      else
        let size := totalRequestParamDataSize jobs % 2 ^ 32
        let shift := falconShmemAllocatorMalloc conn.pick size
        if shift = 0 then .error (.threw "memory exceed limit.")
        else if size < totalRequestParamDataSize jobs then .error (.trouble .outOfBounds)
        else
          .ok (.metaCall t (totalRequestServiceCount jobs % 2 ^ 32) shift (conn.signature 0), shift)

/-- The first result for the query, and where its blocks are. -/
def call (conn : PgConn) (jobs : List Job) : Except Stop (Answer × PgResult) :=
  match request conn jobs with
  | .error stop => .error stop
  | .ok (command, shift) =>
    if pqSendQuery conn [command] ≠ 1 then .error (.threw conn.errorMessage)
    else
      let answer := conn.answer [command] shift (mergedData jobs ++ conn.behind)
      match answer.results with
      | [] => .error (.threw conn.errorMessage)
      | res :: _ => .ok (answer, res)

/-- The loop that cuts the reply apart. -/
def demultiplex (host : Host) (replyData : SerializedData) (i p : Nat) : List Job → Outcome
  | [] => ⟨[], none⟩
  | job :: jobs =>
    match serializedDataNextSeveralItemSize host replyData p job.getReqServiceCnt with
    | .error trouble => ⟨[], some (.trouble trouble)⟩
    | .ok size =>
      if size = sdSizeInvalid then ⟨[], some (.threw "response is corrupt.")⟩
      else
        let rest := demultiplex host replyData (i + 1) ((p + size) % 2 ^ 32) jobs
        ⟨.processResponse i ((replyData.buffer.drop p).take size) :: .done i :: rest.log, rest.stop⟩

/-- Only `Done`, for every job. -/
def finishAll (i : Nat) : List Job → List Event
  | [] => []
  | _ :: jobs => .done i :: finishAll (i + 1) jobs

/-- The reply builder is cleared first, so that nothing but its capacity is left of earlier tasks.
-/
def errorReply (message : String) : Except Stop (List Byte) :=
  match putSegment host conn.fresh serializedDataInitEmpty
    (builder.metaResponse (errorCodeOf message)) with
  | .error stop => .error stop
  | .ok reply => .ok (reply.buffer.take reply.size)

def respond (jobs : List Job) (answer : Answer) : PgResult → Outcome
  | .failed message =>
    match errorReply host builder conn message with
    | .error stop => ⟨[], some stop⟩
    | .ok data => ⟨sendEach 0 (jobs.map fun _ => data), none⟩
  | .tuples fields rows =>
    if rows.length ≠ 1 ∨ fields ≠ 1 then ⟨[], some (.threw "returned reply is corrupt.")⟩
    else if firstValue rows = 0 then ⟨finishAll 0 jobs, none⟩
    else
      match (answer.block (firstValue rows)).serializedData with
      | none => ⟨[], some (.threw "reply data is corrupt.")⟩
      | some replyData => demultiplex host replyData 0 0 jobs

def doWork (jobs : List Job) : Outcome :=
  match call conn jobs with
  | .error stop => ⟨[], some stop⟩
  | .ok (answer, res) => respond host builder conn jobs answer res

end BatchWorkerTask

def WorkerTask.doWork : WorkerTask → Outcome
  | single job => SingleWorkerTask.doWork host builder conn job
  | batch jobs => BatchWorkerTask.doWork host builder conn jobs

/-- `PGConnection::BackgroundWorker`: the outcomes of the tasks, up to the first one that stops. -/
def backgroundWorker (host : Host) (builder : Builder) : List (PgConn × WorkerTask) → List Outcome
  | [] => []
  | (conn, task) :: tasks =>
    let o := task.doWork host builder conn
    match o.stop with
    | none => o :: backgroundWorker host builder tasks
    | some _ => [o]

end

/-! ## 5. What is sent to the jobs -/

variable {i k n : Nat} {datas : List (List Byte)} {data : List Byte} {t : FalconMetaServiceType}

theorem job_mem_sendEach {e : Event} (h : e ∈ sendEach i datas) : i ≤ e.job := by
  induction datas generalizing i <;> grind [sendEach, Event.job]

theorem processResponse_mem_sendEach (h : Event.processResponse k data ∈ sendEach i datas) :
    ∃ n : Nat, k = i + n ∧ datas[n]? = some data := by
  induction datas generalizing i with
  | nil => cases h
  | cons d datas ih =>
    simp only [sendEach, mem_cons, Event.processResponse.injEq, reduceCtorEq, false_or] at h
    rcases h with ⟨rfl, rfl⟩ | h
    · exact ⟨0, rfl, rfl⟩
    · obtain ⟨n, hn, hget⟩ := ih h
      exact ⟨n + 1, by omega, hget⟩

/-- **Each job gets its own data, once.** -/
theorem filter_sendEach (h : datas[k]? = some data) (i : Nat) :
    (sendEach i datas).filter (fun e => e.job == i + k) =
      [.processResponse (i + k) data, .done (i + k)] := by
  induction datas generalizing i k with
  | nil => cases h
  | cons d datas ih =>
    cases k with
    | zero =>
      cases h
      have hrest : (sendEach (i + 1) datas).filter (fun e => e.job == i) = [] := by
        rw [filter_eq_nil_iff]
        intro e he hi
        have hle := job_mem_sendEach he
        rw [beq_iff_eq] at hi
        omega
      rw [Nat.add_zero, sendEach, filter_cons_of_pos (by simp), filter_cons_of_pos (by simp),
        hrest]
    | succ k =>
      have hstep := ih h (i + 1)
      rw [show i + 1 + k = i + (k + 1) by omega] at hstep
      rw [sendEach, filter_cons_of_neg (by simp), filter_cons_of_neg (by simp), hstep]

/-- A reply for every job, and nothing that stops the task. -/
theorem served_of_sendEach (h : datas.length = n) : Outcome.Served ⟨sendEach 0 datas, none⟩ n := by
  refine ⟨rfl, ?_⟩
  intro i hi
  have hget : datas[i]? = some (datas[i]) := getElem?_eq_getElem (h ▸ hi)
  have hfilter := filter_sendEach hget 0
  rw [Nat.zero_add] at hfilter
  exact ⟨_, hfilter⟩

theorem not_served_stop {log : List Event} {stop : Stop} : ¬ Outcome.Served ⟨log, some stop⟩ n := by
  rintro ⟨h, -⟩
  cases h

/-- The first segment of a reply always fits. -/
theorem putSegment_empty (host : Host) (fresh : Nat → Byte) (b : FlatBuffer) :
    ∃ reply body rest, putSegment host fresh serializedDataInitEmpty b = .ok reply ∧
      Holds host reply [b.item] [body] rest := by
  have hlen := b.length_item
  obtain ⟨reply, body, rest, hput, h⟩ := (holds_start host).putItem fresh b.item (by
    rw [totalLength_nil, Nat.zero_add]
    exact hlen)
  exact ⟨reply, body, rest, by rw [putSegment, hput], h⟩

/-! ## 6. Single tasks -/

/-- The operations go into one command: they all have one type, and there is only one of them if
this is the type of plain commands. -/
structure OneSegment (types : List FalconMetaServiceType) (t : FalconMetaServiceType) : Prop where
  same : types = replicate types.length t
  nonempty : types ≠ []
  supported : t ≠ .notSupported
  plain : t = .plainCommand → types.length = 1

theorem sameTypes_replicate (ht : t ≠ .notSupported) (n : Nat) :
    sameTypes t (replicate n t) = .ok n := by
  induction n with
  | zero => rfl
  | succ n ih => rw [replicate_succ, sameTypes, if_neg ht, if_pos rfl, ih]

theorem sameTypes_ok {types : List FalconMetaServiceType} {more : Nat}
    (h : sameTypes t types = .ok more) :
    types.take more = replicate more t ∧ more ≤ types.length := by
  induction types generalizing more with
  | nil =>
    cases h
    exact ⟨rfl, Nat.le_refl _⟩
  | cons u rest ih => grind [sameTypes]

namespace SingleWorkerTask

section Commands

variable {host : Host} {builder : Builder} {conn : PgConn} {shift : Nat}
  {requestData : SerializedData}

variable {t : FalconMetaServiceType} {types : List FalconMetaServiceType} {command : Command}

/-- What one round of the loop does. -/
theorem constructCommands_cons {rounds segment drawn : Nat} {rest : List FalconMetaServiceType}
    {commands : List Command}
    (h : constructCommands host builder conn shift requestData (rounds + 1) (t :: rest) segment
      drawn = .ok commands) :
    t ≠ .notSupported ∧ ∃ more size command tail drawn',
      (if t = .plainCommand then .ok 0 else sameTypes t rest) = (.ok more : Except Stop Nat) ∧
      serializedDataNextSeveralItemSize host requestData (segment % 2 ^ 32) (more + 1) = .ok size ∧
      segmentCommand builder conn shift requestData t (more + 1) segment size drawn = .ok command ∧
      constructCommands host builder conn shift requestData rounds (rest.drop more) (segment + size)
        drawn' = .ok tail ∧ commands = command :: tail := by
  rw [constructCommands] at h
  (repeat' split at h) <;> cases h
  exact ⟨‹_›, _, _, _, _, _, ‹_›, ‹_›, ‹_›, ‹_›, rfl⟩

/-- **One command only for one segment.** -/
theorem oneSegment_of_constructCommands
    (h : constructCommands host builder conn shift requestData types.length types 0 0 =
      .ok [command]) :
    ∃ t size, OneSegment types t ∧
      serializedDataNextSeveralItemSize host requestData 0 types.length = .ok size ∧
      segmentCommand builder conn shift requestData t types.length 0 size 0 = .ok command := by
  cases types with
  | nil => cases h
  | cons t rest =>
    obtain ⟨ht, more, size, command', tail, drawn', hmore, hsize, hcommand, htail, hcons⟩ :=
      constructCommands_cons h
    obtain ⟨rfl, rfl⟩ := cons.inj hcons
    -- nothing is left for a second round
    have hdrop : rest.drop more = [] := by
      cases hrest : rest.drop more with
      | nil => rfl
      | cons u rest' =>
        have hlen : rest.length ≠ 0 := by
          intro hzero
          rw [length_eq_zero_iff.mp hzero, drop_nil] at hrest
          cases hrest
        obtain ⟨rounds, hrounds⟩ := Nat.exists_eq_succ_of_ne_zero hlen
        rw [hrest, hrounds] at htail
        obtain ⟨_, _, _, _, _, _, _, _, _, _, hnil⟩ := constructCommands_cons htail
        cases hnil
    have hle : rest.length ≤ more := drop_eq_nil_iff.mp hdrop
    have hcount : more = rest.length ∧ rest = replicate rest.length t ∧
        (t = .plainCommand → rest.length = 0) := by
      split at hmore
      · cases hmore
        have hzero : rest.length = 0 := by omega
        rw [length_eq_zero_iff.mp hzero]
        exact ⟨rfl, rfl, fun _ => rfl⟩
      · rename_i hplain
        obtain ⟨htake, hmore⟩ := sameTypes_ok hmore
        have heq : more = rest.length := by omega
        rw [heq, take_length] at htake
        exact ⟨heq, htake, fun h => absurd h hplain⟩
    obtain ⟨rfl, hsame, hplain⟩ := hcount
    refine ⟨t, size, ⟨?_, cons_ne_nil _ _, ht, fun h => congrArg (· + 1) (hplain h)⟩, hsize,
      hcommand⟩
    rw [length_cons, replicate_succ, ← hsame]

/-- **One segment gives one command.** -/
theorem constructCommands_of_oneSegment {size : Nat} (h : OneSegment types t)
    (hsize : serializedDataNextSeveralItemSize host requestData 0 types.length = .ok size)
    (hcommand : segmentCommand builder conn shift requestData t types.length 0 size 0 =
      .ok command) :
    constructCommands host builder conn shift requestData types.length types 0 0 =
      .ok [command] := by
  obtain ⟨n, hn⟩ := Nat.exists_eq_succ_of_ne_zero (mt length_eq_zero_iff.mp h.nonempty)
  have hmore : (if t = .plainCommand then .ok 0 else sameTypes t (replicate n t)) =
      (.ok n : Except Stop Nat) := by
    split
    · rename_i hplain
      have hone := h.plain hplain
      rw [show n = 0 by omega]
    · exact sameTypes_replicate h.supported n
  have hend (segment drawn : Nat) :
      constructCommands host builder conn shift requestData n [] segment drawn = .ok [] := by
    cases n <;> rfl
  rw [h.same]
  simp only [length_replicate, hn] at hsize hcommand ⊢
  rw [replicate_succ, constructCommands, if_neg h.supported, hmore]
  dsimp only
  rw [Nat.zero_mod, hsize]
  dsimp only
  rw [hcommand, drop_replicate, Nat.sub_self, replicate_zero, hend]

end Commands

/-- A result that the task can make a reply of. -/
def Usable (answer : Answer) : Command → PgResult → Prop
  | _, .failed _ => True
  | .plain _, .tuples _ _ => True
  | .metaCall _ _ _ signature, .tuples fields rows =>
    rows.length = 1 ∧ fields = 1 ∧ (answer.block (firstValue rows)).signature = signature ∧
      (answer.block (firstValue rows)).bytes.length % 4 = 0

/-- The block of a reply is copied as it is. -/
theorem append_block (fresh : Nat → Byte) (block : Block) (h : block.bytes.length % 4 = 0) :
    ∃ one reply, block.serializedData = some one ∧
      serializedDataAppend (some fresh) serializedDataInitEmpty one = .ok reply ∧
      reply.buffer.take reply.size = block.bytes := by
  have hsmall := block.small
  unfold pageSize sizeofMemoryHdr at hsmall
  obtain ⟨reply, happend, hbytes⟩ := append_empty fresh
    ⟨block.bytes ++ block.behind, block.bytes.length, false⟩ (by
      simp only [SerializedData.capacity, length_append]
      omega) (by
      dsimp only
      omega)
  refine ⟨_, reply, ?_, happend, hbytes.trans take_left⟩
  rw [Block.serializedData, serializedDataInitShared, if_neg (not_not.mpr h)]

variable {command : Command} {host : Host} {builder : Builder} {conn : PgConn} {job : Job}

theorem oneReply_isOk_iff (host : Host) (builder : Builder) (conn : PgConn) {answer : Answer}
    {res : PgResult} :
    (∃ reply, oneReply host builder conn answer command res serializedDataInitEmpty = .ok reply) ↔
      Usable answer command res := by
  cases res with
  | failed message =>
    obtain ⟨reply, _, _, hput, -⟩ :=
      putSegment_empty host conn.fresh (builder.metaResponse (errorCodeOf message))
    exact ⟨fun _ => by cases command <;> trivial, fun _ => ⟨reply, hput⟩⟩
  | tuples fields rows =>
    cases command with
    | plain text =>
      obtain ⟨reply, _, _, hput, -⟩ := putSegment_empty host conn.fresh
        (builder.plainCommandResponse rows.length fields (rows.flatten.map Cell.text))
      exact ⟨fun _ => trivial, fun _ => ⟨reply, hput⟩⟩
    | metaCall t count shift signature =>
      constructor
      · rintro ⟨reply, h⟩
        simp only [oneReply, Block.serializedData, serializedDataInitShared] at h
        simp only [Usable]
        grind
      · rintro ⟨hrows, hfields, hsign, halign⟩
        obtain ⟨one, reply, hone, happend, -⟩ := append_block conn.fresh _ halign
        refine ⟨reply, ?_⟩
        simp only [oneReply]
        rw [if_neg (by simp [hrows, hfields]), if_neg (not_not.mpr hsign), hone]
        dsimp only
        rw [happend]

/-- Where the parameter of the job is put. -/
def paramShift (conn : PgConn) (job : Job) : Nat :=
  falconShmemAllocatorMalloc conn.pick job.getReqDatasize

/-- What comes back when `command` is sent for the job. -/
def answerTo (conn : PgConn) (job : Job) (command : Command) : Answer :=
  conn.answer [command] (paramShift conn job) (job.data ++ conn.behind)

/-- The command for the operations of a job, when there is one: for a plain command the item has to
hold one. -/
def CommandFor (host : Host) (builder : Builder) (conn : PgConn) (job : Job)
    (t : FalconMetaServiceType) (command : Command) : Prop :=
  if t = .plainCommand then
    ∃ size text, serializedDataNextSeveralItemSize host
        ⟨job.data ++ conn.behind, job.getReqDatasize, false⟩ 0 1 = .ok size ∧
      builder.plainCommand ((job.data ++ conn.behind).drop 4) (toInt32 (size - 4)) =
        .command text ∧
      command = .plain text
  else command = .metaCall t job.getReqServiceCnt (paramShift conn job) (conn.signature 0)

/-- **When a single task succeeds**: there is a block for the parameter, the size of the
attachment is a multiple of four, the operations go into one command, this is sent, and exactly
one result comes back, which can be used. -/
def Succeeds (host : Host) (builder : Builder) (conn : PgConn) (job : Job) : Prop :=
  paramShift conn job ≠ 0 ∧ job.getReqDatasize % 4 = 0 ∧
    ∃ t command res, OneSegment job.types t ∧ CommandFor host builder conn job t command ∧
      conn.sendQuery [command] = true ∧ (answerTo conn job command).results = [res] ∧
      Usable (answerTo conn job command) command res

theorem commandFor_iff {t : FalconMetaServiceType} (h : OneSegment job.types t) :
    CommandFor host builder conn job t command ↔ ∃ size,
      serializedDataNextSeveralItemSize host ⟨job.data ++ conn.behind, job.getReqDatasize, false⟩ 0
        job.types.length = .ok size ∧
      segmentCommand builder conn (paramShift conn job)
        ⟨job.data ++ conn.behind, job.getReqDatasize, false⟩ t job.types.length 0 size 0 =
          .ok command := by
  unfold CommandFor segmentCommand
  by_cases hplain : t = .plainCommand
  · simp only [if_pos hplain, h.plain hplain, Nat.zero_add]
    constructor
    · rintro ⟨size, text, hsize, htext, rfl⟩
      exact ⟨size, hsize, by rw [htext]⟩
    · rintro ⟨size, hsize, hcommand⟩
      split at hcommand
      · cases hcommand
      · cases hcommand
      · rename_i text htext
        cases hcommand
        exact ⟨size, text, hsize, htext, rfl⟩
  · simp only [if_neg hplain, Nat.add_zero, Except.ok.injEq]
    constructor
    · rintro rfl
      have hroom : (job.getReqDatasize) + 4 ≤ (job.data ++ conn.behind).length := by
        rw [length_append]
        exact Nat.add_le_add_left conn.readable _
      obtain ⟨size, hsize⟩ := @nextItems_isOk host
        ⟨job.data ++ conn.behind, job.getReqDatasize, false⟩ 0 hroom job.types.length 0
        (Nat.zero_le _)
      exact ⟨size, by rw [serializedDataNextSeveralItemSize, if_neg (by decide), hsize], rfl⟩
    · rintro ⟨_, _, rfl⟩
      rfl

/-- What a task that comes to its end has gone through. -/
theorem reply_ok {data : List Byte} (hne : job.types ≠ [])
    (h : reply host builder conn job = .ok data) :
    paramShift conn job ≠ 0 ∧ job.getReqDatasize % 4 = 0 ∧
      ∃ t command res r, OneSegment job.types t ∧ CommandFor host builder conn job t command ∧
        conn.sendQuery [command] = true ∧ (answerTo conn job command).results = [res] ∧
        oneReply host builder conn (answerTo conn job command) command res serializedDataInitEmpty =
          .ok r ∧
        data = r.buffer.take r.size := by
  unfold reply serializedDataInitShared at h
  dsimp only at h
  (repeat' split at h) <;> cases h
  rename_i hshift _ requestData hinit _ commands hcommands hsent hcount _ r hr
  rw [not_not] at hsent hcount
  have halign : job.getReqDatasize % 4 = 0 := by grind
  rw [if_neg (not_not.mpr halign)] at hinit
  cases hinit
  -- the loop gives a command, and not more than one can have been sent
  cases commands with
  | nil =>
    obtain ⟨n, hn⟩ := Nat.exists_eq_succ_of_ne_zero (mt length_eq_zero_iff.mp hne)
    obtain ⟨t, rest, hcons⟩ := exists_cons_of_ne_nil hne
    rw [hn, hcons] at hcommands
    obtain ⟨_, _, _, _, _, _, _, _, _, _, hnil⟩ := constructCommands_cons hcommands
    cases hnil
  | cons command commands =>
    unfold pqSendQuery at hsent
    split at hsent
    · rename_i hsend
      have hnil : commands = [] := by
        rw [length_cons] at hsent
        exact length_eq_zero_iff.mp (by omega)
      subst hnil
      obtain ⟨res, hres⟩ := length_eq_one_iff.mp hcount
      obtain ⟨t, size, hone, hsize, hcommand⟩ := oneSegment_of_constructCommands hcommands
      rw [hres] at hr
      simp only [zip_cons_cons, zip_nil_right, collectReplies] at hr
      split at hr
      · cases hr
      rename_i r' hr'
      cases hr
      exact ⟨hshift, halign, t, command, res, r, hone,
        (commandFor_iff hone).mpr ⟨size, hsize, hcommand⟩, hsend, hres, hr', rfl⟩
    · rw [length_cons] at hsent
      omega

/-- **A single task succeeds exactly then.** -/
theorem reply_isOk_iff (hne : job.types ≠ []) :
    (∃ data, reply host builder conn job = .ok data) ↔ Succeeds host builder conn job := by
  constructor
  · rintro ⟨data, h⟩
    obtain ⟨hshift, halign, t, command, res, r, hone, hcommand, hsend, hres, hr, -⟩ :=
      reply_ok hne h
    exact ⟨hshift, halign, t, command, res, hone, hcommand, hsend, hres,
      (oneReply_isOk_iff host builder conn).mp ⟨r, hr⟩⟩
  · rintro ⟨hshift, halign, t, command, res, hone, hcommand, hsend, hres, husable⟩
    obtain ⟨r, hr⟩ := (oneReply_isOk_iff host builder conn).mpr husable
    obtain ⟨size, hsize, hsegment⟩ := (commandFor_iff hone).mp hcommand
    have hcommands := constructCommands_of_oneSegment hone hsize hsegment
    have hinit : serializedDataInitShared (job.data ++ conn.behind) job.getReqDatasize =
        some ⟨job.data ++ conn.behind, job.getReqDatasize, false⟩ := if_neg (not_not.mpr halign)
    have hsent : pqSendQuery conn [command] = 1 := if_pos hsend
    simp only [reply, paramShift, answerTo] at *
    rw [if_neg hshift, hinit]
    dsimp only
    rw [hcommands]
    dsimp only
    rw [hsent, if_neg (by simp), hres, if_neg (by simp)]
    simp only [zip_cons_cons, zip_nil_right, collectReplies, hr]
    exact ⟨_, rfl⟩

end SingleWorkerTask

/-! ## 7. Batch tasks -/

namespace BatchWorkerTask

@[simp] theorem totalRequestServiceCount_nil : totalRequestServiceCount [] = 0 := rfl

@[simp] theorem totalRequestServiceCount_cons (job : Job) (jobs : List Job) :
    totalRequestServiceCount (job :: jobs) =
      job.getReqServiceCnt + totalRequestServiceCount jobs := by
  simp [totalRequestServiceCount]

section Demultiplex

variable {host : Host} {d : SerializedData}

/-- What the reader answers at an aligned position of a small buffer. -/
theorem nextSeveralItemSize_of_walk {n p q : Nat} (hsmall : d.size < 2 ^ 31) (hp : p ≤ d.size)
    (halign : p % 4 = 0) (h : walk host d n p = some q) :
    serializedDataNextSeveralItemSize host d p n = .ok (q - p) ∧ q - p ≠ sdSizeInvalid ∧
      (p + (q - p)) % 2 ^ 32 = q ∧ q % 4 = 0 ∧ q ≤ d.size := by
  obtain ⟨hle, hmod, hin⟩ := walk_end h
  have hq := hin hp
  refine ⟨?_, ?_, ?_, by omega, hq⟩
  · rw [serializedDataNextSeveralItemSize, if_neg (by omega), nextItems_of_walk h]
    congr 1
    omega
  · unfold sdSizeInvalid
    omega
  · omega

/-- **Cutting the reply apart.**  The jobs that are answered are the first ones, each with the items
that the reader finds behind those of the jobs before it.  All of them are answered, and nothing
stops, exactly if the reader can walk over all the items. -/
theorem demultiplex_spec (hsmall : d.size < 2 ^ 31) (jobs : List Job) :
    ∀ i p : Nat, p ≤ d.size → p % 4 = 0 →
      ∃ datas, (demultiplex host d i p jobs).log = sendEach i datas ∧
        ((demultiplex host d i p jobs).stop = none ↔
          (walk host d (totalRequestServiceCount jobs) p).isSome) ∧
        ((demultiplex host d i p jobs).stop = none → datas.length = jobs.length) ∧
        ∀ k data, datas[k]? = some data → ∃ job q q', jobs[k]? = some job ∧
          walk host d (totalRequestServiceCount (jobs.take k)) p = some q ∧
          walk host d job.getReqServiceCnt q = some q' ∧
          data = (d.buffer.drop q).take (q' - q) := by
  induction jobs with
  | nil =>
    intro i p _ _
    refine ⟨[], rfl, by simp [demultiplex, walk], fun _ => rfl, ?_⟩
    intro k data h
    cases h
  | cons job jobs ih =>
    intro i p hp halign
    cases hwalk : walk host d job.getReqServiceCnt p with
    | none =>
      -- the reader gives up on the items of this job
      have hstop : ∃ stop, demultiplex host d i p (job :: jobs) = ⟨[], some stop⟩ := by
        rw [demultiplex, serializedDataNextSeveralItemSize, if_neg (by omega)]
        rcases nextItems_of_walk_none p hwalk with h | h
        · rw [h]
          exact ⟨_, rfl⟩
        · rw [h]
          dsimp only
          rw [if_pos rfl]
          exact ⟨_, rfl⟩
      obtain ⟨stop, hstop⟩ := hstop
      rw [hstop, totalRequestServiceCount_cons, walk_add, hwalk]
      refine ⟨[], rfl, by simp, ?_, ?_⟩
      · intro h
        cases h
      · intro k data h
        cases h
    | some q =>
      obtain ⟨hnext, hvalid, hp', halign', hq⟩ :=
        nextSeveralItemSize_of_walk hsmall hp halign hwalk
      have hstep : demultiplex host d i p (job :: jobs) =
          ⟨.processResponse i ((d.buffer.drop p).take (q - p)) :: .done i ::
            (demultiplex host d (i + 1) q jobs).log, (demultiplex host d (i + 1) q jobs).stop⟩ := by
        rw [demultiplex, hnext]
        dsimp only
        rw [if_neg hvalid, hp']
      obtain ⟨datas, hlog, hstop, hlen, hcut⟩ := ih (i + 1) q hq halign'
      rw [hstep, totalRequestServiceCount_cons, walk_add, hwalk, Option.bind_some]
      refine ⟨(d.buffer.drop p).take (q - p) :: datas, ?_, hstop, ?_, ?_⟩
      · dsimp only
        rw [hlog, sendEach]
      · intro h
        rw [length_cons, length_cons, hlen h]
      · intro k data hk
        cases k with
        | zero =>
          cases hk
          exact ⟨job, p, q, rfl, rfl, hwalk, rfl⟩
        | succ k =>
          obtain ⟨job', r, r', hjob, hr, hr', hdata⟩ := hcut k data hk
          refine ⟨job', r, r', hjob, ?_, hr', hdata⟩
          rw [take_succ_cons, totalRequestServiceCount_cons, walk_add, hwalk, Option.bind_some, hr]

end Demultiplex

/-- What is asked of the result for a batch. -/
def Usable (host : Host) (answer : Answer) (jobs : List Job) : PgResult → Prop
  | .failed _ => True
  | .tuples fields rows =>
    rows.length = 1 ∧ fields = 1 ∧ firstValue rows ≠ 0 ∧
      let block := answer.block (firstValue rows)
      block.bytes.length % 4 = 0 ∧
        (walk host ⟨block.bytes ++ block.behind, block.bytes.length, false⟩
          (totalRequestServiceCount jobs) 0).isSome

theorem processResponse_notMem_finishAll (jobs : List Job) (i k : Nat) (data : List Byte) :
    Event.processResponse k data ∉ finishAll i jobs := by
  induction jobs generalizing i <;> simp_all [finishAll]

variable {jobs : List Job} {answer : Answer} {res : PgResult} {conn : PgConn}

/-- `Done` alone is no answer. -/
theorem not_served_finishAll (hne : jobs ≠ []) :
    ¬ Outcome.Served ⟨finishAll 0 jobs, none⟩ jobs.length := by
  rintro ⟨-, hserved⟩
  obtain ⟨data, hfilter⟩ := hserved 0 (length_pos_of_ne_nil hne)
  have hmem : Event.processResponse 0 data ∈ finishAll 0 jobs := by
    apply mem_of_mem_filter (p := fun e => e.job == 0)
    rw [hfilter]
    exact mem_cons_self ..
  exact processResponse_notMem_finishAll jobs 0 0 data hmem

theorem respond_served_iff (host : Host) (builder : Builder) (conn : PgConn) (hne : jobs ≠ []) :
    (respond host builder conn jobs answer res).Served jobs.length ↔
      Usable host answer jobs res := by
  cases res with
  | failed message =>
    obtain ⟨reply, _, _, hput, -⟩ :=
      putSegment_empty host conn.fresh (builder.metaResponse (errorCodeOf message))
    have hrespond : respond host builder conn jobs answer (.failed message) =
        ⟨sendEach 0 (jobs.map fun _ => reply.buffer.take reply.size), none⟩ := by
      rw [respond, errorReply, hput]
    rw [hrespond]
    exact ⟨fun _ => trivial, fun _ => served_of_sendEach (length_map ..)⟩
  | tuples fields rows =>
    rw [respond, Usable]
    by_cases hshape : rows.length ≠ 1 ∨ fields ≠ 1
    · rw [if_pos hshape]
      refine ⟨fun h => absurd h not_served_stop, ?_⟩
      rintro ⟨hrows, hfields, -⟩
      exact absurd hshape (by simp [hrows, hfields])
    rw [if_neg hshape]
    rw [not_or, not_not, not_not] at hshape
    by_cases hzero : firstValue rows = 0
    · rw [if_pos hzero]
      exact ⟨fun h => absurd h (not_served_finishAll hne), fun h => absurd hzero h.2.2.1⟩
    rw [if_neg hzero, Block.serializedData, serializedDataInitShared]
    by_cases halign : (answer.block (firstValue rows)).bytes.length % 4 = 0
    · rw [if_neg (not_not.mpr halign)]
      have hsmall := (answer.block (firstValue rows)).small
      unfold pageSize sizeofMemoryHdr at hsmall
      obtain ⟨datas, hlog, hstop, hlen, -⟩ := @demultiplex_spec host
        ⟨(answer.block (firstValue rows)).bytes ++ (answer.block (firstValue rows)).behind,
          (answer.block (firstValue rows)).bytes.length, false⟩ (by dsimp only; omega) jobs 0 0
        (Nat.zero_le _) rfl
      constructor
      · intro h
        exact ⟨hshape.1, hshape.2, hzero, halign, hstop.mp h.1⟩
      · rintro ⟨-, -, -, -, hwalk⟩
        have hnone := hstop.mpr hwalk
        have hserved := served_of_sendEach (hlen hnone)
        rw [← hlog] at hserved
        exact ⟨hnone, hserved.2⟩
    · rw [if_pos halign]
      exact ⟨fun h => absurd h not_served_stop, fun h => absurd h.2.2.2.1 halign⟩

def paramShift (conn : PgConn) (jobs : List Job) : Nat :=
  falconShmemAllocatorMalloc conn.pick (totalRequestParamDataSize jobs)

/-- The command for a batch whose first operation has type `t`. -/
def command (conn : PgConn) (jobs : List Job) (t : FalconMetaServiceType) : Command :=
  .metaCall t (totalRequestServiceCount jobs % 2 ^ 32) (paramShift conn jobs) (conn.signature 0)

def answerTo (conn : PgConn) (jobs : List Job) (t : FalconMetaServiceType) : Answer :=
  conn.answer [command conn jobs t] (paramShift conn jobs) (mergedData jobs ++ conn.behind)

/-- The type that the whole batch is sent with. -/
def FirstType (jobs : List Job) (t : FalconMetaServiceType) : Prop :=
  ∃ job, jobs.head? = some job ∧ job.getFalconMetaServiceType 0 = .ok t

/-- **When a batch succeeds**: there is a block for all the parameters, their sizes are multiples of
four, the command is sent, and a result comes back that can be used. -/
def Succeeds (host : Host) (conn : PgConn) (jobs : List Job) : Prop :=
  paramShift conn jobs ≠ 0 ∧ (∀ job ∈ jobs, job.getReqDatasize % 4 = 0) ∧
    ∃ t res rest, FirstType jobs t ∧ conn.sendQuery [command conn jobs t] = true ∧
      (answerTo conn jobs t).results = res :: rest ∧ Usable host (answerTo conn jobs t) jobs res

/-- The query of a batch.  A total that does not fit into 32 bits is too large for the allocator,
and when it wraps the block is too small. -/
theorem request_ok_iff {c : Command} {shift : Nat} : request conn jobs = .ok (c, shift) ↔
      paramShift conn jobs ≠ 0 ∧ (∀ job ∈ jobs, job.getReqDatasize % 4 = 0) ∧
        shift = paramShift conn jobs ∧ ∃ t, FirstType jobs t ∧ c = command conn jobs t := by
  cases jobs with
  | nil =>
    constructor
    · intro h
      cases h
    · rintro ⟨-, -, -, t, ⟨job, hjob, -⟩, -⟩
      cases hjob
  | cons first rest =>
    have hany : (first :: rest).any (fun job => job.getReqDatasize % 4 ≠ 0) = true ↔
        ¬ ∀ job ∈ first :: rest, job.getReqDatasize % 4 = 0 := by
      simp only [any_eq_true, decide_eq_true_eq, not_forall, exists_prop, ne_eq]
    constructor
    · intro h
      have hle := Nat.mod_le (totalRequestParamDataSize (first :: rest)) (2 ^ 32)
      simp only [request] at h
      (repeat' split at h) <;> cases h
      rename_i t ht haligned hshift hfits
      rw [hany, not_not] at haligned
      have htotal : totalRequestParamDataSize (first :: rest) % 2 ^ 32 =
          totalRequestParamDataSize (first :: rest) := by omega
      simp only [htotal] at hshift ⊢
      exact ⟨hshift, haligned, rfl, t, ⟨first, rfl, ht⟩, rfl⟩
    · rintro ⟨hshift, haligned, rfl, t, ⟨job, hjob, ht⟩, rfl⟩
      cases hjob
      have hle := malloc_size_le hshift
      unfold pageSize sizeofMemoryHdr at hle
      have htotal : totalRequestParamDataSize (first :: rest) % 2 ^ 32 =
          totalRequestParamDataSize (first :: rest) := Nat.mod_eq_of_lt (by omega)
      unfold paramShift at hshift
      rw [request, ht]
      dsimp only
      rw [if_neg (by rw [hany, not_not]; exact haligned), htotal, if_neg hshift,
        if_neg (Nat.lt_irrefl _)]
      rfl

theorem call_ok_iff : call conn jobs = .ok (answer, res) ↔
      paramShift conn jobs ≠ 0 ∧ (∀ job ∈ jobs, job.getReqDatasize % 4 = 0) ∧
        ∃ t rest, FirstType jobs t ∧ conn.sendQuery [command conn jobs t] = true ∧
          answer = answerTo conn jobs t ∧ answer.results = res :: rest := by
  constructor
  · intro h
    unfold call at h
    split at h
    · cases h
    rename_i c shift hrequest
    obtain ⟨hshift, haligned, rfl, t, ht, rfl⟩ := request_ok_iff.mp hrequest
    dsimp only at h
    (repeat' split at h) <;> cases h
    rename_i hsent _ rest hresults
    have hsend : conn.sendQuery [command conn jobs t] = true := by
      by_contra hfail
      exact hsent (by simp [pqSendQuery, hfail])
    exact ⟨hshift, haligned, t, rest, ht, hsend, rfl, hresults⟩
  · rintro ⟨hshift, haligned, t, rest, ht, hsend, rfl, hresults⟩
    have hrequest := request_ok_iff.mpr ⟨hshift, haligned, rfl, t, ht, rfl⟩
    have hsent : pqSendQuery conn [command conn jobs t] = 1 := if_pos hsend
    unfold answerTo at hresults
    rw [call, hrequest]
    dsimp only
    rw [hsent, if_neg (not_not.mpr rfl), hresults]
    rfl

/-- **A batch serves its jobs exactly then.** -/
theorem doWork_served_iff (host : Host) (builder : Builder) (conn : PgConn) (jobs : List Job) :
    (doWork host builder conn jobs).Served jobs.length ↔ Succeeds host conn jobs := by
  have hne {t : FalconMetaServiceType} (ht : FirstType jobs t) : jobs ≠ [] := by
    rintro rfl
    obtain ⟨job, hjob, -⟩ := ht
    cases hjob
  constructor
  · intro h
    unfold doWork at h
    split at h
    · exact absurd h not_served_stop
    rename_i answer res hcall
    obtain ⟨hshift, haligned, t, rest, ht, hsend, rfl, hresults⟩ := call_ok_iff.mp hcall
    exact ⟨hshift, haligned, t, res, rest, ht, hsend, hresults,
      (respond_served_iff host builder conn (hne ht)).mp h⟩
  · rintro ⟨hshift, haligned, t, res, rest, ht, hsend, hresults, husable⟩
    have hcall := call_ok_iff.mpr ⟨hshift, haligned, t, rest, ht, hsend, rfl, hresults⟩
    rw [doWork, hcall]
    exact (respond_served_iff host builder conn (hne ht)).mpr husable

end BatchWorkerTask

/-! ## 8. The thread -/

/-- **What a task asks of its jobs and of everything outside.** -/
def WorkerTask.Succeeds (host : Host) (builder : Builder) (conn : PgConn) : WorkerTask → Prop
  | single job => SingleWorkerTask.Succeeds host builder conn job
  | batch jobs => BatchWorkerTask.Succeeds host conn jobs

theorem types_ne_nil_of_dispatch {job : Job} {queue : FalconBatchServiceType}
    (h : dispatchMetaServiceJob job = .ok (some queue)) : job.types ≠ [] := by
  intro hnil
  rw [dispatchMetaServiceJob, Job.isEmptyRequest, hnil] at h
  cases h

theorem SingleWorkerTask.doWork_served_iff {host : Host} {builder : Builder} {conn : PgConn}
    {job : Job} (hne : job.types ≠ []) :
    (doWork host builder conn job).Served 1 ↔ Succeeds host builder conn job := by
  rw [← reply_isOk_iff hne, doWork]
  constructor
  · intro h
    split at h
    · exact absurd h not_served_stop
    · rename_i data hreply
      exact ⟨data, hreply⟩
  · rintro ⟨data, hreply⟩
    rw [hreply]
    have hserved : Outcome.Served ⟨sendEach 0 [data], none⟩ 1 := served_of_sendEach rfl
    exact hserved

theorem WorkerTask.doWork_served_iff (host : Host) (builder : Builder) (conn : PgConn)
    {task : WorkerTask} (h : task.Handed) :
    (task.doWork host builder conn).Served task.jobs.length ↔ task.Succeeds host builder conn := by
  cases task with
  | single job => exact SingleWorkerTask.doWork_served_iff (types_ne_nil_of_dispatch h)
  | batch jobs => exact BatchWorkerTask.doWork_served_iff host builder conn jobs

/-- **Every job is answered once and the thread goes on, exactly as long as every task succeeds.**
The outcomes are those of all the tasks only if none of them has stopped the thread. -/
theorem thread_serves_iff (host : Host) (builder : Builder) (tasks : List (PgConn × WorkerTask))
    (hhanded : ∀ ct ∈ tasks, ct.2.Handed) :
    List.Forall₂ (fun ct o => Outcome.Served o ct.2.jobs.length) tasks
        (backgroundWorker host builder tasks) ↔
      ∀ ct ∈ tasks, ct.2.Succeeds host builder ct.1 := by
  induction tasks with
  | nil => simp [backgroundWorker]
  | cons ct tasks ih =>
    obtain ⟨conn, task⟩ := ct
    have htask := WorkerTask.doWork_served_iff host builder conn
      (hhanded (conn, task) (mem_cons_self ..))
    have ih := ih fun ct hct => hhanded ct (mem_cons_of_mem _ hct)
    rw [backgroundWorker]
    cases hstop : (task.doWork host builder conn).stop with
    | none =>
      rw [forall₂_cons, ih, htask, forall_mem_cons]
    | some stop =>
      constructor
      · intro h
        rw [forall₂_cons] at h
        cases hstop.symm.trans h.1.1
      · intro h
        have hserved := htask.mpr (h (conn, task) (mem_cons_self ..))
        cases hstop.symm.trans hserved.1

theorem nothingSmall : ([] : List Byte).length ≤ pageSize - sizeofMemoryHdr := by decide

theorem wordBehind : 4 ≤ ([0, 0, 0, 0] : List Byte).length := by decide

/-- A connection on which everything goes well: a reply of one empty item per command. -/
def quietConn : PgConn where
  pick _ := 24
  signature _ := 7
  behind := [0, 0, 0, 0]
  readable := wordBehind
  fresh _ := 0
  sendQuery _ := true
  errorMessage := ""
  answer commands _ _ :=
    { results := commands.map fun _ => .tuples 1 [[⟨"64", 64⟩]]
      block := fun _ => ⟨7, [0, 0, 0, 0], [0, 0, 0, 0], by decide, wordBehind⟩ }

def emptyBuilder : Builder where
  metaResponse _ := ⟨[], by decide⟩
  plainCommandResponse _ _ _ := ⟨[], by decide⟩
  plainCommand _ _ := .corrupt

theorem thread_serves_iff_stat :
    (∀ ct ∈ [(quietConn, WorkerTask.single ⟨[.stat], false, [0, 0, 0, 0]⟩)], ct.2.Handed) ∧
      List.Forall₂ (fun ct o => Outcome.Served o ct.2.jobs.length)
        [(quietConn, WorkerTask.single ⟨[.stat], false, [0, 0, 0, 0]⟩)]
        (backgroundWorker .little emptyBuilder
          [(quietConn, WorkerTask.single ⟨[.stat], false, [0, 0, 0, 0]⟩)]) := by
  have hhanded : ∀ ct ∈ [(quietConn, WorkerTask.single ⟨[.stat], false, [0, 0, 0, 0]⟩)],
      ct.2.Handed := by
    intro ct hct
    rw [mem_singleton.mp hct]
    rfl
  refine ⟨hhanded, (thread_serves_iff .little emptyBuilder _ hhanded).mpr ?_⟩
  intro ct hct
  rw [mem_singleton.mp hct]
  exact ⟨by decide, rfl, .stat, .metaCall .stat 1 24 7, .tuples 1 [[⟨"64", 64⟩]],
    ⟨rfl, by decide, by decide, by decide⟩, rfl, rfl, rfl, rfl, rfl, rfl, rfl⟩

/-- **Two types in one request.**  Everything goes well, and the task throws: one query was sent,
and there are two commands in it. -/
theorem mixed_types_stop_thread :
    (WorkerTask.single ⟨[.stat, .openFile], false, [0, 0, 0, 0, 0, 0, 0, 0]⟩).Handed ∧
      backgroundWorker .little emptyBuilder
        [(quietConn, .single ⟨[.stat, .openFile], false, [0, 0, 0, 0, 0, 0, 0, 0]⟩)] =
          [⟨[], some (.threw "")⟩] ∧
      ¬ Outcome.Served ⟨[], some (.threw "")⟩ 1 :=
  ⟨rfl, rfl, not_served_stop⟩

end FalconFS.Connection
