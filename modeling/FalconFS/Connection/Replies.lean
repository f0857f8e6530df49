/-
# From the requests to the replies

Both kinds of tasks with PostgreSQL at the other end: the query that a task sends runs
`falcon_meta_call_by_serialized_shmem_internal` on the parameter that the task has put into shared
memory.  What a job gets then depends on three countings that have to agree: how many operations the
job says it has, how many items the call answers, and how many items the task cuts out of the reply.

* Section 3 follows a batch through merging, decoding, sorting, encoding and cutting, and ends with
  the result of every request in the reply of its own job (`batch_demultiplexing`).
* Section 4 counts.  An error is one item, whatever the number of operations, and so is the answer
  of the services that do not look at the count; with those two the counts disagree as soon as a job
  has more than one operation.  And nobody compares the number of items in an attachment with the
  number of operations: the call reads one item after the other, so a job whose attachment has one
  more shifts the jobs behind it in a batch, which are then answered for the items of others
  (`reply_counts_iff`).
-/
import FalconFS.Connection.WorkerTask

namespace FalconFS.Connection

open Frames Scatter List BatchWorkerTask Option

/-! ## 1. The items of a reply -/

/-- The loop of `replyItems`; there are no more items than bytes. -/
def splitItems (host : Host) : Nat → List Byte → Option (List (List Byte))
  | 0, bytes => if bytes = [] then some [] else none
  | rounds + 1, bytes =>
    if bytes = [] then some []
    else
      let size := getSize host (bytes.take 4)
      if bytes.length < 4 ∨ size % 4 ≠ 0 ∨ bytes.length < 4 + size then none
      else (splitItems host rounds (bytes.drop (4 + size))).map ((bytes.drop 4).take size :: ·)

/-- The items that a reader finds in a reply, if there is nothing else in it. -/
def replyItems (host : Host) (bytes : List Byte) : Option (List (List Byte)) :=
  splitItems host bytes.length bytes

theorem splitItems_frames (host : Host) (bodies : List (List Byte)) :
    ∀ rounds : Nat, bodies.length ≤ rounds → (∀ b ∈ bodies, IsBlock b) →
      splitItems host rounds (frames (sizeCodec host) bodies) = some bodies := by
  induction bodies with
  | nil =>
    intro rounds _ _
    cases rounds <;> rfl
  | cons b bodies ih =>
    intro rounds hrounds hblocks
    obtain ⟨⟨halign, hsmall⟩, hblocks⟩ := forall_mem_cons.mp hblocks
    cases rounds with
    | zero => exact absurd hrounds (Nat.not_succ_le_zero _)
    | succ rounds =>
      have hcons : frames (sizeCodec host) (b :: bodies) =
          putSize host b.length ++ (b ++ frames (sizeCodec host) bodies) := by
        rw [frames_cons, frame, append_assoc]
        rfl
      have hput : (putSize host b.length).length = 4 := Host.length_store host _
      have hlen : (frames (sizeCodec host) (b :: bodies)).length =
          4 + (b.length + (frames (sizeCodec host) bodies).length) := by
        rw [hcons, length_append, length_append, hput]
      have hsize : getSize host ((frames (sizeCodec host) (b :: bodies)).take 4) = b.length := by
        rw [hcons, take_left' hput]
        exact getSize_putSize host _ hsmall
      have hbody : (frames (sizeCodec host) (b :: bodies)).drop 4 =
          b ++ frames (sizeCodec host) bodies := by
        rw [hcons, drop_left' hput]
      have hne : frames (sizeCodec host) (b :: bodies) ≠ [] := by
        intro hnil
        rw [hnil, length_nil] at hlen
        omega
      rw [splitItems, if_neg hne]
      dsimp only
      rw [hsize, if_neg (by omega), ← drop_drop, hbody, drop_left, take_left,
        ih rounds (Nat.le_of_succ_le_succ hrounds) hblocks, map_some]

/-- Every item takes at least its header. -/
theorem length_le_frames (host : Host) (bodies : List (List Byte)) :
    4 * bodies.length ≤ (frames (sizeCodec host) bodies).length := by
  induction bodies with
  | nil => exact Nat.le_refl _
  | cons b bodies ih =>
    have hwidth : (sizeCodec host).width = 4 := rfl
    rw [frames_cons, length_append, length_frame, length_cons, hwidth]
    omega

/-- **A framed reply has the items it was made of.** -/
theorem replyItems_frames {host : Host} {bodies : List (List Byte)} (h : ∀ b ∈ bodies, IsBlock b) :
    replyItems host (frames (sizeCodec host) bodies) = some bodies := by
  have hle := length_le_frames host bodies
  exact splitItems_frames host bodies _ (by omega) h

theorem replyItems_cut {host : Host} {bodies : List (List Byte)} (h : ∀ b ∈ bodies, IsBlock b)
    (i n : Nat) :
    replyItems host (frames (sizeCodec host) ((bodies.drop i).take n)) =
      some ((bodies.drop i).take n) :=
  replyItems_frames fun b hb => h b (mem_of_mem_drop (mem_of_mem_take hb))

/-! ## 2. PostgreSQL at the other end -/

/-- The server process behind a connection.  `lost` is what the client reports if the connection
breaks or the statement is cancelled, `other` is what any other query brings.  `severity` is what
the client library puts before the text of an error, `ERROR:  ` if messages are not translated. -/
structure Pg (α β : Type) where
  backend : Backend α β
  severity : String
  lost : Option String
  other : List Command → Nat → List Byte → Answer

def emptyBlock : Block := ⟨0, [], [0, 0, 0, 0], nothingSmall, wordBehind⟩

/-- What comes back for a query; `base` is where the parameter is, `memory` what is there. -/
def Pg.answer {α β : Type} (pg : Pg α β) (host : Host) (commands : List Command) (base : Nat)
    (memory : List Byte) : Answer :=
  match commands, pg.lost with
  | [.metaCall _ _ _ _], some message => ⟨[.failed message], fun _ => emptyBlock⟩
  | [.metaCall t count shift signature], none =>
    match falconMetaCallBySerializedShmemInternal pg.backend host t count shift signature
      (memory.drop (shift - base)) with
    | .error message => ⟨[.failed (pg.severity ++ message)], fun _ => emptyBlock⟩
    | .ok (reply, block) => ⟨[.tuples 1 [[⟨toString reply, reply⟩]]], fun _ => block⟩
  | _, _ => pg.other commands base memory

section Pg

variable {α β : Type} {pg : Pg α β} {host : Host}

/-- **The two ways in which a call comes back.** -/
theorem Pg.answer_cases (pg : Pg α β) (host : Host) (t : FalconMetaServiceType) (count base : Nat)
    (signature : Int) (memory : List Byte) :
    (∃ message, (pg.answer host [.metaCall t count base signature] base memory).results =
      [.failed message]) ∨
    (∃ reply block, falconMetaCallBySerializedShmemInternal pg.backend host t count base signature
        memory = .ok (reply, block) ∧
      pg.answer host [.metaCall t count base signature] base memory =
        ⟨[.tuples 1 [[⟨toString reply, reply⟩]]], fun _ => block⟩) := by
  unfold Pg.answer
  cases pg.lost with
  | some message => exact .inl ⟨message, rfl⟩
  | none =>
    dsimp only
    rw [Nat.sub_self, drop_zero]
    cases falconMetaCallBySerializedShmemInternal pg.backend host t count base signature memory with
    | error message => exact .inl ⟨_, rfl⟩
    | ok r => exact .inr ⟨r.1, r.2, rfl, rfl⟩

end Pg

/-! ## 3. Batches -/

section Forall₂

variable {α β : Type} {R : α → β → Prop} {xs : List α} {ys : List β} {i : Nat}

theorem forall₂_getElem?_left (h : List.Forall₂ R xs ys) {x : α} (hx : xs[i]? = some x) :
    ∃ y, ys[i]? = some y ∧ R x y := by
  obtain ⟨hi, rfl⟩ := List.getElem?_eq_some_iff.mp hx
  have hi' : i < ys.length := h.length_eq ▸ hi
  exact ⟨ys[i], getElem?_eq_getElem hi', (forall₂_iff_get.mp h).2 i hi hi'⟩

theorem forall₂_getElem?_right (h : List.Forall₂ R xs ys) {y : β} (hy : ys[i]? = some y) :
    ∃ x, xs[i]? = some x ∧ R x y := by
  obtain ⟨hi, rfl⟩ := List.getElem?_eq_some_iff.mp hy
  have hi' : i < xs.length := h.length_eq ▸ hi
  exact ⟨xs[i], getElem?_eq_getElem hi', (forall₂_iff_get.mp h).2 i hi' hi⟩

end Forall₂

section Framed

variable {host : Host} {bodies : List (List Byte)}

/-- The reader does not find more items than there are. -/
theorem walk_of_frames {d : SerializedData} {rest : List Byte}
    (hb : d.buffer = frames (sizeCodec host) bodies ++ rest)
    (hblocks : ∀ b ∈ bodies, IsBlock b) (hsize : d.size = (frames (sizeCodec host) bodies).length)
    {n i q : Nat} (hi : i ≤ bodies.length)
    (h : walk host d n (offset (sizeCodec host) bodies i) = some q) :
    i + n ≤ bodies.length ∧ q = offset (sizeCodec host) bodies (i + n) := by
  have hwalk := walk_frames hb hblocks hsize.ge
  by_cases hin : i + n ≤ bodies.length
  · rw [hwalk n i hin] at h
    exact ⟨hin, (some.inj h).symm⟩
  · -- the walk comes to the end of the data and would have to go on
    obtain ⟨m, hm⟩ : ∃ m, n = (bodies.length - i) + (m + 1) :=
      ⟨n - (bodies.length - i) - 1, by omega⟩
    have hend := hwalk (bodies.length - i) i (by omega)
    rw [show i + (bodies.length - i) = bodies.length by omega, offset_length] at hend
    rw [hm, walk_add, hend, bind_some, walk] at h
    obtain ⟨r, hr, -⟩ := bind_eq_some_iff.mp h
    have hpast := itemEnd_eq_some hr
    omega

/-- **The reply of a batch, cut apart**: every job that is answered gets as many items as it has
operations, those behind the items of the jobs before it. -/
theorem demultiplex_frames {block : Block} (hbytes : block.bytes = frames (sizeCodec host) bodies)
    (hblocks : ∀ b ∈ bodies, IsBlock b) (jobs : List Job) :
    ∃ replyData datas, block.serializedData = some replyData ∧
      (demultiplex host replyData 0 0 jobs).log = sendEach 0 datas ∧
      (totalRequestServiceCount jobs ≤ bodies.length →
        (demultiplex host replyData 0 0 jobs).stop = none ∧
          datas.length = jobs.length) ∧
      ∀ k data, datas[k]? = some data → ∃ job, jobs[k]? = some job ∧
        totalRequestServiceCount (jobs.take k) + job.getReqServiceCnt ≤ bodies.length ∧
        data = frames (sizeCodec host)
          ((bodies.drop (totalRequestServiceCount (jobs.take k))).take
            job.getReqServiceCnt) := by
  have hsmall := block.small
  unfold Shmem.pageSize Shmem.sizeofMemoryHdr at hsmall
  have hbuffer : block.bytes ++ block.behind = frames (sizeCodec host) bodies ++ block.behind := by
    rw [hbytes]
  have hsize : block.bytes.length = (frames (sizeCodec host) bodies).length := by rw [hbytes]
  have hwalk := @walk_frames host ⟨block.bytes ++ block.behind, block.bytes.length, false⟩ bodies
    block.behind hbuffer hblocks hsize.ge
  have halign : block.bytes.length % 4 = 0 := by
    have hall := hwalk bodies.length 0 (by omega)
    rw [Nat.zero_add, offset_length, ← hsize] at hall
    exact (walk_end hall).2.1
  obtain ⟨datas, hlog, hstop, hlen, hcut⟩ := @demultiplex_spec host
    ⟨block.bytes ++ block.behind, block.bytes.length, false⟩ (by dsimp only; omega) jobs 0 0
    (Nat.zero_le _) rfl
  refine ⟨⟨block.bytes ++ block.behind, block.bytes.length, false⟩, datas, ?_, hlog, ?_, ?_⟩
  · rw [Block.serializedData, serializedDataInitShared, if_neg (not_not.mpr halign)]
  · intro htotal
    have hall := hwalk (totalRequestServiceCount jobs) 0 (by omega)
    rw [offset_zero] at hall
    have hnone := hstop.mpr (by rw [hall]; rfl)
    exact ⟨hnone, hlen hnone⟩
  · intro k data hk
    obtain ⟨job, q, q', hjob, hq, hq', hdata⟩ := hcut k data hk
    obtain ⟨hbefore, rfl⟩ := walk_of_frames (i := 0) hbuffer hblocks hsize (Nat.zero_le _) hq
    rw [Nat.zero_add] at hbefore hq' hdata
    obtain ⟨hin, rfl⟩ := walk_of_frames hbuffer hblocks hsize hbefore hq'
    refine ⟨job, hjob, hin, ?_⟩
    rw [hdata]
    dsimp only
    rw [hbuffer, take_frames]

end Framed

/-- A job with these requests, all of type `t`. -/
structure Carries (host : Host) (t : FalconMetaServiceType) (job : Job)
    (requests : List (List Byte)) : Prop where
  types : job.types = replicate requests.length t
  nonempty : requests ≠ []
  data : job.data = frames (sizeCodec host) requests
  blocks : ∀ r ∈ requests, IsBlock r

/-- The type that a batch is sent with is the type of its requests. -/
theorem Carries.type_eq {host : Host} {t t' : FalconMetaServiceType} {job : Job}
    {requests : List (List Byte)} (h : Carries host t job requests)
    (hget : job.getFalconMetaServiceType 0 = .ok t') : t' = t := by
  obtain ⟨n, hn⟩ := Nat.exists_eq_succ_of_ne_zero (mt length_eq_zero_iff.mp h.nonempty)
  rw [Job.getFalconMetaServiceType, h.types, hn, replicate_succ, getElem?_cons_zero] at hget
  dsimp only at hget
  split at hget
  · cases hget
  · cases hget
    rfl

section Merge

variable {host : Host} {t : FalconMetaServiceType} {jobs : List Job}
  {requests : List (List (List Byte))}

theorem mergedData_eq (h : List.Forall₂ (Carries host t) jobs requests) :
    mergedData jobs = frames (sizeCodec host) requests.flatten := by
  induction h with
  | nil => rfl
  | cons hjob _ ih =>
    rw [flatten_cons, frames_append, ← ih, ← hjob.data]
    rfl

theorem totalRequestServiceCount_eq (h : List.Forall₂ (Carries host t) jobs requests) :
    totalRequestServiceCount jobs = requests.flatten.length := by
  induction h with
  | nil => rfl
  | cons hjob _ ih =>
    rw [totalRequestServiceCount_cons, ih, flatten_cons, length_append,
      Job.getReqServiceCnt, hjob.types, length_replicate]

theorem totalRequestParamDataSize_eq (jobs : List Job) :
    totalRequestParamDataSize jobs = (mergedData jobs).length := by
  rw [mergedData, length_flatMap]
  rfl

theorem isBlock_of_carries (h : List.Forall₂ (Carries host t) jobs requests) :
    ∀ r ∈ requests.flatten, IsBlock r := by
  intro r hr
  induction h with
  | nil => cases hr
  | cons hjob _ ih =>
    rcases mem_append.mp hr with hr | hr
    · exact hjob.blocks r hr
    · exact ih hr

/-- Where request `k` of job `j` is among all of them. -/
def position (requests : List (List (List Byte))) (j k : Nat) : Nat :=
  (requests.take j).flatten.length + k

theorem getElem?_position {j k : Nat} {own : List (List Byte)} {r : List Byte}
    (hj : requests[j]? = some own) (hk : own[k]? = some r) :
    requests.flatten[position requests j k]? = some r := by
  have hlt : j < requests.length := (List.getElem?_eq_some_iff.mp hj).1
  have hsplit : requests = requests.take j ++ own :: requests.drop (j + 1) := by
    have hget := (List.getElem?_eq_some_iff.mp hj).2
    rw [← hget, ← List.drop_eq_getElem_cons hlt, List.take_append_drop]
  have hk' := (List.getElem?_eq_some_iff.mp hk).1
  have hflat : requests.flatten =
      (requests.take j).flatten ++ (own ++ (requests.drop (j + 1)).flatten) := by
    conv_lhs => rw [hsplit]
    rw [List.flatten_append, List.flatten_cons]
  rw [hflat, position, List.getElem?_append_right (Nat.le_add_right _ _), Nat.add_sub_cancel_left,
    List.getElem?_append_left hk', hk]

end Merge

section Call

variable {α β : Type} {host : Host}

variable {t : FalconMetaServiceType} {bodies : List (List Byte)}

theorem answeredItems_of_batch (h : falconMetaServiceTypeToBatchServiceType t ≠ .notSupport)
    (count : Nat) : answeredItems t count = count := by
  cases t <;> first | rfl | exact absurd rfl h

theorem forall₂_of_mapM {decode : List Byte → Option α} {params : List α}
    (h : bodies.mapM decode = some params) :
    List.Forall₂ (fun b a => decode b = some a) bodies params := by
  induction bodies generalizing params with
  | nil =>
    cases h
    exact .nil
  | cons b bodies ih =>
    rw [mapM_cons] at h
    obtain ⟨a, ha, h⟩ := bind_eq_some_iff.mp h
    obtain ⟨params', hparams, h⟩ := bind_eq_some_iff.mp h
    cases h
    exact .cons ha (ih hparams)

/-- **Every record has the result of its own item** after the handler: the item was decoded into
the record, the handler has found the parameter through the pointer to it, wherever the sort has
put this pointer, and has left there what it has computed. -/
theorem processItems_framed {server : Server α β} {paramBuffer : List Byte} {infos : List β}
    (hframed : Framed host paramBuffer bodies)
    (h : processItems server host t bodies.length paramBuffer = .ok infos) :
    ∃ params results, bodies.mapM (server.decode t) = some params ∧
      server.handle t (gather params (server.order t params)) = .ok results ∧
      ∀ (p : Nat) b, bodies[p]? = some b → ∃ (param : α) (place : Nat) (result : β),
        server.decode t b = some param ∧
        (server.order t params)[place]? = some p ∧
        (gather params (server.order t params))[place]? = some param ∧
        results[place]? = some result ∧ infos[p]? = some result := by
  obtain ⟨-, params, results, hdecode, hhandle, hinfos⟩ := processItems_ok h
  have hframes := hframed.paramDecode (server.decode t) bodies.length 0 (by omega)
  rw [offset_zero, drop_zero, take_length] at hframes
  have hparams := hframes.symm.trans hdecode
  have hdecoded := forall₂_of_mapM hparams
  have hperm := server.order_perm t params
  have hgather : (gather params (server.order t params)).length = params.length := by
    rw [length_gather fun q hq => mem_range.mp (hperm.mem_iff.mp hq), hperm.length_eq,
      length_range]
  have hresults : results.length = params.length :=
    (server.handle_length t _ _ hhandle).trans hgather
  refine ⟨params, results, hparams, hhandle, ?_⟩
  intro p b hp
  obtain ⟨param, hparam, hdec⟩ := forall₂_getElem?_left hdecoded hp
  have hin : p < params.length := (List.getElem?_eq_some_iff.mp hparam).1
  obtain ⟨place, result, hplace, hgot, hresult, hslot⟩ := scatter_of_perm
    (replicate bodies.length server.fresh) hperm hresults
    ((length_replicate ..).trans hdecoded.length_eq) hin
  exact ⟨param, place, result, hdec, hplace, hgot.trans hparam, hresult, hinfos ▸ hslot⟩

/-- **A batch that PostgreSQL reports success for.**  The records of the call are in its block,
and the task goes on to cut this block apart. -/
theorem batch_success {conn : PgConn} {pg : Pg α β} {jobs : List Job} {answer : Answer}
    {fields : Nat} {rows : List (List Cell)} (builder : Builder)
    (hconn : conn.answer = pg.answer host)
    (hok : call conn jobs = .ok (answer, .tuples fields rows)) :
    ∃ t infos bodies block, BatchWorkerTask.FirstType jobs t ∧
      paramShift conn jobs ≠ 0 ∧
      processItems pg.backend.server host t
        (answeredItems t (totalRequestServiceCount jobs % 2 ^ 32))
        (mergedData jobs ++ conn.behind) = .ok infos ∧
      List.Forall₂ IsBody (infos.map fun info => (pg.backend.server.encode t info).item) bodies ∧
      (∀ b ∈ bodies, IsBlock b) ∧ block.bytes = frames (sizeCodec host) bodies ∧
      ∀ replyData, Block.serializedData block = some replyData →
        doWork host builder conn jobs =
          demultiplex host replyData 0 0 jobs := by
  obtain ⟨hshift, -, t, rest, ht, -, hanswer, hresults⟩ := call_ok_iff.mp hok
  have hpg : answer = pg.answer host [command conn jobs t]
      (paramShift conn jobs) (mergedData jobs ++ conn.behind) := by
    rw [hanswer, answerTo, hconn]
  rcases pg.answer_cases host t (totalRequestServiceCount jobs % 2 ^ 32)
    (paramShift conn jobs) (conn.signature 0)
    (mergedData jobs ++ conn.behind) with ⟨message, hfailed⟩ | ⟨reply, block, hcall, hans⟩
  · rw [hpg, command, hfailed] at hresults
    cases hresults
  · have hanswer' : answer = ⟨[.tuples 1 [[⟨toString reply, reply⟩]]], fun _ => block⟩ :=
      hpg.trans hans
    subst hanswer'
    cases hresults
    obtain ⟨hreply, -, infos, bodies, hinfos, hbodies, hblocks, hbytes⟩ := call_ok hcall
    refine ⟨t, infos, bodies, block, ht, hshift, hinfos, hbodies, hblocks, hbytes, ?_⟩
    intro replyData hdata
    have hvalue : firstValue [[(⟨toString reply, reply⟩ : Cell)]] = reply := rfl
    rw [doWork, hok]
    dsimp only
    rw [respond, if_neg (by simp), hvalue, if_neg (by exact_mod_cast hreply), hdata]

end Call

/-- **Batch demultiplexing.**  The jobs carry requests of one batchable type, and PostgreSQL
reports success for the merged call.  Then every job is answered, with as many items as it has
requests.  Item `k` of job `j` is the encoded result that the handler has computed for the request
which it found through the pointer to that very record, and this request is the one that job `j`
has sent as its own request `k`. -/
theorem batch_demultiplexing {α β : Type} (host : Host) (builder : Builder) (conn : PgConn)
    (pg : Pg α β) (t : FalconMetaServiceType) (jobs : List Job) (requests : List (List (List Byte)))
    (hbatch : falconMetaServiceTypeToBatchServiceType t ≠ .notSupport)
    (hjobs : List.Forall₂ (Carries host t) jobs requests) (hconn : conn.answer = pg.answer host)
    {answer : Answer} {fields : Nat} {rows : List (List Cell)}
    (hok : call conn jobs = .ok (answer, .tuples fields rows)) :
    ∃ params results replies,
      requests.flatten.mapM (pg.backend.server.decode t) = some params ∧
      pg.backend.server.handle t (gather params (pg.backend.server.order t params)) = .ok results ∧
      doWork host builder conn jobs = ⟨sendEach 0 replies, none⟩ ∧
      replies.length = jobs.length ∧
      ∀ (j k : Nat) own request, requests[j]? = some own → own[k]? = some request →
        ∃ (param : α) (place : Nat) (result : β) (reply : List Byte) (items : List (List Byte))
            (item : List Byte),
          pg.backend.server.decode t request = some param ∧
          (pg.backend.server.order t params)[place]? = some (position requests j k) ∧
          (gather params (pg.backend.server.order t params))[place]? = some param ∧
          results[place]? = some result ∧
          replies[j]? = some reply ∧ replyItems host reply = some items ∧
          items.length = own.length ∧ items[k]? = some item ∧
          IsBody (pg.backend.server.encode t result).item item := by
  obtain ⟨t', infos, bodies, block, ht, hshift, hinfos, hbodies, hblocks, hbytes, hwork⟩ :=
    batch_success builder hconn hok
  have htype : t' = t := by
    obtain ⟨job, hjob, hget⟩ := ht
    cases hjobs with
    | nil => cases hjob
    | cons hcarries _ =>
      cases hjob
      exact hcarries.type_eq hget
  subst htype
  have hcount := totalRequestServiceCount_eq hjobs
  -- the merged parameter is what the requests were framed into, and it fits into a block
  have hle := malloc_size_le hshift
  unfold Shmem.pageSize Shmem.sizeofMemoryHdr at hle
  rw [totalRequestParamDataSize_eq, mergedData_eq hjobs] at hle
  have hitems := length_le_frames host requests.flatten
  have hframed : Framed host (mergedData jobs ++ conn.behind) requests.flatten := by
    refine ⟨⟨conn.behind, by rw [mergedData_eq hjobs]⟩, isBlock_of_carries hjobs, ?_⟩
    unfold sdSizeMax
    omega
  rw [answeredItems_of_batch hbatch, hcount, Nat.mod_eq_of_lt (by omega)] at hinfos
  obtain ⟨params, results, hparams, hhandle, hrecords⟩ := processItems_framed hframed hinfos
  have hlen : bodies.length = requests.flatten.length := by
    rw [← hbodies.length_eq, length_map, (processItems_ok hinfos).1]
  obtain ⟨replyData, replies, hdata, hlog, hall, hcut⟩ := demultiplex_frames hbytes hblocks jobs
  obtain ⟨hstop, hreplies⟩ := hall (by rw [hcount, hlen])
  refine ⟨params, results, replies, hparams, hhandle, ?_, hreplies, ?_⟩
  · rw [hwork replyData hdata, ← hlog, ← hstop]
  · intro j k own request hj hk
    obtain ⟨param, place, result, hdec, hplace, hgot, hresult, hinfo⟩ :=
      hrecords _ request (getElem?_position hj hk)
    obtain ⟨job, hjob, hcarries⟩ := forall₂_getElem?_right hjobs hj
    obtain ⟨reply, hreply⟩ : ∃ reply, replies[j]? = some reply := by
      have hlt : j < replies.length := hreplies ▸ (List.getElem?_eq_some_iff.mp hjob).1
      exact ⟨_, getElem?_eq_getElem hlt⟩
    obtain ⟨job', hjob', hin, hframes⟩ := hcut j reply hreply
    cases hjob.symm.trans hjob'
    have hbefore := totalRequestServiceCount_eq (forall₂_take j hjobs)
    have hown : job.getReqServiceCnt = own.length := by
      rw [Job.getReqServiceCnt, hcarries.types, length_replicate]
    rw [hbefore, hown] at hin hframes
    obtain ⟨item, hitem, hbody⟩ := forall₂_getElem?_left hbodies
      (show
        (infos.map fun info => (pg.backend.server.encode t' info).item)[position requests j k]? =
          some (pg.backend.server.encode t' result).item by rw [getElem?_map, hinfo]; rfl)
    refine ⟨param, place, result, reply,
      (bodies.drop (requests.take j).flatten.length).take own.length, item, hdec, hplace, hgot,
      hresult, hreply, ?_, ?_, ?_, hbody⟩
    · rw [hframes]
      exact replyItems_cut hblocks _ _
    · rw [length_take, length_drop]
      omega
    · have hk' := (List.getElem?_eq_some_iff.mp hk).1
      rw [getElem?_take_of_lt hk', getElem?_drop]
      exact hitem

/-- A server that sorts its pointers the other way round and answers with the beginning of what it
was sent. -/
def echoServer : Server (List Byte) (List Byte) where
  decode _ b := some b
  order _ params := (range params.length).reverse
  order_perm _ _ := reverse_perm _
  handle _ params := .ok params
  handle_length _ _ _ h := by
    cases h
    rfl
  fresh := []
  encode _ r := ⟨r.take 4, by
    rw [length_take]
    omega⟩

def echoPg : Pg (List Byte) (List Byte) where
  backend := ⟨echoServer, 1, fun _ => 0, fun _ => 24, [0, 0, 0, 0], wordBehind⟩
  severity := "ERROR:  "
  lost := none
  other _ _ _ := ⟨[], fun _ => emptyBlock⟩

def echoConn : PgConn := { quietConn with answer := echoPg.answer .little }

set_option maxRecDepth 4000 in
theorem batch_demultiplexing_two :
    ∃ replies, doWork .little emptyBuilder echoConn
      [⟨[.stat], true, [4, 0, 0, 0, 1, 2, 3, 4]⟩,
        ⟨[.stat, .stat], true, [0, 0, 0, 0, 4, 0, 0, 0, 9, 9, 9, 9]⟩] = ⟨sendEach 0 replies, none⟩ ∧
      replies.length = 2 := by
  have hcarries : List.Forall₂ (Carries .little .stat)
      [⟨[.stat], true, [4, 0, 0, 0, 1, 2, 3, 4]⟩,
        ⟨[.stat, .stat], true, [0, 0, 0, 0, 4, 0, 0, 0, 9, 9, 9, 9]⟩]
      [[[1, 2, 3, 4]], [[], [9, 9, 9, 9]]] := by
    refine .cons ⟨rfl, by decide, by decide, by simp [IsBlock]⟩
      (.cons ⟨rfl, by decide, by decide, by simp [IsBlock]⟩ .nil)
  obtain ⟨-, -, replies, -, -, hwork, hlen, -⟩ := batch_demultiplexing .little emptyBuilder echoConn
    echoPg .stat _ _ (by decide) hcarries rfl rfl
  exact ⟨replies, hwork, hlen⟩

/-! ## 4. As many items as operations -/

/-- The services that look at the count they are sent. -/
def FalconMetaServiceType.looksAtCount (t : FalconMetaServiceType) : Bool :=
  !(t == .kvPut || t == .kvGet || t == .kvDel || t == .fetchSliceId)

theorem answeredItems_eq (t : FalconMetaServiceType) (count : Nat) :
    answeredItems t count = if t.looksAtCount then count else 1 := by
  cases t <;> rfl

section Counts

variable {α β : Type} (host : Host) (builder : Builder) (conn : PgConn) (pg : Pg α β)

/-- The query of the task is for operations of type `t`, and PostgreSQL returns `res` for it. -/
def WorkerTask.Result : WorkerTask → FalconMetaServiceType → PgResult → Prop
  | single job, t, res => ∃ command, OneSegment job.types t ∧
      SingleWorkerTask.CommandFor host builder conn job t command ∧
      (SingleWorkerTask.answerTo conn job command).results = [res]
  | batch jobs, t, res => ∃ rest, BatchWorkerTask.FirstType jobs t ∧
      (answerTo conn jobs t).results = res :: rest

/-- The records of the call, each with the result for the item that it was decoded from. -/
def WorkerTask.records : WorkerTask → FalconMetaServiceType → Except String (List β)
  | single job, t =>
    processItems pg.backend.server host t (answeredItems t job.getReqServiceCnt)
      (job.data ++ conn.behind)
  | batch jobs, t =>
    processItems pg.backend.server host t
      (answeredItems t (totalRequestServiceCount jobs % 2 ^ 32))
      (mergedData jobs ++ conn.behind)

/-- Where the item for operation `k` of job `i` begins in the parameter of the task: it is item `k`
of the attachment of this job, if the attachment has so many. -/
def WorkerTask.itemAt (task : WorkerTask) (i k : Nat) : Option Nat :=
  match task.jobs[i]? with
  | none => none
  | some job =>
    match walk host (window job.data) k 0 with
    | none => none
    | some p =>
      if (itemEnd host (window job.data) p).isSome then
        some (totalRequestParamDataSize (task.jobs.take i) + p)
      else none

/-- Where the call finds the item that it decodes into record `n`. -/
def WorkerTask.readAt (task : WorkerTask) (n : Nat) : Option Nat :=
  walk host ⟨mergedData task.jobs ++ conn.behind, sdSizeMax, false⟩ n 0

/-- The record for operation `k` of job `i` is decoded from the item for this operation. -/
def WorkerTask.ReadsOwn (task : WorkerTask) (i k : Nat) : Prop :=
  ∃ p, task.itemAt host i k = some p ∧
    task.readAt host conn (totalRequestServiceCount (task.jobs.take i) + k) = some p

/-- `item` is the answer to operation `k` of job `i`: the error of the call that the operation was
in, the rows of a plain command, or the result in the record of the operation.  Unless it is an
error, it has to be an answer to the item that the job itself has sent for the operation. -/
def WorkerTask.IsAnswer (task : WorkerTask) (i k : Nat) (item : List Byte) : Prop :=
  ∃ t res, task.Result host builder conn t res ∧
    match res with
    | .failed message => IsBody (builder.metaResponse (errorCodeOf message)).item item
    | .tuples fields rows =>
      task.ReadsOwn host conn i k ∧
        if t = .plainCommand then
          IsBody (builder.plainCommandResponse rows.length fields
            (rows.flatten.map Cell.text)).item item
        else ∃ infos info, task.records host conn pg t = .ok infos ∧
          infos[totalRequestServiceCount (task.jobs.take i) + k]? = some info ∧
          IsBody (pg.backend.server.encode t info).item item

/-- **The reply matches the operations of job `i`**: it is made of exactly as many items as there
are operations, and the items answer the operations in their order. -/
def WorkerTask.Matches (task : WorkerTask) (i : Nat) (data : List Byte) : Prop :=
  ∃ job items, task.jobs[i]? = some job ∧ replyItems host data = some items ∧
    items.length = job.getReqServiceCnt ∧
    ∀ (k : Nat) item, items[k]? = some item → task.IsAnswer host builder conn pg i k item

/-- The attachments of the jobs before job `i` are made of exactly as many items as these jobs have
operations, and job `i` has an item for each of its operations. -/
def WorkerTask.Aligned (task : WorkerTask) (i : Nat) (job : Job) : Prop :=
  walk host (window (mergedData (task.jobs.take i)))
      (totalRequestServiceCount (task.jobs.take i)) 0 =
    some (mergedData (task.jobs.take i)).length ∧
  (walk host (window job.data) job.getReqServiceCnt 0).isSome

/-- **When it does**: PostgreSQL reports an error and job `i` has one operation only, or PostgreSQL
reports success, the job has one operation or the services look at the count, and there are as many
items as operations. -/
def WorkerTask.Counted (task : WorkerTask) (i : Nat) : Prop :=
  ∃ job t res, task.jobs[i]? = some job ∧ task.Result host builder conn t res ∧
    match res with
    | .failed _ => job.getReqServiceCnt = 1
    | .tuples _ _ =>
      (job.getReqServiceCnt = 1 ∨ t.looksAtCount = true) ∧ task.Aligned host i job

variable {host builder conn pg}

variable {t t' : FalconMetaServiceType} {job : Job} {jobs : List Job} {task : WorkerTask}
  {res : PgResult} {i fields : Nat} {data item : List Byte} {rows : List (List Cell)}

theorem OneSegment.unique {types : List FalconMetaServiceType} (h : OneSegment types t)
    (h' : OneSegment types t') : t = t' := by
  obtain ⟨u, rest, hcons⟩ := exists_cons_of_ne_nil h.nonempty
  have hu : u = t := eq_of_mem_replicate (h.same ▸ hcons ▸ mem_cons_self ..)
  have hu' : u = t' := eq_of_mem_replicate (h'.same ▸ hcons ▸ mem_cons_self ..)
  exact hu.symm.trans hu'

theorem SingleWorkerTask.CommandFor.unique {command command' : Command}
    (h : CommandFor host builder conn job t command)
    (h' : CommandFor host builder conn job t command') : command = command' := by
  unfold CommandFor at h h'
  split at h
  · rename_i hplain
    rw [if_pos hplain] at h'
    obtain ⟨size, text, hsize, htext, rfl⟩ := h
    obtain ⟨size', text', hsize', htext', rfl⟩ := h'
    cases hsize.symm.trans hsize'
    cases htext.symm.trans htext'
    rfl
  · rename_i hplain
    rw [if_neg hplain] at h'
    exact h.trans h'.symm

theorem BatchWorkerTask.FirstType.unique (h : FirstType jobs t) (h' : FirstType jobs t') :
    t = t' := by
  obtain ⟨job, hjob, ht⟩ := h
  obtain ⟨job', hjob', ht'⟩ := h'
  cases hjob.symm.trans hjob'
  cases ht.symm.trans ht'
  rfl

/-- PostgreSQL returns one thing. -/
theorem WorkerTask.Result.unique {res' : PgResult} (h : task.Result host builder conn t res)
    (h' : task.Result host builder conn t' res') : t = t' ∧ res = res' := by
  cases task with
  | single job =>
    obtain ⟨command, hone, hcommand, hres⟩ := h
    obtain ⟨command', hone', hcommand', hres'⟩ := h'
    obtain rfl := hone.unique hone'
    obtain rfl := hcommand.unique hcommand'
    exact ⟨rfl, (cons.inj (hres.symm.trans hres')).1⟩
  | batch jobs =>
    obtain ⟨rest, ht, hres⟩ := h
    obtain ⟨rest', ht', hres'⟩ := h'
    obtain rfl := ht.unique ht'
    exact ⟨rfl, (cons.inj (hres.symm.trans hres')).1⟩

/-- The number of items, and whether they were read where the job has put them: the rest of a match
is as it is. -/
theorem WorkerTask.matches_iff {items : List (List Byte)} (hjob : task.jobs[i]? = some job)
    (hitems : replyItems host data = some items)
    (hanswers : ∀ (k : Nat) item, items[k]? = some item →
      (task.IsAnswer host builder conn pg i k item ↔ task.ReadsOwn host conn i k)) :
    task.Matches host builder conn pg i data ↔ items.length = job.getReqServiceCnt ∧
      ∀ k < job.getReqServiceCnt, task.ReadsOwn host conn i k := by
  constructor
  · rintro ⟨job', items', hjob', hitems', hlen, hall⟩
    cases hjob.symm.trans hjob'
    cases hitems.symm.trans hitems'
    refine ⟨hlen, ?_⟩
    intro k hk
    have hget : items[k]? = some (items[k]) := getElem?_eq_getElem (hlen ▸ hk)
    exact (hanswers k _ hget).mp (hall k _ hget)
  · rintro ⟨hlen, hreads⟩
    refine ⟨job, items, hjob, hitems, hlen, ?_⟩
    intro k item hk
    have hlt := (List.getElem?_eq_some_iff.mp hk).1
    exact (hanswers k item hk).mpr (hreads k (hlen ▸ hlt))

/-! ### Where the items are -/

theorem WorkerTask.itemAt_eq_some {k p : Nat} : task.itemAt host i k = some p ↔
    ∃ job q r, task.jobs[i]? = some job ∧ walk host (window job.data) k 0 = some q ∧
      itemEnd host (window job.data) q = some r ∧
      p = totalRequestParamDataSize (task.jobs.take i) + q := by
  unfold WorkerTask.itemAt
  constructor
  · intro h
    split at h
    · cases h
    rename_i job hjob
    split at h
    · cases h
    rename_i q hq
    split at h
    · rename_i hend
      obtain ⟨r, hr⟩ := Option.isSome_iff_exists.mp hend
      exact ⟨job, q, r, hjob, hq, hr, (some.inj h).symm⟩
    · cases h
  · rintro ⟨job, q, r, hjob, hq, hr, rfl⟩
    simp only [hjob, hq, hr, isSome_some, if_true]

theorem mergedData_split (hjob : jobs[i]? = some job) :
    mergedData jobs = mergedData (jobs.take i) ++ (job.data ++ mergedData (jobs.drop (i + 1))) := by
  have hlt := (List.getElem?_eq_some_iff.mp hjob).1
  have hget := (List.getElem?_eq_some_iff.mp hjob).2
  conv_lhs => rw [← take_append_drop i jobs, drop_eq_getElem_cons hlt, hget]
  rw [mergedData, flatMap_append, flatMap_cons]
  rfl

/-- **Every operation of the job is read from its own item exactly if the items before it and its
own are as many as the operations.**  The first operation shows where the call has come to, the last
one that there are items enough. -/
theorem WorkerTask.readsOwn_iff_aligned (conn : PgConn) (hjob : task.jobs[i]? = some job)
    (hne : job.getReqServiceCnt ≠ 0) (hfits : (mergedData task.jobs).length ≤ sdSizeMax) :
    (∀ k < job.getReqServiceCnt, task.ReadsOwn host conn i k) ↔ task.Aligned host i job := by
  have hsplit := mergedData_split hjob
  have hbase : totalRequestParamDataSize (task.jobs.take i) =
      (mergedData (task.jobs.take i)).length := totalRequestParamDataSize_eq _
  have hlen := congrArg length hsplit
  rw [length_append, length_append] at hlen
  have hbuffer : mergedData task.jobs ++ conn.behind = mergedData (task.jobs.take i) ++
      (job.data ++ (mergedData (task.jobs.drop (i + 1)) ++ conn.behind)) := by
    rw [hsplit, append_assoc, append_assoc]
  have hbefore {n q : Nat} := @walk_window host
    ⟨mergedData task.jobs ++ conn.behind, sdSizeMax, false⟩ 0 q n [] _ _ hbuffer
    (by rw [length_nil]; dsimp only; omega) (Nat.zero_le _)
  have hown {n q : Nat} := @walk_window host
    ⟨mergedData task.jobs ++ conn.behind, sdSizeMax, false⟩ 0 q n _ _ _ hbuffer
    (by dsimp only; omega) (Nat.zero_le _)
  simp only [length_nil, Nat.zero_add, Nat.add_zero] at hbefore hown
  constructor
  · intro hreads
    constructor
    · obtain ⟨p, hitem, hread⟩ := hreads 0 (Nat.pos_of_ne_zero hne)
      obtain ⟨job', q, -, -, hq, -, rfl⟩ := WorkerTask.itemAt_eq_some.mp hitem
      cases hq
      rw [Nat.add_zero, Nat.add_zero, hbase] at hread
      exact hbefore.mpr ⟨hread, Nat.le_refl _⟩
    · obtain ⟨n, hn⟩ := Nat.exists_eq_succ_of_ne_zero hne
      obtain ⟨p, hitem, -⟩ := hreads n (by omega)
      obtain ⟨job', q, r, hjob', hq, hr, -⟩ := WorkerTask.itemAt_eq_some.mp hitem
      cases hjob.symm.trans hjob'
      rw [hn, Nat.succ_eq_add_one, walk_add, hq, bind_some, walk, hr]
      rfl
  · rintro ⟨hstart, hitems⟩ k hk
    obtain ⟨m, hm⟩ : ∃ m, job.getReqServiceCnt = k + (m + 1) :=
      ⟨job.getReqServiceCnt - k - 1, by omega⟩
    obtain ⟨e, he⟩ := Option.isSome_iff_exists.mp hitems
    rw [hm, walk_add] at he
    obtain ⟨q, hq, hrest⟩ := bind_eq_some_iff.mp he
    obtain ⟨r, hr, -⟩ := bind_eq_some_iff.mp hrest
    refine ⟨_, WorkerTask.itemAt_eq_some.mpr ⟨job, q, r, hjob, hq, hr, rfl⟩, ?_⟩
    rw [WorkerTask.readAt, walk_add, (hbefore.mp hstart).1, bind_some, hbase]
    exact (hown.mp hq).1

/-- **A record is what its item decodes to**: the record that the call decodes in place `n` comes
from the item that a walk over `n` items leads to. -/
theorem paramDecode_walk {γ : Type} {decode : List Byte → Option γ} {param : SerializedData}
    (hsmall : param.size < 2 ^ 32) {count p : Nat} {params : List γ} (hp : p % 4 = 0)
    (hle : p ≤ param.size) (h : paramDecode host decode param count p = some params) {n : Nat}
    (hn : n < count) :
    ∃ q r, walk host param n p = some q ∧ itemEnd host param q = some r ∧
      params[n]? = decode ((param.buffer.drop (q + 4)).take (r - q - 4)) := by
  induction count generalizing p params n with
  | zero => exact absurd hn (Nat.not_lt_zero _)
  | succ count ih =>
    rw [paramDecode] at h
    cases hend : itemEnd host param p with
    | none =>
      -- there is no next item, and the decoder gives up
      have hwalk : walk host param 1 p = none := by rw [walk, hend]; rfl
      rw [serializedDataNextSeveralItemSize, if_neg (by omega)] at h
      rcases nextItems_of_walk_none p hwalk with hnone | hnone
      · rw [hnone] at h
        cases h
      · rw [hnone] at h
        dsimp only at h
        rw [if_pos rfl] at h
        cases h
    | some r =>
      have hwalk : walk host param 1 p = some r := by rw [walk, hend]; rfl
      obtain ⟨hafter, hmod, hin⟩ := itemEnd_eq_some hend
      have hsize : serializedDataNextSeveralItemSize host param p 1 = .ok (r - p) := by
        rw [serializedDataNextSeveralItemSize, if_neg (by omega), nextItems_of_walk hwalk]
        congr 1
        omega
      have hvalid : r - p ≠ sdSizeInvalid := by
        unfold sdSizeInvalid
        omega
      have hnext : (p + (r - p)) % 2 ^ 32 = r := by omega
      rw [hsize] at h
      dsimp only at h
      rw [if_neg hvalid, hnext] at h
      split at h
      · cases h
      rename_i info hinfo
      obtain ⟨rest, hrest, rfl⟩ := map_eq_some_iff.mp h
      cases n with
      | zero => exact ⟨p, r, rfl, hend, by rw [getElem?_cons_zero, hinfo]⟩
      | succ n =>
        obtain ⟨q, r', hq, hr', hget⟩ := ih (by omega) hin hrest (Nat.lt_of_succ_lt_succ hn)
        refine ⟨q, r', ?_, hr', ?_⟩
        · rw [walk, hend, bind_some, hq]
        · rw [getElem?_cons_succ, hget]

/-- What is left of the condition once the result is known. -/
theorem WorkerTask.counted_iff (hjob : task.jobs[i]? = some job) :
    task.Result host builder conn t res → (task.Counted host builder conn i ↔
      match res with
      | .failed _ => job.getReqServiceCnt = 1
      | .tuples _ _ =>
        (job.getReqServiceCnt = 1 ∨ t.looksAtCount = true) ∧ task.Aligned host i job) := by
  intro hres
  constructor
  · rintro ⟨job', t', res', hjob', hres', hcond⟩
    cases hjob.symm.trans hjob'
    obtain ⟨rfl, rfl⟩ := hres.unique hres'
    exact hcond
  · intro hcond
    exact ⟨job, t, res, hjob, hres, hcond⟩

/-- A reply of one item, which answers every operation alike. -/
theorem replyItems_segment (fresh : Nat → Byte) {b : FlatBuffer} {reply : SerializedData}
    (h : putSegment host fresh serializedDataInitEmpty b = .ok reply) :
    ∃ item, replyItems host (reply.buffer.take reply.size) = some [item] ∧ IsBody b.item item := by
  obtain ⟨reply', body, rest, hput, hholds⟩ := putSegment_empty host fresh b
  cases h.symm.trans hput
  have hlen := b.length_item
  have htotal : totalLength [b.item] < 2 ^ 32 := by
    rw [totalLength_cons, totalLength_nil]
    omega
  refine ⟨body, ?_, (forall₂_cons.mp hholds.areBodies).1⟩
  rw [hholds.take_size]
  exact replyItems_frames (isBlock_of_bodies hholds.areBodies htotal)

/-- An error is one item. -/
theorem WorkerTask.matches_failed_iff {message : String} {r : SerializedData}
    (hjob : task.jobs[i]? = some job) (hres : task.Result host builder conn t (.failed message))
    (hr : putSegment host conn.fresh serializedDataInitEmpty
      (builder.metaResponse (errorCodeOf message)) = .ok r) :
    task.Matches host builder conn pg i (r.buffer.take r.size) ↔
      task.Counted host builder conn i := by
  obtain ⟨item, hitems, hbody⟩ := replyItems_segment conn.fresh hr
  rw [WorkerTask.counted_iff hjob hres]
  constructor
  · rintro ⟨job', items, hjob', hitems', hlen, -⟩
    cases hjob.symm.trans hjob'
    cases hitems.symm.trans hitems'
    exact hlen.symm
  · intro hone
    refine ⟨job, [item], hjob, hitems, hone.symm, ?_⟩
    intro k item' hk
    cases k with
    | zero =>
      cases hk
      exact ⟨t, _, hres, hbody⟩
    | succ k => cases hk

/-- The items of a call answer the operations of the records they were encoded from. -/
theorem WorkerTask.isAnswer_iff_readsOwn {infos : List β} {bodies : List (List Byte)} {k : Nat}
    (hres : task.Result host builder conn t (.tuples fields rows)) (hplain : t ≠ .plainCommand)
    (hinfos : task.records host conn pg t = .ok infos)
    (hbodies : List.Forall₂ IsBody (infos.map fun info => (pg.backend.server.encode t info).item)
      bodies)
    (hitem : bodies[totalRequestServiceCount (task.jobs.take i) + k]? = some item) :
    task.IsAnswer host builder conn pg i k item ↔ task.ReadsOwn host conn i k := by
  constructor
  · rintro ⟨t', res', hres', hcond⟩
    obtain ⟨rfl, rfl⟩ := hres.unique hres'
    exact hcond.1
  · intro hreads
    obtain ⟨x, hx, hbody⟩ := forall₂_getElem?_right hbodies hitem
    rw [getElem?_map] at hx
    obtain ⟨info, hinfo, rfl⟩ := map_eq_some_iff.mp hx
    refine ⟨t, _, hres, hreads, ?_⟩
    rw [if_neg hplain]
    exact ⟨infos, info, hinfos, hinfo, hbody⟩

/-- As many items as operations. -/
theorem answeredItems_eq_self_iff (t : FalconMetaServiceType) (count : Nat) :
    answeredItems t count = count ↔ count = 1 ∨ t.looksAtCount = true := by
  rw [answeredItems_eq]
  split
  · rename_i hlooks
    exact ⟨fun _ => .inr hlooks, fun _ => rfl⟩
  · rename_i hlooks
    rw [eq_comm]
    exact ⟨Or.inl, fun h => h.resolve_right hlooks⟩

/-- The reply to a call is its block. -/
theorem SingleWorkerTask.oneReply_metaCall {answer : Answer} {count shift : Nat} {signature : Int}
    {r : SerializedData}
    (h : oneReply host builder conn answer (.metaCall t count shift signature)
      (.tuples fields rows) serializedDataInitEmpty = .ok r) :
    r.buffer.take r.size = (answer.block (firstValue rows)).bytes := by
  obtain ⟨hrows, hfields, hsign, halign⟩ :=
    (oneReply_isOk_iff host builder conn).mp ⟨r, h⟩
  obtain ⟨one, reply, hone, happend, hbytes⟩ := append_block conn.fresh _ halign
  simp only [oneReply] at h
  rw [if_neg (by simp [hrows, hfields]), if_neg (not_not.mpr hsign), hone] at h
  dsimp only at h
  rw [happend] at h
  cases h
  exact hbytes

/-- The parameter of a task that has a block can be addressed. -/
theorem mergedData_le (conn : PgConn) (h : paramShift conn jobs ≠ 0) :
    (mergedData jobs).length ≤ sdSizeMax := by
  have hle := malloc_size_le h
  rw [totalRequestParamDataSize_eq] at hle
  unfold Shmem.pageSize Shmem.sizeofMemoryHdr at hle
  unfold sdSizeMax
  omega

@[simp] theorem mergedData_singleton (job : Job) : mergedData [job] = job.data := by
  simp [mergedData]

/-- A plain command has a segment of its own. -/
theorem single_matches_plain {r : SerializedData} (hcnt : job.getReqServiceCnt = 1)
    (hres : (WorkerTask.single job).Result host builder conn .plainCommand (.tuples fields rows))
    (hr : putSegment host conn.fresh serializedDataInitEmpty
      (builder.plainCommandResponse rows.length fields (rows.flatten.map Cell.text)) = .ok r) :
    (WorkerTask.single job).Matches host builder conn pg 0 (r.buffer.take r.size) ↔
      ∀ k < job.getReqServiceCnt, (WorkerTask.single job).ReadsOwn host conn 0 k := by
  obtain ⟨item, hitems, hbody⟩ := replyItems_segment conn.fresh hr
  rw [WorkerTask.matches_iff rfl hitems]
  · exact and_iff_right hcnt.symm
  · intro k item' hk
    cases k with
    | zero =>
      cases hk
      constructor
      · rintro ⟨t', res', hres', hcond⟩
        obtain ⟨rfl, rfl⟩ := hres.unique hres'
        exact hcond.1
      · intro hreads
        exact ⟨_, _, hres, hreads, hbody⟩
    | succ k => cases hk

/-- **A single task.** -/
theorem single_matches_iff (hconn : conn.answer = pg.answer host) (hne : job.types ≠ [])
    (h : SingleWorkerTask.reply host builder conn job = .ok data) :
    (WorkerTask.single job).Matches host builder conn pg 0 data ↔
      (WorkerTask.single job).Counted host builder conn 0 := by
  obtain ⟨hshift, -, t, command, res, r, hone, hcommand, -, hresults, hr, rfl⟩ :=
    SingleWorkerTask.reply_ok hne h
  have hjob : (WorkerTask.single job).jobs[0]? = some job := rfl
  have hcount : job.getReqServiceCnt ≠ 0 := mt length_eq_zero_iff.mp hne
  have hfits : (mergedData (WorkerTask.single job).jobs).length ≤ sdSizeMax := by
    refine mergedData_le conn ?_
    rw [paramShift, totalRequestParamDataSize_eq]
    simpa [WorkerTask.jobs, SingleWorkerTask.paramShift, Job.getReqDatasize] using hshift
  have hres : (WorkerTask.single job).Result host builder conn t res :=
    ⟨command, hone, hcommand, hresults⟩
  cases res with
  | failed message => exact WorkerTask.matches_failed_iff hjob hres hr
  | tuples fields rows =>
    rw [WorkerTask.counted_iff hjob hres]
    dsimp only
    rw [← WorkerTask.readsOwn_iff_aligned conn hjob hcount hfits]
    by_cases hplain : t = .plainCommand
    · subst hplain
      have hcnt : job.getReqServiceCnt = 1 := hone.plain rfl
      rw [SingleWorkerTask.CommandFor, if_pos rfl] at hcommand
      obtain ⟨-, text, -, -, rfl⟩ := hcommand
      rw [single_matches_plain hcnt hres hr]
      exact (and_iff_right (.inl hcnt)).symm
    · rw [SingleWorkerTask.CommandFor, if_neg hplain] at hcommand
      subst hcommand
      have hans : SingleWorkerTask.answerTo conn job (.metaCall t job.getReqServiceCnt
          (SingleWorkerTask.paramShift conn job) (conn.signature 0)) =
          pg.answer host [.metaCall t job.getReqServiceCnt (SingleWorkerTask.paramShift conn job)
            (conn.signature 0)]
          (SingleWorkerTask.paramShift conn job) (job.data ++ conn.behind) := by
        rw [SingleWorkerTask.answerTo, hconn]
      rw [hans] at hresults hr
      rcases pg.answer_cases host t job.getReqServiceCnt (SingleWorkerTask.paramShift conn job)
        (conn.signature 0) (job.data ++ conn.behind) with
        ⟨message, hfailed⟩ | ⟨reply, block, hcall, hok⟩
      · cases hresults.symm.trans hfailed
      · obtain ⟨-, -, infos, bodies, hinfos, hbodies, hblocks, hbytes⟩ := call_ok hcall
        have hdata := SingleWorkerTask.oneReply_metaCall hr
        rw [hok] at hdata
        have hitems : replyItems host (r.buffer.take r.size) = some bodies := by
          rw [hdata]
          exact hbytes ▸ replyItems_frames hblocks
        have hlen : bodies.length = answeredItems t job.getReqServiceCnt := by
          rw [← hbodies.length_eq, length_map, (processItems_ok hinfos).1]
        rw [WorkerTask.matches_iff hjob hitems, hlen, answeredItems_eq_self_iff]
        intro k item hk
        refine WorkerTask.isAnswer_iff_readsOwn hres hplain hinfos hbodies ?_
        rwa [take_zero, totalRequestServiceCount_nil, Nat.zero_add]

theorem looksAtCount_of_batch (h : falconMetaServiceTypeToBatchServiceType t ≠ .notSupport) :
    t ≠ .plainCommand ∧ t.looksAtCount = true := by
  cases t <;> first | exact absurd rfl h | exact ⟨by decide, rfl⟩

/-- The type of a batch is one whose handler takes more than one request. -/
theorem batchType_of_handed (h : (WorkerTask.batch jobs).Handed)
    (ht : BatchWorkerTask.FirstType jobs t) :
    falconMetaServiceTypeToBatchServiceType t ≠ .notSupport := by
  obtain ⟨-, queue, hqueue, hall⟩ := h
  obtain ⟨job, hjob, hget⟩ := ht
  have hdispatch := hall job (mem_of_mem_head? hjob)
  have hne := types_ne_nil_of_dispatch hdispatch
  rw [dispatchMetaServiceJob, if_neg (by simp [Job.isEmptyRequest, hne]), hget] at hdispatch
  cases hdispatch
  intro hnot
  rw [hnot, ite_self] at hqueue
  exact hqueue rfl

theorem types_ne_nil_of_handed (h : (WorkerTask.batch jobs).Handed) (hjob : job ∈ jobs) :
    job.types ≠ [] := by
  obtain ⟨-, queue, -, hall⟩ := h
  exact types_ne_nil_of_dispatch (hall job hjob)

/-- **A batch.** -/
theorem batch_matches_iff (hconn : conn.answer = pg.answer host)
    (hhanded : (WorkerTask.batch jobs).Handed)
    (h : .processResponse i data ∈ (doWork host builder conn jobs).log) :
    (WorkerTask.batch jobs).Matches host builder conn pg i data ↔
      (WorkerTask.batch jobs).Counted host builder conn i := by
  have h' := h
  unfold doWork at h'
  split at h'
  · cases h'
  rename_i answer res hcall
  obtain ⟨-, -, t, rest, ht, -, hanswer, hresults⟩ := call_ok_iff.mp hcall
  have hres : (WorkerTask.batch jobs).Result host builder conn t res :=
    ⟨rest, ht, hanswer ▸ hresults⟩
  cases res with
  | failed message =>
    rw [respond] at h'
    split at h'
    · cases h'
    rename_i reply hreply
    obtain ⟨n, hn, hget⟩ := processResponse_mem_sendEach h'
    rw [Nat.zero_add] at hn
    subst hn
    rw [getElem?_map] at hget
    obtain ⟨job, hjob, rfl⟩ := map_eq_some_iff.mp hget
    unfold errorReply at hreply
    split at hreply
    · cases hreply
    rename_i r hr
    cases hreply
    exact WorkerTask.matches_failed_iff hjob hres hr
  | tuples fields rows =>
    obtain ⟨t', infos, bodies, block, ht', hshift, hinfos, hbodies, hblocks, hbytes, hwork⟩ :=
      batch_success builder hconn hcall
    obtain rfl := ht.unique ht'
    obtain ⟨hplain, hlooks⟩ := looksAtCount_of_batch (batchType_of_handed hhanded ht)
    obtain ⟨replyData, datas, hdata, hlog, -, hcut⟩ := demultiplex_frames hbytes hblocks jobs
    rw [hwork replyData hdata, hlog] at h
    obtain ⟨n, hn, hget⟩ := processResponse_mem_sendEach h
    rw [Nat.zero_add] at hn
    subst hn
    obtain ⟨job, hjob, hin, rfl⟩ := hcut i data hget
    have hitems := @replyItems_cut host _ hblocks
      (totalRequestServiceCount (jobs.take i)) job.getReqServiceCnt
    have hjob' : (WorkerTask.batch jobs).jobs[i]? = some job := hjob
    have hcount : job.getReqServiceCnt ≠ 0 :=
      mt length_eq_zero_iff.mp (types_ne_nil_of_handed hhanded (mem_of_getElem? hjob))
    rw [WorkerTask.counted_iff hjob' hres]
    dsimp only
    rw [← WorkerTask.readsOwn_iff_aligned conn hjob' hcount (mergedData_le conn hshift),
      WorkerTask.matches_iff hjob' hitems]
    · refine and_congr_left fun _ => ⟨fun _ => .inr hlooks, fun _ => ?_⟩
      rw [length_take, length_drop]
      omega
    · intro k item hk
      have hk' := (List.getElem?_eq_some_iff.mp hk).1
      rw [length_take] at hk'
      rw [getElem?_take_of_lt (by omega), getElem?_drop] at hk
      exact WorkerTask.isAnswer_iff_readsOwn hres hplain hinfos hbodies hk

/-- **The reply has as many items as the request has operations, in their order, exactly then.**
It is one item for an error and for the services that do not look at the count, so that only jobs
with one operation get what they are promised there.  In a batch it has the right number of items,
but these answer the operations of the job only if the call has come to the job's own items. -/
theorem reply_counts_iff (task : WorkerTask) (hconn : conn.answer = pg.answer host)
    (hhanded : task.Handed) {i : Nat} {data : List Byte}
    (hanswered : .processResponse i data ∈ (task.doWork host builder conn).log) :
    task.Matches host builder conn pg i data ↔ task.Counted host builder conn i := by
  cases task with
  | single job =>
    rw [WorkerTask.doWork, SingleWorkerTask.doWork] at hanswered
    split at hanswered
    · cases hanswered
    · rename_i data' hreply
      rcases mem_cons.mp hanswered with h | h
      · cases h
        exact single_matches_iff hconn (types_ne_nil_of_dispatch hhanded) hreply
      · cases mem_singleton.mp h
  | batch jobs => exact batch_matches_iff hconn hhanded hanswered

end Counts

/-- A job with one request, and one with two. -/
def twoJobs : List Job :=
  [⟨[.stat], true, [4, 0, 0, 0, 1, 2, 3, 4]⟩,
    ⟨[.stat, .stat], true, [0, 0, 0, 0, 4, 0, 0, 0, 9, 9, 9, 9]⟩]

set_option maxRecDepth 4000 in
theorem reply_counts_iff_stat :
    .processResponse 1 [0, 0, 0, 0, 4, 0, 0, 0, 9, 9, 9, 9] ∈
        ((WorkerTask.batch twoJobs).doWork .little emptyBuilder echoConn).log ∧
      (WorkerTask.batch twoJobs).Matches .little emptyBuilder echoConn echoPg 1
        [0, 0, 0, 0, 4, 0, 0, 0, 9, 9, 9, 9] := by
  have hanswered : .processResponse 1 [0, 0, 0, 0, 4, 0, 0, 0, 9, 9, 9, 9] ∈
      ((WorkerTask.batch twoJobs).doWork .little emptyBuilder echoConn).log := by decide
  have hhanded : (WorkerTask.batch twoJobs).Handed := by
    refine ⟨by decide, .stat, by decide, ?_⟩
    intro job hjob
    rcases mem_cons.mp hjob with rfl | hjob
    · rfl
    · cases mem_singleton.mp hjob
      rfl
  have hres : (WorkerTask.batch twoJobs).Result .little emptyBuilder echoConn .stat
      (.tuples 1 [[⟨toString 24, 24⟩]]) := ⟨[], ⟨_, rfl, rfl⟩, rfl⟩
  exact ⟨hanswered, (reply_counts_iff _ rfl hhanded hanswered).mpr
    ⟨_, _, _, rfl, hres, .inr rfl, rfl, rfl⟩⟩

/-- One request with two reads of keys. -/
def twoGets : Job := ⟨[.kvGet, .kvGet], false, [4, 0, 0, 0, 1, 2, 3, 4, 4, 0, 0, 0, 5, 6, 7, 8]⟩

set_option maxRecDepth 4000 in
/-- **Two reads of keys in one request.**  Everything goes well, and the reply has one item. -/
theorem reply_short_of_items :
    (WorkerTask.single twoGets).Handed ∧
      ((WorkerTask.single twoGets).doWork .little emptyBuilder echoConn).log =
        [.processResponse 0 [4, 0, 0, 0, 1, 2, 3, 4], .done 0] ∧
      ¬ (WorkerTask.single twoGets).Matches .little emptyBuilder echoConn echoPg 0
        [4, 0, 0, 0, 1, 2, 3, 4] := by
  refine ⟨rfl, rfl, ?_⟩
  rintro ⟨job, items, hjob, hitems, hlen, -⟩
  cases hjob
  have hone : replyItems .little [4, 0, 0, 0, 1, 2, 3, 4] = some [[1, 2, 3, 4]] := rfl
  cases hone.symm.trans hitems
  cases hlen

end FalconFS.Connection
