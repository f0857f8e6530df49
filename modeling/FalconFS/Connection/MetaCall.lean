/-
# The metadata call on the PostgreSQL side

`falcon_meta_call_by_serialized_shmem_internal` reads a parameter out of shared memory, hands the
requests in it to a handler and leaves the serialized results in shared memory again.
`MetaProcess` picks one of four families of services; they differ in how many items of the
parameter they read, and in whether they look at the count that the caller has sent at all.

The handlers themselves, and what FlatBuffers makes of the bytes of one item, are parameters
(`Server`).  What is modelled is the way of a request through the call: which bytes are decoded
into which record, that the handler sorts pointers to the records and not the records, and which
record is encoded into which item of the response.

* Section 4 is the call, in the steps of the source.
* Section 5 says what the decoder finds in a parameter that was framed item by item.
* Section 6 is the specification of a call that succeeds (`call_ok`).
-/
import FalconFS.Lib.Scatter
import FalconFS.Connection.SerializedData
import FalconFS.Utils.ShmemAllocator

namespace FalconFS.Connection

open Frames Scatter List Shmem

/-! ## 1. Services and error codes -/

/-- `FalconMetaServiceType`. -/
inductive FalconMetaServiceType where
  | plainCommand
  | mkdir
  | mkdirSubMkdir
  | mkdirSubCreate
  | create
  | stat
  | openFile
  | close
  | unlink
  | readdir
  | opendir
  | rmdir
  | rmdirSubRmdir
  | rmdirSubUnlink
  | rename
  | renameSubRenameLocally
  | renameSubCreate
  | utimens
  | chown
  | chmod
  | kvPut
  | kvGet
  | kvDel
  | slicePut
  | sliceGet
  | sliceDel
  | fetchSliceId
  | notSupported
  deriving DecidableEq, Repr

namespace FalconMetaServiceType

/-- The value of the enumerator. -/
def number (t : FalconMetaServiceType) : Nat := t.ctorIdx

/-- The services whose handlers take more than one request. -/
def handlesBatch (t : FalconMetaServiceType) : Bool :=
  t == mkdir || t == mkdirSubMkdir || t == mkdirSubCreate || t == create || t == stat ||
    t == openFile || t == close || t == unlink

end FalconMetaServiceType

/-- `FalconErrorCode`. -/
inductive FalconErrorCode where
  | success
  | pathIsInvalid
  | pathIsRoot
  | pathExists
  | pathNotExists
  | pathLockConflict
  | pathVerifyFailed
  | remoteTransferFailed
  | wrongWorker
  | obsoleteShard
  | remoteQueryFailed
  | argumentError
  | inodeRowTypeError
  | fileExists
  | fileNotExists
  | outOfMemory
  | streamError
  | programError
  | smartRouteError
  | undefined
  | mkdirDuplicate
  | xkeyExists
  | xkeyNotExists
  | versionOutOfDate
  | invalidParameter
  | unknown
  | serverFault
  | zkNotConnect
  | zkFetchResultFailed
  | transactionFault
  | pooledFault
  | notFoundFd
  | getAllWorkerConnFailed
  | ioError
  | readdirRenewConn
  deriving DecidableEq, Repr

/-- `LAST_FALCON_ERROR_CODE`. -/
def lastFalconErrorCode : Nat := 35

/-- What `FALCON_ELOG_ERROR` raises, up to the place in the source that the macro adds. -/
def falconElogError (code : FalconErrorCode) (text : String) : String :=
  String.singleton (Char.ofNat (code.ctorIdx + 64)) ++ " " ++ text

/-- `FalconErrorMsgAnalyse`: the code is in the byte at 8, behind the `ERROR:  ` of an English
message.  A byte above 127 is no code, whether `char` is signed or not. -/
def falconErrorMsgAnalyse (originalErrorMsg : Option String) : FalconErrorCode :=
  match originalErrorMsg with
  | none => .programError
  | some message =>
    match message.toUTF8.data.toList[8]? with
    | some errorCodeChar =>
      if 64 < errorCodeChar.toNat ∧ errorCodeChar.toNat < 64 + lastFalconErrorCode then
        FalconErrorCode.ofNat (errorCodeChar.toNat - 64)
      else .unknown
    | none => .unknown

/-! ## 2. Shared memory -/

/-- `FalconShmemAllocatorMalloc` as its callers see it: a shift, and 0 when there is no block,
which is always so for a size that is too large. -/
def falconShmemAllocatorMalloc (pick : Nat → Nat) (size : Nat) : Nat :=
  if pageSize - sizeofMemoryHdr < size then 0 else pick size

theorem malloc_size_le {pick : Nat → Nat} {size : Nat}
    (h : falconShmemAllocatorMalloc pick size ≠ 0) : size ≤ pageSize - sizeofMemoryHdr := by
  unfold falconShmemAllocatorMalloc at h
  split at h
  · exact absurd rfl h
  · rename_i hle
    exact Nat.le_of_not_lt hle

/-- An allocated block, as whoever has its shift sees it: the signature and the size in its
header, the bytes, and what lies behind them.  The pool is a part of PostgreSQL's shared memory,
so that a header may be read behind every block. -/
structure Block where
  signature : Int
  bytes : List Byte
  behind : List Byte
  small : bytes.length ≤ pageSize - sizeofMemoryHdr
  readable : 4 ≤ behind.length

/-- `SerializedDataInit` over `validBytes` bytes of a larger memory. -/
def serializedDataInitShared (memory : List Byte) (validBytes : Nat) : Option SerializedData :=
  if validBytes % 4 ≠ 0 then none else some ⟨memory, validBytes, false⟩

def Block.serializedData (block : Block) : Option SerializedData :=
  serializedDataInitShared (block.bytes ++ block.behind) block.bytes.length

/-- A finished buffer of a `FlatBufferBuilder`: its size is a multiple of four below
`FLATBUFFERS_MAX_BUFFER_SIZE`. -/
structure FlatBuffer where
  bytes : List Byte
  bounded : bytes.length ≤ 2 ^ 31 - 4

/-- The item that holds a buffer. -/
def FlatBuffer.item (b : FlatBuffer) : Item where
  size := b.bytes.length
  payload := b.bytes
  small := by
    have h := b.bounded
    omega
  fits := Nat.le_refl _

theorem FlatBuffer.length_item (b : FlatBuffer) : b.item.length ≤ 2 ^ 31 := by
  have h := b.bounded
  unfold Item.length padded FlatBuffer.item
  dsimp only
  omega

/-! ## 3. The server -/

/-- What the call finds in its process.

`α` is what an item of the parameter decodes to, `β` is what a handler leaves in a record.
`decode` gives `none` where the verifier refuses the bytes or they are not a parameter of the
service.  `order` is the pointer array when the handler starts working through it; a handler that
does not sort leaves it as it is.  `handle` gets the requests in that order and either raises an
error or leaves one result per request. -/
structure Server (α β : Type) where
  decode : FalconMetaServiceType → List Byte → Option α
  order : FalconMetaServiceType → List α → List Nat
  order_perm : ∀ t params, (order t params).Perm (range params.length)
  handle : FalconMetaServiceType → List α → Except String (List β)
  handle_length : ∀ t params results, handle t params = .ok results → results.length = params.length
  fresh : β
  encode : FalconMetaServiceType → β → FlatBuffer

/-! ## 4. The call -/

/-- `SD_SIZE_T_MAX`. -/
def sdSizeMax : Nat := 2 ^ 32 - 4

section Call

variable {α β : Type}

/-- The loop of `SerializedDataMetaParamDecode`, and of the decoders of the other families. -/
def paramDecode (host : Host) (decode : List Byte → Option α) (param : SerializedData) :
    Nat → Nat → Option (List α)
  | 0, _ => some []
  | count + 1, p =>
    match serializedDataNextSeveralItemSize host param p 1 with
    | .error _ => none
    | .ok size =>
      if size = sdSizeInvalid then none
      else
        match decode ((param.buffer.drop (p + 4)).take (size - 4)) with
        | none => none
        | some info => (paramDecode host decode param count ((p + size) % 2 ^ 32)).map (info :: ·)

/-- The records after the handler, in the order in which they were decoded. -/
def processItems (server : Server α β) (host : Host) (t : FalconMetaServiceType) (count : Nat)
    (paramBuffer : List Byte) : Except String (List β) :=
  match paramDecode host (server.decode t) ⟨paramBuffer, sdSizeMax, false⟩ count 0 with
  | none => .error (falconElogError .argumentError "serialized param is corrupt.")
  | some params =>
    let infoArray := server.order t params
    match server.handle t (gather params infoArray) with
    | .error message => .error message
    | .ok results => .ok (scatter (replicate count server.fresh) infoArray results)

/-- The loop of `SerializedDataMetaResponseEncode`, and of the encoders of the other families.
The buffer doubles from 128 and `repalloc` raises an error from `MaxAllocSize` on, so that the
limit is hit when more than `2 ^ 29` bytes are needed. -/
def responseEncode (host : Host) (fresh : Nat → Byte) (encode : β → FlatBuffer) :
    SerializedData → List β → Except Trouble SerializedData
  | response, [] => .ok response
  | response, info :: infos =>
    let item := (encode info).item
    if 2 ^ 29 < response.size + item.length then .error .refused
    else
      match putItem host (some fresh) response item with
      | .error trouble => .error trouble
      | .ok response => responseEncode host fresh encode response infos

section

variable (server : Server α β) (host : Host) (fresh : Nat → Byte)

include host

variable (t : FalconMetaServiceType) (count : Nat) (paramBuffer : List Byte)

/-- What the four families do alike: decode, handle, encode. -/
def processAndEncode : Except String SerializedData :=
  match processItems server host t count paramBuffer with
  | .error message => .error message
  | .ok infos =>
    match responseEncode host fresh (server.encode t) serializedDataInitEmpty infos with
    | .error _ => .error "invalid memory alloc request size"
    | .ok response => .ok response

def fileMetaProcess : Except String SerializedData :=
  if count ≠ 1 ∧ t.handlesBatch = false then
    .error (falconElogError .argumentError
      ("metaService " ++ toString t.number ++ " doesn't support batch operation."))
  else processAndEncode server host fresh t count paramBuffer

/-- `KVMetaProcess` has no count: it reads the first item only. -/
def kvMetaProcess (t : FalconMetaServiceType) (paramBuffer : List Byte) :
    Except String SerializedData :=
  processAndEncode server host fresh t 1 paramBuffer

def sliceMetaProcess : Except String SerializedData :=
  processAndEncode server host fresh t count paramBuffer

/-- `SliceIdProcess`: one item as well, whatever the count. -/
def sliceIdProcess (paramBuffer : List Byte) : Except String SerializedData :=
  processAndEncode server host fresh .fetchSliceId 1 paramBuffer

def metaProcess : Except String SerializedData :=
  if FalconMetaServiceType.plainCommand.number ≤ t.number ∧
      t.number ≤ FalconMetaServiceType.chmod.number then
    fileMetaProcess server host fresh t count paramBuffer
  else if FalconMetaServiceType.kvPut.number ≤ t.number ∧
      t.number ≤ FalconMetaServiceType.kvDel.number then
    kvMetaProcess server host fresh t paramBuffer
  else if FalconMetaServiceType.slicePut.number ≤ t.number ∧
      t.number ≤ FalconMetaServiceType.sliceDel.number then
    sliceMetaProcess server host fresh t count paramBuffer
  else if t = .fetchSliceId then sliceIdProcess server host fresh paramBuffer
  else
    .error (falconElogError .argumentError
      ("metaService " ++ toString t.number ++ " doesn't support operation."))

end

end Call

/-- A PostgreSQL process: the server, the pool, and what its allocations get. -/
structure Backend (α β : Type) where
  server : Server α β
  pageCount : Nat
  fresh : Nat → Byte
  pick : Nat → Nat
  behind : List Byte
  readable : 4 ≤ behind.length

/-- `falcon_meta_call_by_serialized_shmem_internal`: the shift of the response and the block there.
The count is an `int32` argument in the text of the query. -/
def falconMetaCallBySerializedShmemInternal {α β : Type} (b : Backend α β) (host : Host)
    (t : FalconMetaServiceType) (count paramShmemShift : Nat) (signature : Int)
    (paramBuffer : List Byte) : Except String (Nat × Block) :=
  if 2 ^ 31 ≤ count then .error "integer out of range"
  else if b.pageCount * pageSize < paramShmemShift then
    .error (falconElogError .argumentError "paramShmemShift is invalid.")
  else
    match metaProcess b.server host b.fresh t count paramBuffer with
    | .error message => .error message
    | .ok response =>
      if h : falconShmemAllocatorMalloc b.pick response.size = 0 then
        .error (falconElogError .programError
          ("FalconShmemAllocMalloc failed. Size: " ++ toString response.size ++ "."))
      else
        .ok (falconShmemAllocatorMalloc b.pick response.size,
          { signature := signature
            bytes := response.buffer.take response.size
            behind := b.behind
            small := (length_take_le _ _).trans (malloc_size_le h)
            readable := b.readable })

/-! ## 5. The decoder -/

section Decoder

variable {α β : Type} {host : Host}

/-- A parameter that was put together item by item: the blocks are padded, and all of them can be
addressed. -/
structure Framed (host : Host) (paramBuffer : List Byte) (bodies : List (List Byte)) : Prop where
  buffer : ∃ rest, paramBuffer = frames (sizeCodec host) bodies ++ rest
  blocks : ∀ b ∈ bodies, IsBlock b
  addressed : (frames (sizeCodec host) bodies).length ≤ sdSizeMax

variable {paramBuffer : List Byte} {bodies : List (List Byte)}

/-- Where the next item begins. -/
theorem Framed.offset_next (h : Framed host paramBuffer bodies) {i : Nat} (hi : i < bodies.length) :
    offset (sizeCodec host) bodies (i + 1) =
        offset (sizeCodec host) bodies i + 4 + (bodies[i]).length ∧
      offset (sizeCodec host) bodies (i + 1) ≤ sdSizeMax :=
  ⟨offset_succ (sizeCodec host) hi, (offset_le (sizeCodec host) bodies (i + 1)).trans h.addressed⟩

/-- The decoder reads the item at `offset i`. -/
theorem Framed.nextSeveralItemSize (h : Framed host paramBuffer bodies) {i : Nat}
    (hi : i < bodies.length) :
    serializedDataNextSeveralItemSize host ⟨paramBuffer, sdSizeMax, false⟩
      (offset (sizeCodec host) bodies i) 1 = .ok (4 + (bodies[i]).length) := by
  obtain ⟨rest, hbuffer⟩ := h.buffer
  have hwalk :=
    walk_frames (d := ⟨paramBuffer, sdSizeMax, false⟩) hbuffer h.blocks h.addressed 1 i hi
  have hstart := walk_frames (d := ⟨paramBuffer, sdSizeMax, false⟩) hbuffer h.blocks h.addressed i 0
    (by omega)
  have hmod := (walk_end hstart).2.1
  obtain ⟨hnext, hle⟩ := h.offset_next hi
  rw [Nat.zero_add, offset_zero] at hmod
  rw [serializedDataNextSeveralItemSize, if_neg (by omega), nextItems_of_walk hwalk]
  unfold sdSizeMax at hle
  congr 1
  omega

/-- **The decoder goes from item to item**, `n` of them from item `i` on. -/
theorem Framed.paramDecode (h : Framed host paramBuffer bodies) (decode : List Byte → Option α) :
    ∀ n i : Nat, i + n ≤ bodies.length →
      Connection.paramDecode host decode ⟨paramBuffer, sdSizeMax, false⟩ n
        (offset (sizeCodec host) bodies i) = ((bodies.drop i).take n).mapM decode := by
  intro n
  induction n with
  | zero =>
    intro i _
    rfl
  | succ n ih =>
    intro i hin
    have hi : i < bodies.length := by omega
    obtain ⟨rest, hbuffer⟩ := h.buffer
    obtain ⟨hnext, hle⟩ := h.offset_next hi
    unfold sdSizeMax at hle
    have hblock : (paramBuffer.drop (offset (sizeCodec host) bodies i + 4)).take
        (4 + (bodies[i]).length - 4) = bodies[i] := by
      rw [Nat.add_sub_cancel_left, hbuffer]
      exact take_block (sizeCodec host) hi rest
    have hp : (offset (sizeCodec host) bodies i + (4 + (bodies[i]).length)) % 2 ^ 32 =
        offset (sizeCodec host) bodies (i + 1) := by
      rw [hnext, ← Nat.add_assoc]
      exact Nat.mod_eq_of_lt (by omega)
    have hvalid : 4 + (bodies[i]).length ≠ sdSizeInvalid := by
      unfold sdSizeInvalid
      omega
    rw [Connection.paramDecode, h.nextSeveralItemSize hi]
    dsimp only
    rw [if_neg hvalid, hblock, hp, ih (i + 1) (by omega), drop_eq_getElem_cons hi,
      take_succ_cons, mapM_cons]
    cases decode bodies[i] with
    | none => rfl
    | some info => cases mapM decode ((bodies.drop (i + 1)).take n) <;> rfl

end Decoder

/-! ## 6. A call that succeeds -/

section Spec

variable {α β : Type} {host : Host}

/-- How many items a service answers when it is sent `count`. -/
def answeredItems (t : FalconMetaServiceType) (count : Nat) : Nat :=
  match t with
  | .kvPut | .kvGet | .kvDel | .fetchSliceId => 1
  | _ => count

variable {server : Server α β} {fresh : Nat → Byte} {t : FalconMetaServiceType} {count : Nat}
  {paramBuffer : List Byte} {response : SerializedData} {infos : List β}

theorem metaProcess_ok (h : metaProcess server host fresh t count paramBuffer = .ok response) :
    processAndEncode server host fresh t (answeredItems t count) paramBuffer = .ok response := by
  have hfile (h' : fileMetaProcess server host fresh t count paramBuffer = .ok response) :
      processAndEncode server host fresh t count paramBuffer = .ok response := by
    unfold fileMetaProcess at h'
    split at h'
    · cases h'
    · exact h'
  cases t <;> first | exact hfile h | exact h | cases h

/-- **The encoder appends one item per record.** -/
theorem responseEncode_ok {encode : β → FlatBuffer} {d d' : SerializedData} {items : List Item}
    {bodies : List (List Byte)} {rest : List Byte} (h : Holds host d items bodies rest)
    (henc : responseEncode host fresh encode d infos = .ok d') :
    ∃ bodies' rest',
      Holds host d' (items ++ infos.map fun info => (encode info).item) bodies' rest' := by
  induction infos generalizing d items bodies rest with
  | nil =>
    cases henc
    exact ⟨bodies, rest, by rwa [map_nil, append_nil]⟩
  | cons info infos ih =>
    simp only [responseEncode] at henc
    split at henc
    · cases henc
    · rename_i hroom
      have hsize := h.size
      obtain ⟨d₁, body, rest₁, hput, h₁⟩ := h.putItem fresh (encode info).item (by omega)
      rw [hput] at henc
      obtain ⟨bodies', rest', h'⟩ := ih h₁ henc
      refine ⟨bodies', rest', ?_⟩
      rwa [append_assoc] at h'

/-- The records after a handler: as many as were decoded, and each with the result of its own
request, whatever the handler has done to its pointers. -/
theorem processItems_ok (h : processItems server host t count paramBuffer = .ok infos) :
    infos.length = count ∧ ∃ params results,
      paramDecode host (server.decode t) ⟨paramBuffer, sdSizeMax, false⟩ count 0 = some params ∧
      server.handle t (gather params (server.order t params)) = .ok results ∧
      infos = scatter (replicate count server.fresh) (server.order t params) results := by
  unfold processItems at h
  split at h
  · cases h
  · rename_i params hparams
    dsimp only at h
    split at h
    · cases h
    · rename_i results hresults
      cases h
      refine ⟨?_, params, results, hparams, hresults, rfl⟩
      rw [length_scatter, length_replicate]

theorem processAndEncode_ok
    (h : processAndEncode server host fresh t count paramBuffer = .ok response) :
    ∃ infos bodies, processItems server host t count paramBuffer = .ok infos ∧
      List.Forall₂ IsBody (infos.map fun info => (server.encode t info).item) bodies ∧
      response.buffer.take response.size = frames (sizeCodec host) bodies := by
  unfold processAndEncode at h
  split at h
  · cases h
  · rename_i infos hinfos
    split at h
    · cases h
    · rename_i response' hencode
      cases h
      obtain ⟨bodies, rest, hholds⟩ := responseEncode_ok (holds_start host) hencode
      exact ⟨infos, bodies, hinfos, hholds.areBodies, hholds.take_size⟩

/-- **A call that succeeds** has left one item per record of the parameter that the service reads,
in their order, under the signature it was given. -/
theorem call_ok {b : Backend α β} {shift reply : Nat} {signature : Int} {block : Block}
    (h : falconMetaCallBySerializedShmemInternal b host t count shift signature paramBuffer =
      .ok (reply, block)) :
    reply ≠ 0 ∧ block.signature = signature ∧ ∃ infos bodies,
      processItems b.server host t (answeredItems t count) paramBuffer = .ok infos ∧
      List.Forall₂ IsBody (infos.map fun info => (b.server.encode t info).item) bodies ∧
      (∀ body ∈ bodies, IsBlock body) ∧ block.bytes = frames (sizeCodec host) bodies := by
  unfold falconMetaCallBySerializedShmemInternal at h
  split at h
  · cases h
  split at h
  · cases h
  split at h
  · cases h
  rename_i response hresponse
  split at h
  · cases h
  rename_i hmalloc
  cases h
  obtain ⟨infos, bodies, hinfos, hbodies, hbytes⟩ := processAndEncode_ok (metaProcess_ok hresponse)
  have hsmall := (length_take_le response.size response.buffer).trans (malloc_size_le hmalloc)
  unfold pageSize sizeofMemoryHdr at hsmall
  rw [hbytes, length_frames hbodies] at hsmall
  exact ⟨hmalloc, rfl, infos, bodies, hinfos, hbodies, isBlock_of_bodies hbodies (by omega), hbytes⟩

end Spec

end FalconFS.Connection
