/-
# What the decoders of key-value and slice requests accept

A request is a table of a flat buffer, and a count and the arrays it belongs to are fields of their
own.  The verifier looks at the structure alone: a string, a vector or the table itself may be
absent, and a vector may have any length.  `SerializedKvMetaParamDecode` and
`SerializedSliceParamDecode` check the size of the item, the verifier's answer and the type of the
table, and then take the addresses; the put handlers loop up to the count.

`decoded_arrays_iff`: behind a request that was accepted the arrays are there and long enough
exactly if the sender had put them there.  `short_request_accepted` is a request for which it had
not.
-/
import FalconFS.Connection.MetaCall
import FalconFS.Metadb.KvMeta

namespace FalconFS.ParamDecode

open Connection (Byte Host SerializedData Trouble FalconMetaServiceType sdSizeInvalid
  serializedDataNextSeveralItemSize putSize window)

/-! ## 1. The tables -/

/-- `table KVParam`.  A string or a vector that is absent is `none`. -/
structure KVParam where
  key : Option Name
  valueLen : UInt32
  sliceNum : UInt16
  valueKey : Option (List UInt64)
  location : Option (List UInt64)
  size : Option (List UInt32)

/-- `table SliceInfoParam`. -/
structure SliceInfoParam where
  filename : Option Name
  slicenum : UInt32
  inodeid : Option (List UInt64)
  chunkid : Option (List UInt32)
  sliceid : Option (List UInt64)
  slicesize : Option (List UInt32)
  sliceoffset : Option (List UInt32)
  slicelen : Option (List UInt32)
  sliceloc1 : Option (List UInt32)
  sliceloc2 : Option (List UInt32)

/-- `table SliceIndexParam`. -/
structure SliceIndexParam where
  filename : Option Name
  inodeid : UInt64
  chunkid : UInt32

/-- `MetaParam`: the type of the union, and its table if there is one. -/
inductive MetaParam where
  | keyOnlyParam (key : Option (Option Name))
  | kvParam (param : Option KVParam)
  | sliceInfoParam (param : Option SliceInfoParam)
  | sliceIndexParam (param : Option SliceIndexParam)
  | other

/-! ## 2. The decoders -/

/-- `KvMetaProcessInfoData`, as far as a put uses it.  An address is what it points at: `data()` of
a vector that is absent points at nothing, and taking it does no harm yet. -/
structure KvMetaProcessInfo where
  userkey : Option Name
  valuelen : UInt32
  slicenum : UInt16
  valuekey : Option (List UInt64)
  location : Option (List UInt64)
  slicelen : Option (List UInt32)

/-- `SliceProcessInfoData`, as the decoder fills it. -/
structure SliceProcessInfo where
  name : Option Name
  inputInodeid : UInt64
  inputChunkid : UInt32
  count : UInt32
  inodeIds : Option (List UInt64)
  chunkIds : Option (List UInt32)
  sliceIds : Option (List UInt64)
  sliceSizes : Option (List UInt32)
  sliceOffsets : Option (List UInt32)
  sliceLens : Option (List UInt32)
  sliceLoc1s : Option (List UInt32)
  sliceloc2s : Option (List UInt32)

/-- Why a decoder accepts nothing: it returns `false`, it reads outside the buffer, or it reads a
field of a table that is absent. -/
inductive Failure where
  | returnsFalse
  | trouble (t : Trouble)
  | nullTable
  deriving DecidableEq

section
/- The byte order, and the verifier with the accessors: what the bytes of an item hold, `none` where
`VerifyBuffer` refuses them. -/
variable (host : Host) (verifyBuffer : List Byte → Option MetaParam)

/-- What both decoders begin with: the item at `p`, and its size. -/
def metaParamAt (param : SerializedData) (p : Nat) : Except Failure (MetaParam × Nat) :=
  match serializedDataNextSeveralItemSize host param p 1 with
  | .error t => .error (.trouble t)
  | .ok size =>
    if size = sdSizeInvalid then .error .returnsFalse
    else
      match verifyBuffer ((param.buffer.drop (p + 4)).take (size - 4)) with
      | none => .error .returnsFalse
      | some metaParam => .ok (metaParam, size)

/-- `SerializedKvMetaParamDecode`. -/
def serializedKvMetaParamDecode (metaService : FalconMetaServiceType) (param : SerializedData)
    (infoData : KvMetaProcessInfo) : Except Failure KvMetaProcessInfo :=
  match metaParamAt host verifyBuffer param 0 with
  | .error failure => .error failure
  | .ok (metaParam, _) =>
    match metaService, metaParam with
    | .kvPut, .kvParam none => .error .nullTable
    | .kvPut, .kvParam (some kvParam) => .ok {
        userkey := kvParam.key
        valuelen := kvParam.valueLen
        slicenum := kvParam.sliceNum
        valuekey := kvParam.valueKey
        location := kvParam.location
        slicelen := kvParam.size }
    | .kvGet, .keyOnlyParam none | .kvDel, .keyOnlyParam none => .error .nullTable
    | .kvGet, .keyOnlyParam (some key) | .kvDel, .keyOnlyParam (some key) =>
      .ok { infoData with userkey := key }
    | _, _ => .error .returnsFalse

/-- The `switch` of `SerializedSliceParamDecode`. -/
def sliceParam (metaService : FalconMetaServiceType) (metaParam : MetaParam)
    (info : SliceProcessInfo) : Except Failure SliceProcessInfo :=
  match metaService, metaParam with
  | .slicePut, .sliceInfoParam none => .error .nullTable
  | .slicePut, .sliceInfoParam (some sliceParam) => .ok { info with
      name := sliceParam.filename
      count := sliceParam.slicenum
      inodeIds := sliceParam.inodeid
      chunkIds := sliceParam.chunkid
      sliceIds := sliceParam.sliceid
      sliceSizes := sliceParam.slicesize
      sliceOffsets := sliceParam.sliceoffset
      sliceLens := sliceParam.slicelen
      sliceLoc1s := sliceParam.sliceloc1
      sliceloc2s := sliceParam.sliceloc2 }
  | .sliceGet, .sliceIndexParam none | .sliceDel, .sliceIndexParam none => .error .nullTable
  | .sliceGet, .sliceIndexParam (some sliceParam)
  | .sliceDel, .sliceIndexParam (some sliceParam) => .ok { info with
      name := sliceParam.filename
      inputInodeid := sliceParam.inodeid
      inputChunkid := sliceParam.chunkid }
  | _, _ => .error .returnsFalse

/-- `SerializedSliceParamDecode` from the item at `p` on, into the records of `infoArray`. -/
def serializedSliceParamDecode (metaService : FalconMetaServiceType) (param : SerializedData) :
    List SliceProcessInfo → Nat → Except Failure (List SliceProcessInfo)
  | [], _ => .ok []
  | info :: rest, p => do
    let (metaParam, size) ← metaParamAt host verifyBuffer param p
    let info ← sliceParam metaService metaParam info
    let rest ← serializedSliceParamDecode metaService param rest ((p + size) % 2 ^ 32)
    return info :: rest

/-! ## 3. What the put handlers read -/

/-- The array is there, and has the elements that a loop up to `n` reads. -/
def Elements {α : Type} (array : Option (List α)) (n : Nat) : Prop :=
  ∃ xs, array = some xs ∧ n ≤ xs.length

/-- **What `FalconKvmetaPutHandle` reads**: the key, and `slicenum` elements of each array. -/
structure KvMetaProcessInfo.Readable (info : KvMetaProcessInfo) : Prop where
  userkey : info.userkey.isSome
  valuekey : Elements info.valuekey info.slicenum.toNat
  location : Elements info.location info.slicenum.toNat
  slicelen : Elements info.slicelen info.slicenum.toNat

/-- **What `FalconSlicePutHandle` reads** of a record: the name, and `count` elements of each of the
eight arrays. -/
structure SliceProcessInfo.Readable (info : SliceProcessInfo) : Prop where
  name : info.name.isSome
  inodeIds : Elements info.inodeIds info.count.toNat
  chunkIds : Elements info.chunkIds info.count.toNat
  sliceIds : Elements info.sliceIds info.count.toNat
  sliceSizes : Elements info.sliceSizes info.count.toNat
  sliceOffsets : Elements info.sliceOffsets info.count.toNat
  sliceLens : Elements info.sliceLens info.count.toNat
  sliceLoc1s : Elements info.sliceLoc1s info.count.toNat
  sliceloc2s : Elements info.sliceloc2s info.count.toNat

/-! ## 4. What the sender has to put there -/

/-- A table of a put with all its fields, and no vector shorter than its count. -/
def MetaParam.Complete : MetaParam → Prop
  | .kvParam (some t) => t.key.isSome ∧ Elements t.valueKey t.sliceNum.toNat ∧
      Elements t.location t.sliceNum.toNat ∧ Elements t.size t.sliceNum.toNat
  | .sliceInfoParam (some t) => t.filename.isSome ∧
      Elements t.inodeid t.slicenum.toNat ∧ Elements t.chunkid t.slicenum.toNat ∧
      Elements t.sliceid t.slicenum.toNat ∧ Elements t.slicesize t.slicenum.toNat ∧
      Elements t.sliceoffset t.slicenum.toNat ∧ Elements t.slicelen t.slicenum.toNat ∧
      Elements t.sliceloc1 t.slicenum.toNat ∧ Elements t.sliceloc2 t.slicenum.toNat
  | _ => True

/-- **The buffer holds complete tables**: the `n` items from `p` on, as far as the verifier passes
them. -/
def CompleteItems (param : SerializedData) : Nat → Nat → Prop
  | 0, _ => True
  | n + 1, p => ∀ metaParam size, metaParamAt host verifyBuffer param p = .ok (metaParam, size) →
      metaParam.Complete ∧ CompleteItems param n ((p + size) % 2 ^ 32)

variable {host verifyBuffer}

theorem kvDecode_readable_iff {param : SerializedData} {infoData info : KvMetaProcessInfo}
    (h : serializedKvMetaParamDecode host verifyBuffer .kvPut param infoData = .ok info) :
    info.Readable ↔ CompleteItems host verifyBuffer param 1 0 := by
  unfold serializedKvMetaParamDecode at h
  -- accepted: the item is there, and it is a table of a put
  cases hitem : metaParamAt host verifyBuffer param 0 with
  | error failure => simp [hitem] at h
  | ok item =>
    obtain ⟨metaParam, size⟩ := item
    rw [hitem] at h
    obtain _ | (_ | t) | _ | _ | _ := metaParam <;> cases h
    simp only [CompleteItems, hitem]
    constructor
    · intro hread metaParam size heq
      cases heq
      exact ⟨⟨hread.userkey, hread.valuekey, hread.location, hread.slicelen⟩, trivial⟩
    · intro hall
      obtain ⟨⟨hkey, hvalue, hloc, hlen⟩, -⟩ := hall _ _ rfl
      exact ⟨hkey, hvalue, hloc, hlen⟩

theorem sliceParam_readable_iff {metaParam : MetaParam} {info info' : SliceProcessInfo}
    (h : sliceParam .slicePut metaParam info = .ok info') :
    info'.Readable ↔ metaParam.Complete := by
  obtain _ | _ | (_ | t) | _ | _ := metaParam <;> cases h
  constructor
  · intro hr
    exact ⟨hr.name, hr.inodeIds, hr.chunkIds, hr.sliceIds, hr.sliceSizes, hr.sliceOffsets,
      hr.sliceLens, hr.sliceLoc1s, hr.sliceloc2s⟩
  · rintro ⟨h1, h2, h3, h4, h5, h6, h7, h8, h9⟩
    exact ⟨h1, h2, h3, h4, h5, h6, h7, h8, h9⟩

theorem sliceDecode_readable_iff {param : SerializedData} {infoArray infos : List SliceProcessInfo}
    {p : Nat} (h : serializedSliceParamDecode host verifyBuffer .slicePut param infoArray p =
      .ok infos) :
    (∀ info ∈ infos, info.Readable) ↔
      CompleteItems host verifyBuffer param infoArray.length p := by
  induction infoArray generalizing p infos with
  | nil =>
    cases h
    simp [CompleteItems]
  | cons info rest ih =>
    -- the loop went through this record, and through the others behind it
    rw [serializedSliceParamDecode] at h
    cases hitem : metaParamAt host verifyBuffer param p with
    | error failure => simp [hitem, bind, Except.bind] at h
    | ok item =>
      obtain ⟨metaParam, size⟩ := item
      cases hone : sliceParam .slicePut metaParam info with
      | error failure => simp [hitem, hone, bind, Except.bind] at h
      | ok info' =>
        cases hrest : serializedSliceParamDecode host verifyBuffer .slicePut param rest
            ((p + size) % 2 ^ 32) with
        | error failure => simp only [hitem, hone, hrest, bind, Except.bind, reduceCtorEq] at h
        | ok infos' =>
          simp only [hitem, hone, hrest, bind, Except.bind, pure, Except.pure] at h
          cases h
          rw [List.forall_mem_cons, sliceParam_readable_iff hone, ih hrest, List.length_cons,
            CompleteItems]
          constructor
          · intro hall metaParam' size' heq
            cases hitem.symm.trans heq
            exact hall
          · intro hall
            exact hall _ _ hitem

/-- **Nothing but the sender's care**: when a put is accepted, the arrays that its handler reads are
present and as long as the count exactly if the buffer holds them so. -/
theorem decoded_arrays_iff (host : Host) (verifyBuffer : List Byte → Option MetaParam)
    (param : SerializedData) :
    (∀ infoData info,
      serializedKvMetaParamDecode host verifyBuffer .kvPut param infoData = .ok info →
      (info.Readable ↔ CompleteItems host verifyBuffer param 1 0)) ∧
    ∀ infoArray infos,
      serializedSliceParamDecode host verifyBuffer .slicePut param infoArray 0 = .ok infos →
      ((∀ info ∈ infos, info.Readable) ↔
        CompleteItems host verifyBuffer param infoArray.length 0) := by
  constructor
  · intro infoData info h
    exact kvDecode_readable_iff h
  · intro infoArray infos h
    exact sliceDecode_readable_iff h

end

/-- A put of a key with one slice, and one without the arrays. -/
def kvPutOne : MetaParam := .kvParam (some ⟨some [107], 4096, 1, some [7], some [8], some [9]⟩)

def kvPutShort : MetaParam := .kvParam (some ⟨some [107], 4096, 1, none, none, none⟩)

/-- A put of one slice. -/
def slicePutOne : MetaParam :=
  .sliceInfoParam (some ⟨some [102], 1, some [9], some [0], some [7], some [8], some [0], some [8],
    some [1], some [2]⟩)

/-- The flat buffer that these little-endian words make. -/
def flatBuffer (words : List Nat) : List Byte := words.flatMap (putSize .little)

def kvPutOneBytes : List Byte :=
  flatBuffer [12, 0xC0008, 0x80007, 8, 0xF000000, 20, 0x1C0010, 0xC0008, 0x100006, 0x180014, 16,
    0x10000, 56, 4096, 36, 16, 4, 1, 9, 1, 8, 0, 0, 1, 7, 0, 1, 107]

def kvPutShortBytes : List Byte :=
  flatBuffer [12, 0xE0008, 0x80007, 8, 0xF000000, 16, 0xA0000, 0x80010, 0x6000C, 10, 0x10000, 8,
    4096, 1, 107]

def slicePutOneBytes : List Byte :=
  flatBuffer [12, 0xC0008, 0x80007, 8, 0x11000000, 28, 0x2C0018, 0x80004, 0x10000C, 0x180014,
    0x20001C, 0x280024, 24, 116, 1, 96, 84, 64, 52, 40, 28, 16, 4, 1, 2, 1, 1, 1, 8, 1, 0, 1, 8, 1,
    7, 0, 0, 1, 0, 1, 9, 0, 1, 102]

/-- What the verifier and the accessors say of these three. -/
def verifySamples (bytes : List Byte) : Option MetaParam :=
  if bytes = kvPutOneBytes then some kvPutOne
  else if bytes = kvPutShortBytes then some kvPutShort
  else if bytes = slicePutOneBytes then some slicePutOne
  else none

/-- A buffer with one item. -/
def oneItem (bytes : List Byte) : SerializedData := window (putSize .little bytes.length ++ bytes)

theorem metaParamAt_oneItem {bytes : List Byte} {metaParam : MetaParam}
    (hsize : serializedDataNextSeveralItemSize .little (oneItem bytes) 0 1 =
      .ok (bytes.length + 4))
    (hshort : bytes.length + 4 ≠ sdSizeInvalid) (hverify : verifySamples bytes = some metaParam) :
    metaParamAt .little verifySamples (oneItem bytes) 0 = .ok (metaParam, bytes.length + 4) := by
  have hdrop : (oneItem bytes).buffer.drop (0 + 4) = bytes :=
    List.drop_left' (Host.length_store .little _)
  simp only [metaParamAt, hsize, if_neg hshort, hdrop, Nat.add_sub_cancel, List.take_length,
    hverify]

/-- Records as `palloc` may give them. -/
def freshKv : KvMetaProcessInfo := ⟨none, 0, 0, none, none, none⟩

def freshSlice : SliceProcessInfo :=
  ⟨none, 0, 0, 0, none, none, none, none, none, none, none, none⟩

theorem complete_requests_readable :
    (∃ info, serializedKvMetaParamDecode .little verifySamples .kvPut (oneItem kvPutOneBytes)
      freshKv = .ok info ∧ info.Readable) ∧
    ∃ infos, serializedSliceParamDecode .little verifySamples .slicePut
      (oneItem slicePutOneBytes) [freshSlice] 0 = .ok infos ∧ ∀ info ∈ infos, info.Readable := by
  have hkv := @metaParamAt_oneItem kvPutOneBytes kvPutOne (by decide +kernel) (by decide +kernel)
    (if_pos rfl)
  have hslice := @metaParamAt_oneItem slicePutOneBytes slicePutOne (by decide +kernel)
    (by decide +kernel) (by rw [verifySamples, if_neg (by decide), if_neg (by decide), if_pos rfl])
  constructor
  · have hrun : serializedKvMetaParamDecode .little verifySamples .kvPut (oneItem kvPutOneBytes)
        freshKv = .ok ⟨some [107], 4096, 1, some [7], some [8], some [9]⟩ := by
      rw [serializedKvMetaParamDecode, hkv]
      rfl
    refine ⟨_, hrun, ((decoded_arrays_iff .little verifySamples _).1 freshKv _ hrun).2 ?_⟩
    intro metaParam size hitem
    cases hkv.symm.trans hitem
    exact ⟨⟨rfl, ⟨_, rfl, le_rfl⟩, ⟨_, rfl, le_rfl⟩, ⟨_, rfl, le_rfl⟩⟩, trivial⟩
  · have hrun : serializedSliceParamDecode .little verifySamples .slicePut
        (oneItem slicePutOneBytes) [freshSlice] 0 = .ok [⟨some [102], 0, 0, 1, some [9], some [0],
          some [7], some [8], some [0], some [8], some [1], some [2]⟩] := by
      rw [serializedSliceParamDecode, hslice]
      rfl
    refine ⟨_, hrun, ((decoded_arrays_iff .little verifySamples _).2 [freshSlice] _ hrun).2 ?_⟩
    intro metaParam size hitem
    cases hslice.symm.trans hitem
    exact ⟨⟨rfl, ⟨_, rfl, le_rfl⟩, ⟨_, rfl, le_rfl⟩, ⟨_, rfl, le_rfl⟩, ⟨_, rfl, le_rfl⟩,
      ⟨_, rfl, le_rfl⟩, ⟨_, rfl, le_rfl⟩, ⟨_, rfl, le_rfl⟩, ⟨_, rfl, le_rfl⟩⟩, trivial⟩

/-- **Accepted without its arrays**: the count says one slice, and there is no vector. -/
theorem short_request_accepted :
    ∃ info, serializedKvMetaParamDecode .little verifySamples .kvPut (oneItem kvPutShortBytes)
      freshKv = .ok info ∧ ¬info.Readable := by
  have hkv := @metaParamAt_oneItem kvPutShortBytes kvPutShort (by decide +kernel)
    (by decide +kernel) (by rw [verifySamples, if_neg (by decide), if_pos rfl])
  refine ⟨⟨some [107], 4096, 1, none, none, none⟩, ?_, fun h => ?_⟩
  · rw [serializedKvMetaParamDecode, hkv]
    rfl
  · obtain ⟨xs, hnone, -⟩ := h.valuekey
    cases hnone

end FalconFS.ParamDecode
