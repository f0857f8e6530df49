/-
# Serialized data: the buffer that requests and replies travel in

A `SerializedData` is a growing buffer of items.  Each item is a 32-bit length, always little
endian in the buffer, and that many bytes, padded to a multiple of four.
`SerializedDataApplyForSegment` reserves an item and hands out a pointer for the caller to fill,
`SerializedDataAppend` copies a whole buffer behind another, and
`SerializedDataNextSeveralItemSize` walks over the items.

The sizes are `sd_size_t`, so their sums are taken modulo `2 ^ 32`; a wrapped sum makes the code
write behind its buffer or double a capacity for ever, and the model has an outcome for each.  The
main result says that none of this happens while the buffer stays below `2 ^ 31` bytes, and that
the reader then finds each item where the writer put it.  The writer and the reader meet at
`Holds`.
-/
import Mathlib.Data.List.Forall2
import Mathlib.Tactic.IntervalCases
import FalconFS.Lib.Frames

namespace FalconFS.Connection

open Frames List

/-! ## 1. Words in memory -/

abbrev Byte := BitVec 8

/-- The byte order of the machine. -/
inductive Host where
  | little
  | big
  deriving DecidableEq, Repr

namespace Host

/-- The four bytes that a store of `v` leaves, in the order of their addresses. -/
def store (host : Host) (v : BitVec 32) : List Byte :=
  let bytes := [v.extractLsb' 0 8, v.extractLsb' 8 8, v.extractLsb' 16 8, v.extractLsb' 24 8]
  match host with
  | little => bytes
  | big => bytes.reverse

def load (host : Host) (bytes : List Byte) : BitVec 32 :=
  match host, bytes with
  | little, [a, b, c, d] => d ++ c ++ b ++ a
  | big, [a, b, c, d] => a ++ b ++ c ++ d
  | _, _ => 0

@[simp] theorem length_store (host : Host) (v : BitVec 32) : (host.store v).length = 4 := by
  cases host <;> rfl

theorem join_bytes (v : BitVec 32) :
    v.extractLsb' 24 8 ++ v.extractLsb' 16 8 ++ v.extractLsb' 8 8 ++ v.extractLsb' 0 8 = v := by
  apply BitVec.eq_of_getLsbD_eq
  intro i hi
  simp only [BitVec.getLsbD_append, BitVec.getLsbD_extractLsb']
  grind

theorem load_store (host : Host) (v : BitVec 32) : host.load (host.store v) = v := by
  cases host <;> exact join_bytes v

end Host

/-- The test the code makes at run time: which byte of `0x01020304` is at the lowest address. -/
def systemIsLittleEndian (host : Host) : Bool := (host.store 0x01020304#32).head? == some 4#8

def convertBetweenBigAndLittleEndian (value : BitVec 32) : BitVec 32 :=
  ((value &&& 0xFF000000#32) >>> 24) ||| ((value &&& 0x00FF0000#32) >>> 8) |||
    ((value &&& 0x0000FF00#32) <<< 8) ||| ((value &&& 0x000000FF#32) <<< 24)

theorem convert_convert (v : BitVec 32) :
    convertBetweenBigAndLittleEndian (convertBetweenBigAndLittleEndian v) = v := by
  ext i hi
  interval_cases i <;> simp [convertBetweenBigAndLittleEndian]

/-- What the code stores in front of an item of `size` bytes, and how it reads it back. -/
def putSize (host : Host) (size : Nat) : List Byte :=
  let size := BitVec.ofNat 32 size
  host.store (if systemIsLittleEndian host then size else convertBetweenBigAndLittleEndian size)

def getSize (host : Host) (bytes : List Byte) : Nat :=
  let itemSize := host.load bytes
  (if systemIsLittleEndian host then itemSize
    else convertBetweenBigAndLittleEndian itemSize).toNat

theorem getSize_putSize (host : Host) (n : Nat) (h : n < 2 ^ 32) :
    getSize host (putSize host n) = n := by
  unfold getSize putSize
  rw [Host.load_store]
  dsimp only
  split
  · exact Nat.mod_eq_of_lt h
  · rw [convert_convert]
    exact Nat.mod_eq_of_lt h

def sizeCodec (host : Host) : Codec Byte where
  width := 4
  limit := 2 ^ 32
  enc := putSize host
  dec := getSize host
  length_enc _ := Host.length_store host _
  dec_enc := getSize_putSize host

/-! ## 2. The operations -/

/-- `SerializedData`.  The list is the whole allocation, so its length is the source's `capacity`;
before the first allocation it is empty.  `memoryManager` says whether there is one. -/
structure SerializedData where
  buffer : List Byte
  size : Nat
  memoryManager : Bool
  deriving DecidableEq, Repr

namespace SerializedData

def capacity (d : SerializedData) : Nat := d.buffer.length

end SerializedData

/-- The ways in which a call does not come back with a result. -/
inductive Trouble where
  | refused
  | outOfBounds
  | neverReturns
  deriving DecidableEq, Repr

/-- An allocation: `none` for `NULL`, or what the new bytes happen to hold. -/
abbrev Alloc := Option (Nat → Byte)

def serializedDataDefaultCapacity : Nat := 128

/-- What `SD_SIZE_T` arithmetic gives for the `-1` that the reader returns. -/
def sdSizeInvalid : Nat := 2 ^ 32 - 1

/-- `SerializedDataInit` without a buffer: the default memory manager takes the place of none. -/
def serializedDataInitEmpty : SerializedData := ⟨[], 0, true⟩

/-- The `while` of `SerializedDataEnlarge`.  After 32 doublings the 32-bit capacity is 0 and stays
0, so 33 rounds that have not ended never will. -/
def doubled (size : Nat) : Nat → Nat → Option Nat
  | 0, _ => none
  | rounds + 1, newCapacity =>
    if newCapacity < size then doubled size rounds (newCapacity * 2 % 2 ^ 32)
    else some newCapacity

def serializedDataEnlarge (alloc : Alloc) (d : SerializedData) (size : Nat) :
    Except Trouble SerializedData :=
  if size ≤ d.capacity then .ok d
  else if !d.memoryManager then .error .refused
  else
    let start := if d.capacity = 0 then serializedDataDefaultCapacity else d.capacity * 2 % 2 ^ 32
    match doubled size 33 start, alloc with
    | none, _ => .error .neverReturns
    | some _, none => .error .refused
    | some newCapacity, some fresh =>
      -- realloc keeps the old bytes, the ones behind them are whatever they are
      .ok { d with
        buffer := d.buffer ++ (List.range' d.capacity (newCapacity - d.capacity)).map fresh }

/-- A store through a pointer into the buffer. -/
def SerializedData.write (d : SerializedData) (pos : Nat) (bytes : List Byte) :
    Except Trouble SerializedData :=
  if pos + bytes.length ≤ d.capacity then
    .ok { d with buffer := d.buffer.take pos ++ bytes ++ d.buffer.drop (pos + bytes.length) }
  else .error .outOfBounds

/-- `size += (~(size & MASK) + 1) & MASK`; the mask is a `size_t`, so the complement has 64 bits. -/
def alignSize (size : Nat) : Nat := (size + (2 ^ 64 - size % 4) % 2 ^ 64 % 4) % 2 ^ 32

/-- The buffer, and where in it the caller may write. -/
def serializedDataApplyForSegment (host : Host) (alloc : Alloc) (d : SerializedData) (size : Nat) :
    Except Trouble (SerializedData × Nat) := do
  let size := alignSize size
  let d ← serializedDataEnlarge alloc d ((d.size + 4 + size) % 2 ^ 32)
  let p := d.size
  let d ← d.write p (putSize host size)
  return ({ d with size := (d.size + 4 + size) % 2 ^ 32 }, p + 4)

def serializedDataAppend (alloc : Alloc) (dest src : SerializedData) :
    Except Trouble SerializedData := do
  let dest ← serializedDataEnlarge alloc dest ((dest.size + src.size) % 2 ^ 32)
  let dest ← dest.write dest.size (src.buffer.take src.size)
  return { dest with size := (dest.size + src.size) % 2 ^ 32 }

/-- The loop of `SerializedDataNextSeveralItemSize`, with `p` an index into the buffer. -/
def nextItems (host : Host) (d : SerializedData) (start : Nat) : Nat → Nat → Except Trouble Nat
  | 0, p => .ok ((p % 2 ^ 32 + (2 ^ 32 - start)) % 2 ^ 32)
  | itemCount + 1, p =>
    if d.capacity < p + 4 then .error .outOfBounds
    else
      let itemSize := getSize host ((d.buffer.drop p).take 4)
      if itemSize % 4 ≠ 0 then .ok sdSizeInvalid
      else if d.size < p + 4 + itemSize then .ok sdSizeInvalid
      else nextItems host d start itemCount (p + 4 + itemSize)

def serializedDataNextSeveralItemSize (host : Host) (d : SerializedData) (start itemCount : Nat) :
    Except Trouble Nat :=
  if start % 4 ≠ 0 then .ok sdSizeInvalid else nextItems host d start itemCount start

/-! ## 3. What a buffer holds -/

/-- What a caller asks for and fills in: at most the bytes it has asked for. -/
structure Item where
  size : Nat
  payload : List Byte
  small : size < 2 ^ 32
  fits : payload.length ≤ size

def padded (size : Nat) : Nat := (size + 3) / 4 * 4

/-- The bytes that an item takes up, its length included. -/
def Item.length (it : Item) : Nat := 4 + padded it.size

def totalLength (items : List Item) : Nat := (items.map Item.length).sum

@[simp] theorem totalLength_nil : totalLength [] = 0 := rfl

@[simp] theorem totalLength_cons (it : Item) (items : List Item) :
    totalLength (it :: items) = it.length + totalLength items := by simp [totalLength]

@[simp] theorem totalLength_append (items items' : List Item) :
    totalLength (items ++ items') = totalLength items + totalLength items' := by
  simp [totalLength]

theorem padded_mod (size : Nat) : padded size % 4 = 0 := by
  unfold padded
  omega

theorem le_padded (size : Nat) : size ≤ padded size := by
  unfold padded
  omega

theorem alignSize_eq {size : Nat} (h : padded size < 2 ^ 32) : alignSize size = padded size := by
  unfold padded at h
  unfold alignSize padded
  omega

theorem totalLength_mod (items : List Item) : totalLength items % 4 = 0 := by
  induction items with
  | nil => rfl
  | cons it items ih =>
    have h := padded_mod it.size
    rw [totalLength_cons, Item.length]
    omega

/-- The bytes behind the header of an item: the payload, and padding the code leaves as it is. -/
structure IsBody (it : Item) (body : List Byte) : Prop where
  length : body.length = padded it.size
  payload : body.take it.payload.length = it.payload

/-- Blocks that an item can hold. -/
def IsBlock (b : List Byte) : Prop := b.length % 4 = 0 ∧ b.length < 2 ^ 32

/-- The capacities that doubling 128 goes through. -/
def Grown (capacity : Nat) : Prop := capacity = 0 ∨ ∃ k, k ≤ 31 ∧ capacity = 2 ^ k

/-- **The buffer holds the items**, in order, from its first byte. -/
structure Holds (host : Host) (d : SerializedData) (items : List Item) (bodies : List (List Byte))
    (rest : List Byte) : Prop where
  areBodies : List.Forall₂ IsBody items bodies
  buffer : d.buffer = frames (sizeCodec host) bodies ++ rest
  size : d.size = totalLength items
  grown : Grown d.capacity
  manager : d.memoryManager = true

variable {host : Host} {bodies : List (List Byte)}

theorem length_frames {items : List Item} (h : List.Forall₂ IsBody items bodies) :
    (frames (sizeCodec host) bodies).length = totalLength items := by
  induction h with
  | nil => rfl
  | cons hb _ ih =>
    rw [frames_cons, length_append, length_frame, ih, totalLength_cons, Item.length, hb.length]
    rfl

theorem length_le_totalLength {it : Item} {items : List Item} (h : it ∈ items) :
    it.length ≤ totalLength items := by
  obtain ⟨before, behind, rfl⟩ := append_of_mem h
  rw [totalLength_append, totalLength_cons]
  omega

/-- The bodies of items whose total length can be written down. -/
theorem isBlock_of_bodies {items : List Item} (h : List.Forall₂ IsBody items bodies)
    (hs : totalLength items < 2 ^ 32) : ∀ b ∈ bodies, IsBlock b := by
  intro b hb
  obtain ⟨i, hi, rfl⟩ := getElem_of_mem hb
  have hi' : i < items.length := h.length_eq ▸ hi
  have hbody := (forall₂_iff_get.mp h).2 i hi' hi
  have hlen : (bodies[i]).length = padded (items[i]).size := hbody.length
  have hle := length_le_totalLength (getElem_mem hi')
  rw [Item.length] at hle
  rw [IsBlock, hlen]
  exact ⟨padded_mod _, by omega⟩

theorem offset_eq {items : List Item} (h : List.Forall₂ IsBody items bodies) (i : Nat) :
    offset (sizeCodec host) bodies i = totalLength (items.take i) :=
  length_frames (forall₂_take i h)

open SerializedData

namespace Holds

variable {host : Host} {d : SerializedData} {items : List Item} {bodies : List (List Byte)}
  {rest : List Byte}

theorem take_size (h : Holds host d items bodies rest) :
    d.buffer.take d.size = frames (sizeCodec host) bodies := by
  rw [h.buffer, h.size, ← length_frames h.areBodies, take_left]

theorem length_rest (h : Holds host d items bodies rest) : d.capacity = d.size + rest.length := by
  rw [capacity, h.buffer, length_append, length_frames h.areBodies, h.size]

end Holds

theorem holds_start (host : Host) : Holds host serializedDataInitEmpty [] [] [] :=
  ⟨List.Forall₂.nil, rfl, rfl, Or.inl rfl, rfl⟩

/-! ## 4. The writer -/

theorem doubled_spec {size : Nat} (hs : size ≤ 2 ^ 31) :
    ∀ rounds k : Nat, k ≤ 31 → 31 < k + rounds →
      ∃ m, m ≤ 31 ∧ doubled size rounds (2 ^ k) = some (2 ^ m) ∧ size ≤ 2 ^ m := by
  intro rounds
  induction rounds with
  | zero =>
    intro k hk hr
    omega
  | succ rounds ih =>
    intro k hk hr
    rw [doubled]
    split
    · rename_i hlt
      have hk' : k < 31 := (Nat.pow_lt_pow_iff_right (by decide)).mp (lt_of_lt_of_le hlt hs)
      have hpow : 2 ^ (k + 1) < 2 ^ 32 := Nat.pow_lt_pow_right (by decide) (by omega)
      rw [← Nat.pow_succ, Nat.mod_eq_of_lt hpow]
      exact ih (k + 1) (by omega) (by omega)
    · rename_i hle
      exact ⟨k, hk, rfl, Nat.le_of_not_lt hle⟩

theorem doubled_start {size capacity : Nat} (hs : size ≤ 2 ^ 31) (hg : Grown capacity)
    (hc : capacity < size) :
    ∃ m, m ≤ 31 ∧ size ≤ 2 ^ m ∧
      doubled size 33 (if capacity = 0 then serializedDataDefaultCapacity
        else capacity * 2 % 2 ^ 32) = some (2 ^ m) := by
  rcases hg with rfl | ⟨k, -, rfl⟩
  · obtain ⟨m, hm, hd, hle⟩ := doubled_spec hs 33 7 (by omega) (by omega)
    exact ⟨m, hm, hle, hd⟩
  · have hk : k < 31 := (Nat.pow_lt_pow_iff_right (by decide)).mp (lt_of_lt_of_le hc hs)
    have hpow : 2 ^ (k + 1) < 2 ^ 32 := Nat.pow_lt_pow_right (by decide) (by omega)
    obtain ⟨m, hm, hd, hle⟩ := doubled_spec hs 33 (k + 1) (by omega) (by omega)
    refine ⟨m, hm, hle, ?_⟩
    rw [if_neg (Nat.two_pow_pos k).ne', ← Nat.pow_succ, Nat.mod_eq_of_lt hpow]
    exact hd

section Writer

variable {host : Host} {d : SerializedData} {items : List Item} {bodies : List (List Byte)}
  {rest : List Byte}

/-- **Enlarging keeps every byte in use**, and makes the room asked for. -/
theorem Holds.enlarge (h : Holds host d items bodies rest) (fresh : Nat → Byte) (size : Nat)
    (hs : size ≤ 2 ^ 31) :
    ∃ d' rest', serializedDataEnlarge (some fresh) d size = .ok d' ∧
      Holds host d' items bodies rest' ∧ size ≤ d'.capacity := by
  unfold serializedDataEnlarge
  split
  · rename_i hle
    exact ⟨d, rest, rfl, h, hle⟩
  · rename_i hle
    obtain ⟨m, hm, hsize, hd⟩ := doubled_start hs h.grown (Nat.lt_of_not_le hle)
    rw [h.manager]
    dsimp only
    rw [hd]
    refine ⟨_, rest ++ (range' d.capacity (2 ^ m - d.capacity)).map fresh, rfl,
      ⟨h.areBodies, ?_, h.size, Or.inr ⟨m, hm, ?_⟩, rfl⟩, ?_⟩
    · rw [h.buffer, append_assoc]
    · simp only [capacity, length_append, length_map, length_range']
      simp only [capacity] at hle
      omega
    · simp only [capacity, length_append, length_map, length_range']
      simp only [capacity] at hle
      omega

/-- A store replaces exactly the bytes it covers. -/
theorem write_eq {pre post : List Byte} (pos : Nat) (bytes old : List Byte)
    (hb : d.buffer = pre ++ (old ++ post)) (hpos : pos = pre.length)
    (hlen : old.length = bytes.length) :
    d.write pos bytes = .ok { d with buffer := pre ++ (bytes ++ post) } := by
  have hin : pos + bytes.length ≤ d.capacity := by
    simp only [capacity, hb, length_append]
    omega
  have hdrop : d.buffer.drop (pos + bytes.length) = post := by
    rw [hb, hpos, ← drop_drop, drop_left, ← hlen, drop_left]
  have htake : d.buffer.take pos = pre := by
    rw [hb, hpos, take_left]
  rw [write, if_pos hin, hdrop, htake, append_assoc]

theorem write_length {d' : SerializedData} {pos : Nat} {bytes : List Byte}
    (h : d.write pos bytes = .ok d') : d'.capacity = d.capacity := by
  unfold write at h
  split at h
  · rename_i hin
    cases h
    simp only [capacity] at hin ⊢
    simp only [length_append, length_take, length_drop]
    omega
  · cases h

/-- **A segment is reserved behind the items**: the header says its padded length, and the bytes
handed out are the ones behind it. -/
theorem Holds.applyForSegment (h : Holds host d items bodies rest) (fresh : Nat → Byte) (it : Item)
    (hs : totalLength items + it.length ≤ 2 ^ 31) :
    ∃ d' body post,
      serializedDataApplyForSegment host (some fresh) d it.size = .ok (d', totalLength items + 4) ∧
      d'.buffer = frames (sizeCodec host) bodies ++
        (putSize host (padded it.size) ++ (body ++ post)) ∧
      body.length = padded it.size ∧ d'.size = totalLength items + it.length ∧
      Grown d'.capacity ∧ d'.memoryManager = true := by
  unfold Item.length at hs ⊢
  have hmod : (totalLength items + 4 + padded it.size) % 2 ^ 32 =
      totalLength items + 4 + padded it.size := Nat.mod_eq_of_lt (by omega)
  have halign : alignSize it.size = padded it.size := alignSize_eq (by omega)
  obtain ⟨d₁, rest₁, hen, h₁, hroom⟩ :=
    h.enlarge fresh (totalLength items + 4 + padded it.size) (by omega)
  have hlen : 4 + padded it.size ≤ rest₁.length := by
    have hcap := h₁.length_rest
    have hsize := h₁.size
    omega
  -- the room behind the items: the header, the reserved bytes, and what is left
  have hsplit : d₁.buffer = frames (sizeCodec host) bodies ++
      (rest₁.take 4 ++ ((rest₁.drop 4).take (padded it.size) ++
        (rest₁.drop 4).drop (padded it.size))) := by
    rw [take_append_drop, take_append_drop, h₁.buffer]
  have hput : (putSize host (padded it.size)).length = 4 := Host.length_store host _
  have hwrite := write_eq (totalLength items) (putSize host (padded it.size)) _ hsplit
    (length_frames h₁.areBodies).symm (by
      rw [length_take, hput]
      omega)
  have hgrown := write_length hwrite ▸ h₁.grown
  refine ⟨⟨_, totalLength items + 4 + padded it.size, d₁.memoryManager⟩,
    (rest₁.drop 4).take (padded it.size), (rest₁.drop 4).drop (padded it.size), ?_, rfl, ?_,
    Nat.add_assoc _ _ _, hgrown, h₁.manager⟩
  · simp only [serializedDataApplyForSegment, halign, h.size, hmod, hen, bind, Except.bind, h₁.size,
      hwrite, pure, Except.pure]
  · rw [length_take, length_drop]
    omega

/-- A caller that asks for a segment and fills it. -/
def putItem (host : Host) (alloc : Alloc) (d : SerializedData) (it : Item) :
    Except Trouble SerializedData := do
  let (d, p) ← serializedDataApplyForSegment host alloc d it.size
  d.write p it.payload

/-- What is left of the reserved bytes once the payload is over their beginning. -/
theorem isBody_fill {it : Item} {body : List Byte} (hlen : body.length = padded it.size) :
    IsBody it (it.payload ++ body.drop it.payload.length) where
  length := by
    have h := le_padded it.size
    have h' := it.fits
    rw [length_append, length_drop, hlen]
    omega
  payload := take_left

/-- **A filled segment is one more item.** -/
theorem Holds.putItem (h : Holds host d items bodies rest) (fresh : Nat → Byte) (it : Item)
    (hs : totalLength items + it.length ≤ 2 ^ 31) :
    ∃ d' body rest', Connection.putItem host (some fresh) d it = .ok d' ∧
      Holds host d' (items ++ [it]) (bodies ++ [body]) rest' := by
  obtain ⟨d₁, body, post, happly, hbuffer, hlen, hsize, hgrown, hmanager⟩ :=
    h.applyForSegment fresh it hs
  have hfits : it.payload.length ≤ body.length := by
    rw [hlen]
    exact it.fits.trans (le_padded _)
  have hsplit : d₁.buffer = (frames (sizeCodec host) bodies ++ putSize host (padded it.size)) ++
      (body.take it.payload.length ++ (body.drop it.payload.length ++ post)) := by
    rw [← append_assoc (body.take _), take_append_drop, hbuffer, append_assoc]
  have hwrite := write_eq (totalLength items + 4) it.payload _ hsplit (by
      rw [length_append, length_frames h.areBodies]
      exact congrArg _ (Host.length_store host _).symm) (by
      rw [length_take]
      omega)
  have hb := isBody_fill hlen
  have hgrown' := (write_length hwrite).symm ▸ hgrown
  refine ⟨⟨_, d₁.size, d₁.memoryManager⟩, it.payload ++ body.drop it.payload.length, post, ?_,
    rel_append h.areBodies (List.Forall₂.cons hb List.Forall₂.nil), ?_, ?_, hgrown', hmanager⟩
  · simp only [Connection.putItem, happly, bind, Except.bind, hwrite]
  · simp only [frames_append, frames_cons, frames_nil, frame, append_nil, append_assoc]
    rw [hb.length]
    rfl
  · simp [hsize]

/-- **Appending a buffer appends its items.** -/
theorem Holds.append (h : Holds host d items bodies rest) (fresh : Nat → Byte)
    {src : SerializedData} {items' : List Item} {bodies' : List (List Byte)} {rest' : List Byte}
    (h' : Holds host src items' bodies' rest')
    (hs : totalLength items + totalLength items' < 2 ^ 31) :
    ∃ d' rest'', serializedDataAppend (some fresh) d src = .ok d' ∧
      Holds host d' (items ++ items') (bodies ++ bodies') rest'' := by
  have hmod : (totalLength items + totalLength items') % 2 ^ 32 =
      totalLength items + totalLength items' := Nat.mod_eq_of_lt (by omega)
  obtain ⟨d₁, rest₁, hen, h₁, hroom⟩ :=
    h.enlarge fresh (totalLength items + totalLength items') (by omega)
  have hlen : totalLength items' ≤ rest₁.length := by
    have hcap := h₁.length_rest
    have hsize := h₁.size
    omega
  have htake : src.buffer.take (totalLength items') = frames (sizeCodec host) bodies' := by
    rw [← h'.size, h'.take_size]
  have hsplit : d₁.buffer = frames (sizeCodec host) bodies ++
      (rest₁.take (totalLength items') ++ rest₁.drop (totalLength items')) := by
    rw [take_append_drop, h₁.buffer]
  have hwrite := write_eq (totalLength items) (frames (sizeCodec host) bodies') _ hsplit
    (length_frames h₁.areBodies).symm (by
      rw [length_take, length_frames h'.areBodies]
      omega)
  have hgrown := write_length hwrite ▸ h₁.grown
  refine ⟨⟨_, totalLength items + totalLength items', d₁.memoryManager⟩,
    rest₁.drop (totalLength items'), ?_, rel_append h.areBodies h'.areBodies, ?_, ?_, hgrown,
    h₁.manager⟩
  · simp only [serializedDataAppend, h.size, h'.size, hmod, hen, bind, Except.bind, h₁.size, htake,
      hwrite, pure, Except.pure]
  · rw [frames_append, append_assoc]
  · exact (totalLength_append _ _).symm

/-- **Appending to an empty buffer** copies, whatever the bytes are. -/
theorem append_empty (fresh : Nat → Byte) (src : SerializedData) (hsrc : src.size ≤ src.capacity)
    (hs : src.size ≤ 2 ^ 31) :
    ∃ d', serializedDataAppend (some fresh) serializedDataInitEmpty src = .ok d' ∧
      d'.buffer.take d'.size = src.buffer.take src.size := by
  have hmod : (serializedDataInitEmpty.size + src.size) % 2 ^ 32 = src.size := by
    rw [show serializedDataInitEmpty.size = 0 from rfl, Nat.zero_add]
    exact Nat.mod_eq_of_lt (by omega)
  obtain ⟨d₁, rest, hen, h₁, hroom⟩ := (holds_start .little).enlarge fresh src.size hs
  have hzero : d₁.size = 0 := h₁.size
  have hlen : (src.buffer.take src.size).length = src.size := by
    rw [length_take]
    exact Nat.min_eq_left hsrc
  have hsplit : d₁.buffer = [] ++ (d₁.buffer.take src.size ++ d₁.buffer.drop src.size) := by
    rw [take_append_drop, nil_append]
  have hwrite := write_eq 0 (src.buffer.take src.size) _ hsplit rfl (by
    rw [hlen, length_take]
    exact Nat.min_eq_left hroom)
  rw [nil_append] at hwrite
  refine ⟨⟨src.buffer.take src.size ++ d₁.buffer.drop src.size, src.size, d₁.memoryManager⟩, ?_,
    take_left' hlen⟩
  simp only [serializedDataAppend, hmod, hen, bind, Except.bind, hzero, hwrite, pure, Except.pure,
    Nat.zero_add, Nat.mod_eq_of_lt (show src.size < 2 ^ 32 by omega)]

end Writer

/-! ## 5. The reader -/

/-- Where the item at `p` ends, if the reader's loop goes on behind it. -/
def itemEnd (host : Host) (d : SerializedData) (p : Nat) : Option Nat :=
  if d.capacity < p + 4 then none
  else
    let itemSize := getSize host ((d.buffer.drop p).take 4)
    if itemSize % 4 ≠ 0 ∨ d.size < p + 4 + itemSize then none else some (p + 4 + itemSize)

/-- The positions that the loop goes through, `none` where it gives up. -/
def walk (host : Host) (d : SerializedData) : Nat → Nat → Option Nat
  | 0, p => some p
  | itemCount + 1, p => (itemEnd host d p).bind (walk host d itemCount)

section Walk

variable {host : Host} {d : SerializedData}

variable {p q start n : Nat}

/-- When the loop goes on, and where. -/
theorem itemEnd_eq_some_iff : itemEnd host d p = some q ↔
    p + 4 ≤ d.capacity ∧ getSize host ((d.buffer.drop p).take 4) % 4 = 0 ∧
      p + 4 + getSize host ((d.buffer.drop p).take 4) = q ∧ q ≤ d.size := by
  unfold itemEnd
  dsimp only
  split
  · exact ⟨nofun, fun h => by omega⟩
  · split
    · exact ⟨nofun, fun h => by omega⟩
    · rw [Option.some_inj]
      omega

theorem itemEnd_eq_some (h : itemEnd host d p = some q) :
    p + 4 ≤ q ∧ q % 4 = p % 4 ∧ q ≤ d.size := by
  have hnext := itemEnd_eq_some_iff.mp h
  omega

theorem nextItems_succ_of_some (h : itemEnd host d p = some q) :
    nextItems host d start (n + 1) p = nextItems host d start n q := by
  obtain ⟨hcap, halign, rfl, hsize⟩ := itemEnd_eq_some_iff.mp h
  rw [nextItems, if_neg (by omega)]
  dsimp only
  rw [if_neg (by omega), if_neg (by omega)]

theorem nextItems_succ_of_none (h : itemEnd host d p = none) :
    nextItems host d start (n + 1) p = .error .outOfBounds ∨
      nextItems host d start (n + 1) p = .ok sdSizeInvalid := by
  unfold itemEnd at h
  dsimp only at h
  rw [nextItems]
  split at h
  · rename_i hcap
    exact .inl (if_pos hcap)
  · rename_i hcap
    split at h
    · rename_i hout
      rw [if_neg hcap]
      dsimp only
      rcases hout with halign | hsize
      · exact .inr (if_pos halign)
      · rw [if_pos hsize, ite_self]
        exact .inr rfl
    · cases h

theorem nextItems_of_walk (h : walk host d n p = some q) :
    nextItems host d start n p = .ok ((q % 2 ^ 32 + (2 ^ 32 - start)) % 2 ^ 32) := by
  induction n generalizing p with
  | zero =>
    cases h
    rfl
  | succ n ih =>
    obtain ⟨r, hr, hrest⟩ := Option.bind_eq_some_iff.mp h
    rw [nextItems_succ_of_some hr, ih hrest]

theorem nextItems_of_walk_none (start : Nat) (h : walk host d n p = none) :
    nextItems host d start n p = .error .outOfBounds ∨
      nextItems host d start n p = .ok sdSizeInvalid := by
  induction n generalizing p with
  | zero => cases h
  | succ n ih =>
    rw [walk] at h
    cases hr : itemEnd host d p with
    | none => exact nextItems_succ_of_none hr
    | some r =>
      rw [hr, Option.bind_some] at h
      rw [nextItems_succ_of_some hr]
      exact ih h

/-- With room for a header behind the data nothing is read that is not there. -/
theorem nextItems_isOk (start : Nat) (hroom : d.size + 4 ≤ d.capacity) :
    ∀ n p : Nat, p ≤ d.size → ∃ size, nextItems host d start n p = .ok size := by
  intro n
  induction n with
  | zero =>
    intro p _
    exact ⟨_, rfl⟩
  | succ n ih =>
    intro p hp
    rw [nextItems, if_neg (by omega)]
    dsimp only
    split
    · exact ⟨_, rfl⟩
    · split
      · exact ⟨_, rfl⟩
      · rename_i hsize
        exact ih _ (Nat.le_of_not_lt hsize)

/-- Walking over `n` and then `m` items. -/
theorem walk_add (n m p : Nat) :
    walk host d (n + m) p = (walk host d n p).bind (walk host d m) := by
  induction n generalizing p with
  | zero => rw [Nat.zero_add, walk, Option.bind_some]
  | succ n ih =>
    rw [Nat.add_right_comm, walk, walk, Option.bind_assoc]
    exact congrArg _ (funext ih)

/-- Where a walk ends: behind its start, aligned as its start, and inside the data. -/
theorem walk_end (h : walk host d n p = some q) :
    p ≤ q ∧ q % 4 = p % 4 ∧ (p ≤ d.size → q ≤ d.size) := by
  induction n generalizing p with
  | zero =>
    cases h
    exact ⟨Nat.le_refl _, rfl, id⟩
  | succ n ih =>
    obtain ⟨r, hr, hrest⟩ := Option.bind_eq_some_iff.mp h
    obtain ⟨hle, hmod, hin⟩ := itemEnd_eq_some hr
    obtain ⟨hle', hmod', hin'⟩ := ih hrest
    exact ⟨by omega, by omega, fun _ => hin' hin⟩

/-- A part of a buffer, read by itself. -/
def window (bytes : List Byte) : SerializedData := ⟨bytes, bytes.length, false⟩

/-- **An item of a part is an item of the whole** that ends inside the part. -/
theorem itemEnd_window {pre part rest : List Byte} (hb : d.buffer = pre ++ (part ++ rest))
    (hsize : pre.length + part.length ≤ d.size) :
    itemEnd host (window part) p = some q ↔
      itemEnd host d (pre.length + p) = some (pre.length + q) ∧ q ≤ part.length := by
  have hcap : d.capacity = pre.length + (part.length + rest.length) := by
    rw [capacity, hb, length_append, length_append]
  have hwindow : (window part).capacity = part.length := rfl
  have hend : (window part).size = part.length := rfl
  rw [itemEnd_eq_some_iff, itemEnd_eq_some_iff, hcap, hwindow, hend, window]
  by_cases hroom : p + 4 ≤ part.length
  · -- the header of the item is the same in both
    have hheader : (d.buffer.drop (pre.length + p)).take 4 = (part.drop p).take 4 := by
      rw [hb, drop_append, drop_eq_nil_of_le (Nat.le_add_right _ _), nil_append,
        Nat.add_sub_cancel_left, drop_append_of_le_length (by omega),
        take_append_of_le_length (by rw [length_drop]; omega)]
    rw [hheader]
    dsimp only
    omega
  · omega

/-- **Walking inside a part** is walking in the whole, as long as the part is not left. -/
theorem walk_window {pre part rest : List Byte} (hb : d.buffer = pre ++ (part ++ rest))
    (hsize : pre.length + part.length ≤ d.size) (hp : p ≤ part.length) :
    walk host (window part) n p = some q ↔
      walk host d n (pre.length + p) = some (pre.length + q) ∧ q ≤ part.length := by
  induction n generalizing p with
  | zero =>
    simp only [walk, Option.some.injEq]
    omega
  | succ n ih =>
    simp only [walk, Option.bind_eq_some_iff]
    constructor
    · rintro ⟨r, hr, hrest⟩
      obtain ⟨hr', hle⟩ := (itemEnd_window hb hsize).mp hr
      obtain ⟨hrest', hq⟩ := (ih hle).mp hrest
      exact ⟨⟨_, hr', hrest'⟩, hq⟩
    · rintro ⟨⟨r', hr', hrest'⟩, hq⟩
      obtain ⟨hafter, -, -⟩ := itemEnd_eq_some hr'
      have hbefore := (walk_end hrest').1
      obtain ⟨r, rfl⟩ : ∃ r, r' = pre.length + r := ⟨r' - pre.length, by omega⟩
      have hle : r ≤ part.length := by omega
      exact ⟨r, (itemEnd_window hb hsize).mpr ⟨hr', hle⟩, (ih hle).mpr ⟨hrest', hq⟩⟩

/-- **The reader goes from frame to frame.**  The induction is on the items left to walk over. -/
theorem walk_frames {bodies : List (List Byte)} {rest : List Byte}
    (hb : d.buffer = frames (sizeCodec host) bodies ++ rest) (hblocks : ∀ b ∈ bodies, IsBlock b)
    (hsize : (frames (sizeCodec host) bodies).length ≤ d.size) :
    ∀ n i : Nat, i + n ≤ bodies.length →
      walk host d n (offset (sizeCodec host) bodies i) =
        some (offset (sizeCodec host) bodies (i + n)) := by
  intro n
  induction n with
  | zero =>
    intro i _
    rfl
  | succ n ih =>
    intro i hin
    have hi : i < bodies.length := by omega
    obtain ⟨halign, hsmall⟩ := hblocks _ (getElem_mem hi)
    have hheader : getSize host ((d.buffer.drop (offset (sizeCodec host) bodies i)).take 4) =
        (bodies[i]).length := by
      have h := take_header (sizeCodec host) hi rest
      rw [← hb] at h
      exact (congrArg (getSize host) h).trans (getSize_putSize host _ hsmall)
    have hnext : offset (sizeCodec host) bodies (i + 1) =
        offset (sizeCodec host) bodies i + 4 + (bodies[i]).length := offset_succ (sizeCodec host) hi
    have hle := offset_le (sizeCodec host) bodies (i + 1)
    have hcap : (frames (sizeCodec host) bodies).length ≤ d.capacity := by
      rw [capacity, hb, length_append]
      exact Nat.le_add_right _ _
    have hstep := ih (i + 1) (by omega)
    rw [hnext, show i + 1 + n = i + (n + 1) by omega] at hstep
    have hend : itemEnd host d (offset (sizeCodec host) bodies i) =
        some (offset (sizeCodec host) bodies i + 4 + (bodies[i]).length) := by
      rw [itemEnd_eq_some_iff, hheader]
      omega
    rw [walk, hend]
    exact hstep

end Walk

section Reader

variable {host : Host} {d : SerializedData} {items : List Item} {bodies : List (List Byte)}
  {rest : List Byte}

theorem totalLength_take_le (items : List Item) (i : Nat) :
    totalLength (items.take i) ≤ totalLength items := by
  have h := totalLength_append (items.take i) (items.drop i)
  rw [take_append_drop] at h
  omega

/-- **The payload is where the writer put it.** -/
theorem Holds.payload (h : Holds host d items bodies rest) {i : Nat} (hi : i < items.length) :
    (d.buffer.drop (totalLength (items.take i) + 4)).take (items[i]).payload.length =
      (items[i]).payload := by
  have hlen := h.areBodies.length_eq
  have hi' : i < bodies.length := hlen ▸ hi
  have hbody := (forall₂_iff_get.mp h.areBodies).2 i hi hi'
  have hblock := take_block (sizeCodec host) hi' rest
  rw [offset_eq h.areBodies, ← h.buffer] at hblock
  have hpay : (bodies[i]).take (items[i]).payload.length = (items[i]).payload := hbody.payload
  have hsize : (bodies[i]).length = padded (items[i]).size := hbody.length
  have hle : (items[i]).payload.length ≤ (bodies[i]).length := by
    rw [hsize]
    exact (items[i]).fits.trans (le_padded _)
  rw [← hblock, take_take, Nat.min_eq_left hle] at hpay
  exact hpay

section

variable (h : Holds host d items bodies rest) (hs : totalLength items < 2 ^ 32) {i n : Nat}
  (hin : i + n ≤ items.length)

include h hs hin

/-- The walk of the reader, `n` items on from item `i`. -/
theorem Holds.walk : Connection.walk host d n (totalLength (items.take i)) =
      some (totalLength (items.take (i + n))) := by
  have hsize : (frames (sizeCodec host) bodies).length ≤ d.size := by
    rw [length_frames h.areBodies, h.size]
  have hwalk :=
    walk_frames h.buffer (isBlock_of_bodies h.areBodies hs) hsize n i (h.areBodies.length_eq ▸ hin)
  rwa [offset_eq h.areBodies, offset_eq h.areBodies] at hwalk

/-- **The reader's answer** at the start of item `i`. -/
theorem Holds.nextSeveralItemSize :
    serializedDataNextSeveralItemSize host d (totalLength (items.take i)) n =
      .ok (totalLength ((items.drop i).take n)) := by
  have hmod := totalLength_mod (items.take i)
  have hsum := totalLength_append (items.take i) ((items.drop i).take n)
  rw [← take_add] at hsum
  have hle := totalLength_take_le items (i + n)
  rw [serializedDataNextSeveralItemSize, if_neg (by omega), nextItems_of_walk (h.walk hs hin)]
  congr 1
  omega

end

end Reader

/-! ## 6. Any sequence of calls -/

/-- How a buffer is built: from the empty one, by segments and by appending buffers built the same
way.  The functions say what the allocations of a call find in the memory they get. -/
inductive Script where
  | start
  | segment (before : Script) (fresh : Nat → Byte) (it : Item)
  | append (before : Script) (fresh : Nat → Byte) (src : Script)

namespace Script

def run (host : Host) : Script → Except Trouble SerializedData
  | start => .ok serializedDataInitEmpty
  | segment before fresh it => do
    let d ← before.run host
    putItem host (some fresh) d it
  | append before fresh src => do
    let d ← before.run host
    let s ← src.run host
    serializedDataAppend (some fresh) d s

/-- The items in the order in which they end up in the buffer. -/
def items : Script → List Item
  | start => []
  | segment before _ it => before.items ++ [it]
  | append before _ src => before.items ++ src.items

end Script

/-- **Every script builds a buffer that holds its items.** -/
theorem holds_run (host : Host) (s : Script) (hs : totalLength s.items < 2 ^ 31) :
    ∃ d bodies rest, s.run host = .ok d ∧ Holds host d s.items bodies rest := by
  induction s with
  | start => exact ⟨_, _, _, rfl, holds_start host⟩
  | segment before fresh it ih =>
    rw [Script.items, totalLength_append, totalLength_cons, totalLength_nil, Nat.add_zero] at hs
    obtain ⟨d, bodies, rest, hrun, h⟩ := ih (by omega)
    obtain ⟨d', body, rest', hput, h'⟩ := h.putItem fresh it hs.le
    refine ⟨d', _, _, ?_, h'⟩
    simp only [Script.run, hrun, bind, Except.bind, hput]
  | append before fresh src ih ih' =>
    rw [Script.items, totalLength_append] at hs
    obtain ⟨d, bodies, rest, hrun, h⟩ := ih (by omega)
    obtain ⟨s, bodies', rest', hrun', h'⟩ := ih' (by omega)
    obtain ⟨d', rest'', happ, h''⟩ := h.append fresh h' hs
    refine ⟨d', _, _, ?_, h''⟩
    simp only [Script.run, hrun, hrun', bind, Except.bind, happ]

/-- **The framing round trip.**  A buffer that was built with fewer than `2 ^ 31` bytes exists, the
reader started at any item gives the length of the items it is asked about, and behind each header
stand the bytes that the caller has written there. -/
theorem framing_round_trip (host : Host) (s : Script) (hs : totalLength s.items < 2 ^ 31) :
    ∃ d, s.run host = .ok d ∧ d.size = totalLength s.items ∧
      (∀ i n, i + n ≤ s.items.length →
        serializedDataNextSeveralItemSize host d (totalLength (s.items.take i)) n =
          .ok (totalLength ((s.items.drop i).take n))) ∧
      (∀ i, (hi : i < s.items.length) →
        (d.buffer.drop (totalLength (s.items.take i) + 4)).take (s.items[i]).payload.length =
          (s.items[i]).payload) := by
  obtain ⟨d, bodies, rest, hrun, h⟩ := holds_run host s hs
  exact ⟨d, hrun, h.size, fun i n hin => h.nextSeveralItemSize (by omega) hin,
    fun i hi => h.payload hi⟩

/-- Segments of five and of two bytes, and a buffer with one of a single byte behind them. -/
def threeItems : Script :=
  .append
    (.segment (.segment .start (fun _ => 0) ⟨5, [1, 2, 3, 4, 5], by decide, by decide⟩)
      (fun _ => 0) ⟨2, [6, 7], by decide, by decide⟩)
    (fun _ => 0) (.segment .start (fun _ => 0) ⟨1, [8], by decide, by decide⟩)

theorem framing_round_trip_threeItems : ∃ d, threeItems.run .big = .ok d ∧
    serializedDataNextSeveralItemSize .big d 12 2 = .ok 16 ∧ (d.buffer.drop 24).take 1 = [8] := by
  obtain ⟨d, hrun, -, hnext, hpayload⟩ := framing_round_trip .big threeItems (by decide)
  exact ⟨d, hrun, hnext 1 2 (by decide), hpayload 2 (by decide)⟩

end FalconFS.Connection
