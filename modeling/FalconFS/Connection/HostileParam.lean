/-
# Length words from a client

`SerializedDataNextSeveralItemSize` walks over the items of a buffer.  How long an item is says the
buffer itself, that is, whoever has filled it; what keeps the walk inside is the size that its
caller has initialised the buffer with.  There are three callers.

* `SingleWorkerTask::DoWork` walks over the request of its job, and passes the size of the request.
* `BatchWorkerTask::DoWork` walks over the reply, and passes the size of the reply.
* The meta-process functions (`FileMetaProcess`, `KVMetaProcess`, `SliceMetaProcess`,
  `SliceIdProcess`) walk over the parameter in shared memory, and pass `SD_SIZE_T_MAX`: the call
  has only been told where the parameter begins.

The bound of the third is none, and a length word is believed up to 4 GiB.  The bound of the first
two is right, but it is compared after the length word has been read, so that a walk which has come
to the last byte and has to find one more item reads the four bytes behind it.  `inside_iff` says
for which bytes, and for how many items, nothing of this happens.
-/
import FalconFS.Connection.MetaCall

namespace FalconFS.Connection

open Frames List

/-! ## 1. The callers -/

/-- What was received.  A block of shared memory has at most a megabyte and a `bytea` at most a
gigabyte, so that its size is an `sd_size_t`. -/
structure Received where
  bytes : List Byte
  small : bytes.length ≤ sdSizeMax

inductive Caller where
  | singleWorkerTask
  | batchWorkerTask
  | metaProcess
  deriving DecidableEq, Repr

/-- The size that the caller passes to `SerializedDataInit`. -/
def Caller.validBytes (r : Received) : Caller → Nat
  | singleWorkerTask => r.bytes.length
  | batchWorkerTask => r.bytes.length
  | metaProcess => sdSizeMax

variable (c : Caller) (host : Host) (r : Received) (start : BitVec 32) (itemCount : Nat)

/-- The walk over `itemCount` items from `start` on.  The memory is what was received and no more,
so that any other read is out of bounds. -/
def Caller.itemSize : Except Trouble Nat :=
  serializedDataNextSeveralItemSize host ⟨r.bytes, c.validBytes r, false⟩ start.toNat itemCount

/-- **The walk stays inside**: it reads nothing else, and a size that it returns ends inside. -/
def Inside (r : Received) (start : BitVec 32) : Except Trouble Nat → Prop
  | .error _ => False
  | .ok size => size = sdSizeInvalid ∨ start.toNat + size ≤ r.bytes.length

/-! ## 2. Which bytes are walked over safely -/

/-- A length word at `pos` that can be read and is refused: it is no multiple of four, or goes
beyond the bound. -/
def RefusedAt (host : Host) (bound pos : Nat) (rest : List Byte) : Prop :=
  4 ≤ rest.length ∧
    (getSize host (rest.take 4) % 4 ≠ 0 ∨ bound < pos + 4 + getSize host (rest.take 4))

/-- **Whole items, as many as are asked for; or fewer, and then a length word that is refused.** -/
def CutsInto (host : Host) (bound total itemCount : Nat) (bytes : List Byte) : Prop :=
  ∃ bodies rest, bytes = frames (sizeCodec host) bodies ++ rest ∧ (∀ b ∈ bodies, IsBlock b) ∧
    (bodies.length = itemCount ∨
      bodies.length < itemCount ∧ RefusedAt host bound (total - rest.length) rest)

/-- The bytes that the caller can be given with this start and this number of items. -/
def Caller.Safe : Prop :=
  start.toNat % 4 ≠ 0 ∨
    start.toNat ≤ r.bytes.length ∧
      CutsInto host (c.validBytes r) r.bytes.length itemCount (r.bytes.drop start.toNat)

theorem bytes_of_join (a b c d : Byte) :
    (d ++ c ++ b ++ a : BitVec 32).extractLsb' 0 8 = a ∧
      (d ++ c ++ b ++ a : BitVec 32).extractLsb' 8 8 = b ∧
      (d ++ c ++ b ++ a : BitVec 32).extractLsb' 16 8 = c ∧
      (d ++ c ++ b ++ a : BitVec 32).extractLsb' 24 8 = d := by
  refine ⟨?_, ?_, ?_, ?_⟩
  all_goals
    apply BitVec.eq_of_getLsbD_eq
    intro i hi
    simp only [BitVec.getLsbD_append, BitVec.getLsbD_extractLsb']
    grind

theorem Host.store_load (host : Host) {bytes : List Byte} (h : bytes.length = 4) :
    host.store (host.load bytes) = bytes := by
  match bytes, h with
  | [a, b, c, d], _ =>
    cases host with
    | little =>
      obtain ⟨ha, hb, hc, hd⟩ := bytes_of_join a b c d
      simp only [Host.load, Host.store, ha, hb, hc, hd]
    | big =>
      obtain ⟨hd, hc, hb, ha⟩ := bytes_of_join d c b a
      simp only [Host.load, Host.store, ha, hb, hc, hd]
      rfl

/-- Four bytes are the length word of their own value. -/
theorem putSize_getSize (host : Host) {bytes : List Byte} (h : bytes.length = 4) :
    putSize host (getSize host bytes) = bytes := by
  unfold putSize getSize
  dsimp only
  rw [BitVec.ofNat_toNat, BitVec.setWidth_eq]
  split
  · exact Host.store_load host h
  · rw [convert_convert]
    exact Host.store_load host h

theorem getSize_lt (host : Host) (bytes : List Byte) : getSize host bytes < 2 ^ 32 := BitVec.isLt _

/-! ## 3. One step of the walk, on what is left to walk over -/

section Step

variable {host : Host} {bound total itemCount : Nat} {bytes : List Byte}

theorem cutsInto_zero : CutsInto host bound total 0 bytes :=
  ⟨[], bytes, rfl, forall_mem_nil _, Or.inl rfl⟩

/-- Without room for a length word nothing is cut off. -/
theorem not_cutsInto_of_short (h : bytes.length < 4) :
    ¬ CutsInto host bound total (itemCount + 1) bytes := by
  rintro ⟨bodies, rest, rfl, -, hbodies⟩
  cases bodies with
  | nil =>
    rcases hbodies with h0 | ⟨-, h4, -⟩
    · cases h0
    · rw [frames_nil, nil_append] at h
      omega
  | cons b bs =>
    rw [frames_cons, length_append, length_append, length_frame] at h
    have : (sizeCodec host).width = 4 := rfl
    omega

/-- A length word that is refused ends the walk. -/
theorem cutsInto_of_refused (h : RefusedAt host bound (total - bytes.length) bytes) :
    CutsInto host bound total (itemCount + 1) bytes :=
  ⟨[], bytes, rfl, forall_mem_nil _, Or.inr ⟨Nat.succ_pos _, h⟩⟩

/-- The first item of what is cut is as long as its length word says. -/
theorem cutsInto_succ_iff (h4 : 4 ≤ bytes.length)
    (hno : ¬ RefusedAt host bound (total - bytes.length) bytes) :
    CutsInto host bound total (itemCount + 1) bytes ↔
      4 + getSize host (bytes.take 4) ≤ bytes.length ∧
        CutsInto host bound total itemCount (bytes.drop (4 + getSize host (bytes.take 4))) := by
  constructor
  · rintro ⟨bodies, rest, rfl, hblocks, hbodies⟩
    cases bodies with
    | nil =>
      rcases hbodies with h0 | ⟨-, hrefused⟩
      · cases h0
      · exact absurd hrefused hno
    | cons b bs =>
      obtain ⟨hb, hbs⟩ := forall_mem_cons.mp hblocks
      have hsplit : frames (sizeCodec host) (b :: bs) ++ rest =
          putSize host b.length ++ (b ++ (frames (sizeCodec host) bs ++ rest)) := by
        rw [frames_cons, frame]
        simp only [append_assoc]
        rfl
      have hput : (putSize host b.length).length = 4 := (sizeCodec host).length_enc _
      rw [hsplit, take_left' hput, getSize_putSize host _ hb.2, ← drop_drop,
        drop_left' hput, drop_left]
      refine ⟨?_, bs, rest, rfl, hbs, ?_⟩
      · rw [length_append, length_append, hput]
        omega
      · rcases hbodies with hlen | ⟨hlt, hrefused⟩
        · exact .inl (Nat.succ.inj hlen)
        · exact .inr ⟨Nat.lt_of_succ_lt_succ hlt, hrefused⟩
  · rintro ⟨hlen, bodies, rest, hrest, hblocks, hbodies⟩
    generalize hitem : getSize host (bytes.take 4) = item at *
    have hbody : ((bytes.drop 4).take item).length = item := by
      rw [length_take, length_drop]
      omega
    have haligned : item % 4 = 0 := by
      by_contra hodd
      exact hno ⟨h4, Or.inl (hitem ▸ hodd)⟩
    have hsplit :
        bytes = putSize host item ++ ((bytes.drop 4).take item ++ bytes.drop (4 + item)) := by
      have htake : putSize host item = bytes.take 4 := by
        rw [← hitem]
        exact putSize_getSize host (by rw [length_take]; omega)
      rw [htake, ← drop_drop, take_append_drop, take_append_drop]
    refine ⟨(bytes.drop 4).take item :: bodies, rest, ?_, ?_, ?_⟩
    · rw [frames_cons, frame, hbody, append_assoc, append_assoc, ← hrest]
      exact hsplit
    · refine forall_mem_cons.mpr ⟨⟨by rw [hbody]; exact haligned, ?_⟩, hblocks⟩
      rw [hbody, ← hitem]
      exact getSize_lt host _
    · rcases hbodies with hcount | ⟨hlt, hrefused⟩
      · exact .inl (congrArg Nat.succ hcount)
      · exact .inr ⟨Nat.succ_lt_succ hlt, hrefused⟩

end Step

/-! ## 4. The walk -/

/-- A walk that has left the bytes does not come back. -/
theorem not_inside_of_beyond {host : Host} {r : Received} {bound p : Nat} {start : BitVec 32}
    (hp : r.bytes.length < p) (hbound : p ≤ sdSizeMax) (halign : p % 4 = 0)
    (hs : start.toNat % 4 = 0) (itemCount : Nat) :
    ¬ Inside r start (nextItems host ⟨r.bytes, bound, false⟩ start.toNat itemCount p) := by
  cases itemCount with
  | zero =>
    unfold sdSizeMax at hbound
    rw [nextItems]
    unfold Inside sdSizeInvalid
    dsimp only
    omega
  | succ itemCount =>
    have hread : r.bytes.length < p + 4 := by omega
    rw [nextItems, SerializedData.capacity, if_pos hread]
    exact id

/-- **The walk from `p` on is inside exactly when what is left is cut into the items.**  The
induction is on the number of items, with the position free. -/
theorem inside_iff_cutsInto {host : Host} {r : Received} {bound : Nat} {start : BitVec 32}
    (hbound : bound ≤ sdSizeMax) (hs : start.toNat % 4 = 0) :
    ∀ itemCount p : Nat, start.toNat ≤ p → p ≤ r.bytes.length → p % 4 = 0 →
      (Inside r start (nextItems host ⟨r.bytes, bound, false⟩ start.toNat itemCount p) ↔
        CutsInto host bound r.bytes.length itemCount (r.bytes.drop p)) := by
  intro itemCount
  induction itemCount with
  | zero =>
    intro p hsp hp _
    refine iff_of_true (.inr ?_) cutsInto_zero
    omega
  | succ itemCount ih =>
    intro p hsp hp halign
    have hlen : (r.bytes.drop p).length = r.bytes.length - p := length_drop
    have hpos : r.bytes.length - (r.bytes.drop p).length = p := by omega
    rw [nextItems, SerializedData.capacity]
    dsimp only
    by_cases hread : r.bytes.length < p + 4
    · rw [if_pos hread]
      exact iff_of_false id (not_cutsInto_of_short (by omega))
    rw [if_neg hread]
    by_cases hrefused : RefusedAt host bound p (r.bytes.drop p)
    · refine iff_of_true ?_ (cutsInto_of_refused (by rwa [hpos]))
      rcases hrefused.2 with hodd | hbeyond
      · rw [if_pos hodd]
        exact .inl rfl
      · rw [if_pos hbeyond, ite_self]
        exact .inl rfl
    · rw [cutsInto_succ_iff (by omega) (by rwa [hpos])]
      generalize hitem : getSize host ((r.bytes.drop p).take 4) = item
      have haccepted : item % 4 = 0 ∧ p + 4 + item ≤ bound := by
        rw [RefusedAt, hitem] at hrefused
        omega
      rw [if_neg (by omega), if_neg (by omega), drop_drop, hlen, ← Nat.add_assoc]
      by_cases hinside : p + 4 + item ≤ r.bytes.length
      · rw [ih (p + 4 + item) (by omega) hinside (by omega)]
        exact (and_iff_right (by omega)).symm
      · exact iff_of_false (not_inside_of_beyond (by omega) (by omega) (by omega) hs _) fun h => by
          omega

/-- **What a client can send without harm.**  For every caller, the walk from `start` over
`itemCount` items reads only what was received and returns a size inside it, exactly for the bytes
in `Safe`. -/
theorem inside_iff (c : Caller) (host : Host) (r : Received) (start : BitVec 32) (itemCount : Nat) :
    Inside r start (c.itemSize host r start itemCount) ↔ c.Safe host r start itemCount := by
  have hvalid : r.bytes.length ≤ c.validBytes r ∧ c.validBytes r ≤ sdSizeMax := by
    cases c with
    | singleWorkerTask => exact ⟨Nat.le_refl _, r.small⟩
    | batchWorkerTask => exact ⟨Nat.le_refl _, r.small⟩
    | metaProcess => exact ⟨r.small, Nat.le_refl _⟩
  rw [Caller.itemSize, serializedDataNextSeveralItemSize, Caller.Safe]
  by_cases hs : start.toNat % 4 ≠ 0
  · rw [if_pos hs]
    exact iff_of_true (.inl rfl) (.inl hs)
  rw [if_neg hs]
  rw [not_not] at hs
  by_cases hstart : start.toNat ≤ r.bytes.length
  · rw [inside_iff_cutsInto hvalid.2 hs itemCount _ (Nat.le_refl _) hstart hs]
    exact ⟨fun h => Or.inr ⟨hstart, h⟩, fun h => h.elim (absurd hs) And.right⟩
  · have hmax : start.toNat ≤ sdSizeMax := by
      unfold sdSizeMax
      omega
    refine iff_of_false (not_inside_of_beyond (by omega) hmax hs hs _) ?_
    rintro (hodd | ⟨hle, -⟩)
    · exact hodd hs
    · exact hstart hle

/-- **Two requests that are read beyond their end.**  The length word of the first says 100 where
four bytes follow, and the meta-process functions take it as it is.  The second has no bytes at all
and one operation, and a single task reads its length word nevertheless. -/
theorem hostile_length_words :
    (∃ r : Received, r.bytes = [100, 0, 0, 0, 0, 0, 0, 0] ∧
      Caller.metaProcess.itemSize .little r 0 1 = .ok 104 ∧
      ¬ Inside r 0 (Caller.metaProcess.itemSize .little r 0 1)) ∧
    ∃ r : Received, r.bytes = [] ∧
      Caller.singleWorkerTask.itemSize .little r 0 1 = .error .outOfBounds ∧
      ¬ Inside r 0 (Caller.singleWorkerTask.itemSize .little r 0 1) := by
  constructor
  · have hsize : Caller.metaProcess.itemSize .little ⟨[100, 0, 0, 0, 0, 0, 0, 0], by decide⟩ 0 1 =
        .ok 104 := by decide +kernel
    refine ⟨_, rfl, hsize, ?_⟩
    rw [hsize]
    rintro (h | h)
    · exact absurd h (by decide)
    · exact absurd h (by decide)
  · exact ⟨⟨[], by decide⟩, rfl, rfl, id⟩

end FalconFS.Connection
