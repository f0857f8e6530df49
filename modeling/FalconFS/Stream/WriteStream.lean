/-
# The write stream

`stream_assembler.cpp` sits between the writes of a client and a file on another node.  Small
writes that follow each other are collected in a buffer of `FALCON_STORE_STREAM_MAX_SIZE` bytes;
the buffer goes out in one RPC when a write does not continue it or does not fit, and with
`Complete`.  A write as large as the buffer goes out by itself.

Offsets are 64-bit words, as `off_t` and `size_t` share them in the source: -1 marks a buffer that
is empty, and a word with its sign bit set is no position of a file, so nobody writes there
(`Write`).  What happens to an RPC, to an allocation and to a write to the own disk is decided by
the outside (`World`), at every call anew.  An RPC that times out may have arrived all the same,
and is then sent again.
-/
import FalconFS.Lib.Machine
import FalconFS.Lib.Patch
import Mathlib.Data.BitVec

namespace FalconFS.Stream

open Machine Sequence List

open Sequence (patch)

/-! ## 1. The outside -/

abbrev Bytes := List UInt8

/-- `FALCON_STORE_STREAM_MAX_SIZE` -/
def streamMaxSize : Nat := 256 * 1024

/-- `BRPC_RETRY_NUM` -/
def brpcRetryNum : Nat := 3

def enoent : Int := 2
def ebadf : Int := 9
def enomem : Int := 12
def enospc : Int := 28
def etimedout : Int := 110

inductive RpcOutcome
  | ok
  | timedOut (arrived : Bool)
  | failed (code : Int) (nonzero : code ≠ 0) (arrived : Bool)

/-- `pwrite` and the calls of `DiskCache` around it. -/
structure DiskOutcome where
  preAllocSpace : Bool
  pwrite : Option Nat
  add : Bool

/-- What the outside does, call by call. -/
structure World where
  rpc : Nat → RpcOutcome
  alloc : Nat → Bool
  disk : Nat → DiskOutcome

/-- Bytes for a place in the file, as an RPC carries them. -/
structure Rpc where
  offset : BitVec 64
  bytes : Bytes

/-- Bytes that a client writes, to a position of the file. -/
structure Write extends Rpc where
  position : offset.msb = false

/-- The file, the RPCs that were sent, and how many calls of the outside there were. -/
structure File where
  content : Bytes
  sent : List Rpc
  tick : Nat

namespace File

/-- The bytes of an RPC are written. -/
def arrive (f : File) (r : Rpc) : File :=
  { f with content := patch 0 f.content r.offset.toNat r.bytes }

/-- One attempt to have bytes written by the other node: `WriteFile`, or `CloseFile` with a
buffer. -/
def attempt (w : World) (f : File) (r : Rpc) : File × Int :=
  let f' : File := { f with sent := f.sent ++ [r], tick := f.tick + 1 }
  match w.rpc f.tick with
  | .ok => (f'.arrive r, 0)
  | .timedOut arrived => (if arrived then f'.arrive r else f', -etimedout)
  | .failed code _ arrived => (if arrived then f'.arrive r else f', code)

/-- The loop around it. -/
def retry (w : World) (f : File) (r : Rpc) : Nat → File × Int
  | 0 => (f, -etimedout)
  | n + 1 =>
    match f.attempt w r with
    | (f', ret) => if ret = -etimedout then retry w f' r n else (f', ret)

/-- `CloseFile` without a buffer. -/
def closeFile (w : World) (f : File) : File × Int :=
  let f' : File := { f with tick := f.tick + 1 }
  match w.rpc f.tick with
  | .ok => (f', 0)
  | .timedOut _ => (f', -etimedout)
  | .failed code _ _ => (f', code)

/-- A write to the own disk, with the bytes accounted for in the cache. -/
def writeDisk (w : World) (f : File) (r : Rpc) : File × Int :=
  let d := w.disk f.tick
  let f' : File := { f with tick := f.tick + 1 }
  if d.preAllocSpace then
    match d.pwrite with
    | some err => (f', -err)
    | none => (f'.arrive r, if d.add then 0 else -enoent)
  else (f', -enospc)

end File

/-! ## 2. The stream -/

/-- `SerialData`, with its `FixMemory`. -/
structure SerialData where
  /-- The memory of the buffer is there. -/
  mem : Bool
  bytes : Bytes
  offset : BitVec 64

namespace SerialData

/-- `SerialData::Clear` -/
def clear (d : SerialData) : SerialData := { d with bytes := [], offset := -1 }

/-- `SerialData::End` -/
def endOf (d : SerialData) : BitVec 64 :=
  BitVec.ofNat 64 d.bytes.length + if d.offset = -1 then 0 else d.offset

/-- `SerialData::Append`, when the allocation comes out as `alloc`. -/
def append (d : SerialData) (alloc : Bool) (bs : Bytes) (offset : BitVec 64) : SerialData :=
  if d.mem || alloc then
    if streamMaxSize < d.bytes.length + bs.length then { d with mem := true }
    else ⟨true, d.bytes ++ bs, if d.offset = -1 then offset else d.offset⟩
  else d

end SerialData

structure WriteStream where
  /-- `client != nullptr` -/
  client : Bool
  /-- `physicalFd != UINT64_MAX` -/
  opened : Bool
  direct : Bool
  data : SerialData
  file : File

namespace WriteStream

section

variable (w : World) (s : WriteStream)

/-- `PersistToFile` -/
def persistToFile (r : Rpc) : WriteStream × Int :=
  if r.bytes = [] then (s, 0)
  else if s.client then
    match s.file.retry w r brpcRetryNum with
    | (f, ret) => ({ s with file := f }, ret)
  else
    match s.file.writeDisk w r with
    | (f, ret) => ({ s with file := f }, ret)

/-- `Persist` -/
def persist : WriteStream × Int :=
  if !s.client && !s.opened then (s, -ebadf)
  else
    match s.persistToFile w ⟨s.data.offset, s.data.bytes⟩ with
    | (s', ret) => ({ s' with data := s'.data.clear }, ret)

/-- `Push` to the own disk. -/
def pushLocal (r : Rpc) : WriteStream × Int :=
  if s.direct && !w.alloc s.file.tick then (s, -enomem)
  else s.persistToFile w r

/-- The end of `Push`: the bytes go to the buffer. -/
def collect (r : Rpc) : WriteStream :=
  { s with
    data := s.data.append (w.alloc s.file.tick) r.bytes r.offset
    file := { s.file with tick := s.file.tick + 1 } }

/-- `Push`, with a buffer that may take the bytes after it has been emptied. -/
def pushSmall (r : Rpc) : WriteStream × Int :=
  if streamMaxSize < s.data.bytes.length + r.bytes.length then
    match s.persist w with
    | (s', ret) => if ret ≠ 0 then (s', ret) else (s'.collect w r, 0)
  else (s.collect w r, 0)

/-- `Push` -/
def push (r : Rpc) : WriteStream × Int :=
  if r.bytes = [] then (s, 0)
  else if !s.client then s.pushLocal w r
  else if s.data.endOf ≠ r.offset ∨ streamMaxSize ≤ r.bytes.length then
    match s.persist w with
    | (s', ret) =>
      if ret ≠ 0 then (s', ret)
      else if streamMaxSize ≤ r.bytes.length then s'.persistToFile w r
      else s'.pushSmall w r
  else s.pushSmall w r

/-- `Complete` -/
def complete : WriteStream × Int :=
  if s.client then
    if s.data.bytes = [] then
      match s.file.closeFile w with
      | (f, ret) => ({ s with file := f }, ret)
    else
      match s.file.retry w ⟨s.data.offset, s.data.bytes⟩ brpcRetryNum with
      | (f, ret) => ({ s with data := s.data.clear, file := f }, ret)
  else s.persist w

end

/-- A stream for a file on another node, before the first write. -/
def start (content : Bytes) : WriteStream :=
  ⟨true, true, false, ⟨false, [], -1⟩, ⟨content, [], 0⟩⟩

end WriteStream

inductive Call
  | push (r : Write)
  | complete

/-- A call that returns 0. -/
def call (w : World) (s : WriteStream) : Call → Option WriteStream
  | .push r =>
    match s.push w r.toRpc with
    | (s', ret) => if ret = 0 then some s' else none
  | .complete =>
    match s.complete w with
    | (s', ret) => if ret = 0 then some s' else none

/-! ## 3. What an RPC does to the file -/

section Files

variable {w : World} {f f' : File} {r : Rpc} {ret : Int}

theorem attempt_cases (h : f.attempt w r = (f', ret)) : f'.sent = f.sent ++ [r] ∧
      (f'.content = f.content ∨ f'.content = patch 0 f.content r.offset.toNat r.bytes) ∧
      (ret = 0 → f'.content = patch 0 f.content r.offset.toNat r.bytes) := by
  have hlost : ∀ (g : File) (arrived : Bool), (if arrived then g.arrive r else g).sent = g.sent ∧
      ((if arrived then g.arrive r else g).content = g.content ∨
        (if arrived then g.arrive r else g).content =
          patch 0 g.content r.offset.toNat r.bytes) := by
    intro g arrived
    match arrived with
    | true => exact ⟨rfl, Or.inr rfl⟩
    | false => exact ⟨rfl, Or.inl rfl⟩
  simp only [File.attempt] at h
  split at h
  · obtain ⟨rfl, rfl⟩ := Prod.mk.inj h
    exact ⟨rfl, Or.inr rfl, fun _ => rfl⟩
  · obtain ⟨rfl, rfl⟩ := Prod.mk.inj h
    exact ⟨(hlost _ _).1, (hlost _ _).2, fun h0 => absurd h0 (by decide)⟩
  · rename_i code hcode arrived _
    obtain ⟨rfl, rfl⟩ := Prod.mk.inj h
    exact ⟨(hlost _ _).1, (hlost _ _).2, fun h0 => absurd h0 hcode⟩

/-- **An RPC that succeeds**, at the first attempt or later: the bytes are written, and nothing
else was sent. -/
theorem retry_ok (n : Nat) (h : f.retry w r n = (f', 0)) :
    f'.content = patch 0 f.content r.offset.toNat r.bytes ∧ ∀ q ∈ f'.sent, q ∈ f.sent ∨ q = r := by
  induction n generalizing f with
  | zero => cases (Prod.mk.inj h).2
  | succ n ih =>
    obtain ⟨⟨g, ret⟩, hatt⟩ : ∃ x, f.attempt w r = x := ⟨_, rfl⟩
    simp only [File.retry, hatt] at h
    obtain ⟨hsent, hcontent, hok⟩ := attempt_cases hatt
    have hold : ∀ q ∈ g.sent, q ∈ f.sent ∨ q = r := by
      intro q hq
      rw [hsent] at hq
      simpa using hq
    split at h
    · -- it arrived or not, and is sent again
      obtain ⟨hc, hs⟩ := ih h
      refine ⟨?_, fun q hq => (hs q hq).elim (hold q) Or.inr⟩
      rcases hcontent with heq | heq
      · rw [hc, heq]
      · rw [hc, heq, patch_patch_self]
    · obtain ⟨rfl, rfl⟩ := Prod.mk.inj h
      exact ⟨hok rfl, hold⟩

end Files

/-! ## 4. The buffer over the file -/

/-- The bytes of an RPC are those of writes, each at the position for which it was written. -/
def Carries (writes : List Write) (r : Rpc) : Prop :=
  ∀ (i : Nat) (b : UInt8), r.bytes[i]? = some b → ∃ q ∈ writes, ∃ j : Nat, q.bytes[j]? = some b ∧
    q.offset.toNat + j = r.offset.toNat + i

/-- The writes one after the other. -/
def applied (content : Bytes) (writes : List Write) : Bytes :=
  writes.foldl (fun f r => patch 0 f r.offset.toNat r.bytes) content

theorem applied_snoc (content : Bytes) (writes : List Write) (r : Write) :
    applied content (writes ++ [r]) = patch 0 (applied content writes) r.offset.toNat r.bytes := by
  simp [applied]

theorem Carries.mono {writes : List Write} {r : Rpc} (h : Carries writes r) (q : Write) :
    Carries (writes ++ [q]) r := by
  intro i b hb
  obtain ⟨q', hq', j, hj⟩ := h i b hb
  exact ⟨q', mem_append_left _ hq', j, hj⟩

theorem carries_last (writes : List Write) (r : Write) : Carries (writes ++ [r]) r.toRpc :=
  fun i _ hb => ⟨r, by simp, i, hb, rfl⟩

/-- A write that continues the buffer. -/
theorem Carries.append {writes : List Write} {off : BitVec 64} {bs : Bytes}
    (h : Carries writes ⟨off, bs⟩) (r : Write) (hoff : r.offset.toNat = off.toNat + bs.length) :
    Carries (writes ++ [r]) ⟨off, bs ++ r.bytes⟩ := by
  intro i b hb
  dsimp only at hb ⊢
  rcases Nat.lt_or_ge i bs.length with hi | hi
  · rw [getElem?_append_left hi] at hb
    exact h.mono r i b hb
  · rw [getElem?_append_right hi] at hb
    exact ⟨r, by simp, i - bs.length, hb, by omega⟩

/-- **The invariant**: the file with the buffer laid over it is what the writes so far make of it.
-/
structure Inv (content : Bytes) (writes : List Write) (s : WriteStream) : Prop where
  client : s.client = true
  size : s.data.bytes.length ≤ streamMaxSize
  empty : s.data.bytes = [] → s.data.offset = -1
  position : s.data.bytes ≠ [] → s.data.offset.msb = false
  overlay : patch 0 s.file.content s.data.offset.toNat s.data.bytes = applied content writes
  carries : Carries writes ⟨s.data.offset, s.data.bytes⟩
  sent : ∀ r ∈ s.file.sent, Carries writes r

open WriteStream

section Calls

variable {w : World} {content : Bytes} {writes : List Write} {s s' : WriteStream} {r : Write}

theorem inv_start (content : Bytes) : Inv content [] (WriteStream.start content) where
  client := rfl
  size := Nat.zero_le _
  empty _ := rfl
  position h := absurd rfl h
  overlay := patch_nil ..
  carries i b hb := by cases hb
  sent q hq := by cases hq

theorem carries_nil (writes : List Write) (off : BitVec 64) : Carries writes ⟨off, []⟩ := by
  intro i b hb
  cases hb

/-- After the buffer has gone out. -/
structure Flushed (content : Bytes) (writes : List Write) (s : WriteStream) : Prop where
  inv : Inv content writes s
  bytes : s.data.bytes = []

/-- The buffer is cleared once its bytes are in the file. -/
theorem Inv.clear (h : Inv content writes s) {f : File}
    (hc : f.content = patch 0 s.file.content s.data.offset.toNat s.data.bytes)
    (hs : ∀ q ∈ f.sent, q ∈ s.file.sent ∨ q = ⟨s.data.offset, s.data.bytes⟩) :
    Flushed content writes { s with data := s.data.clear, file := f } where
  bytes := rfl
  inv :=
    { client := h.client
      size := Nat.zero_le _
      empty := fun _ => rfl
      position := fun hne => absurd rfl hne
      overlay := by
        rw [← h.overlay, ← hc]
        exact patch_nil ..
      carries := carries_nil writes _
      sent := by
        intro q hq
        rcases hs q hq with hq | rfl
        · exact h.sent q hq
        · exact h.carries }

/-- A successful `PersistToFile` to another node. -/
theorem persistToFile_ok {q : Rpc} (hclient : s.client = true) (hne : q.bytes ≠ [])
    (hp : s.persistToFile w q = (s', 0)) :
    ∃ f, s.file.retry w q brpcRetryNum = (f, 0) ∧ s' = { s with file := f } := by
  obtain ⟨⟨f, ret⟩, hret⟩ : ∃ x, s.file.retry w q brpcRetryNum = x := ⟨_, rfl⟩
  rw [persistToFile, if_neg hne, if_pos hclient, hret] at hp
  obtain ⟨rfl, rfl⟩ := Prod.mk.inj hp
  exact ⟨f, hret, rfl⟩

theorem Inv.persist (h : Inv content writes s) (hp : s.persist w = (s', 0)) :
    Flushed content writes s' := by
  rw [WriteStream.persist, if_neg (by simp [h.client])] at hp
  obtain ⟨⟨s₁, ret⟩, hfile⟩ : ∃ x, s.persistToFile w ⟨s.data.offset, s.data.bytes⟩ = x := ⟨_, rfl⟩
  rw [hfile] at hp
  obtain ⟨rfl, rfl⟩ := Prod.mk.inj hp
  by_cases hempty : s.data.bytes = []
  · rw [WriteStream.persistToFile, if_pos hempty] at hfile
    obtain ⟨rfl, -⟩ := Prod.mk.inj hfile
    refine h.clear ?_ fun q hq => Or.inl hq
    rw [hempty, patch_nil]
  · obtain ⟨f, hret, rfl⟩ := persistToFile_ok h.client hempty hfile
    obtain ⟨hc, hs⟩ := retry_ok _ hret
    exact h.clear hc hs

/-- A write that is as large as the buffer. -/
theorem Flushed.large (h : Flushed content writes s) (hne : r.bytes ≠ [])
    (hp : s.persistToFile w r.toRpc = (s', 0)) : Inv content (writes ++ [r]) s' := by
  obtain ⟨f, hret, rfl⟩ := persistToFile_ok h.inv.client hne hp
  obtain ⟨hc, hs⟩ := retry_ok _ hret
  have hover := h.inv.overlay
  rw [h.bytes, patch_nil] at hover
  refine ⟨h.inv.client, h.inv.size, h.inv.empty, h.inv.position, ?_, ?_, ?_⟩
  · rw [applied_snoc, ← hover, ← hc]
    dsimp only
    rw [h.bytes, patch_nil]
  · dsimp only
    rw [h.bytes]
    exact carries_nil _ _
  · intro q hq
    rcases hs q hq with hq | rfl
    · exact (h.inv.sent q hq).mono r
    · exact carries_last writes r

section

variable (h : Inv content writes s)

include h

/-- The end of the buffer is a position, and no arithmetic wraps. -/
theorem Inv.endOf (hne : s.data.bytes ≠ []) (hend : s.data.endOf = r.offset) :
    r.offset.toNat = s.data.offset.toNat + s.data.bytes.length := by
  have hpos := h.position hne
  have hsize := h.size
  have hlt : s.data.offset.toNat < 2 ^ 63 := by
    rw [BitVec.msb_eq_decide] at hpos
    simpa using hpos
  have hminus : s.data.offset ≠ -1 := by
    intro heq
    rw [heq] at hpos
    exact absurd hpos (by decide)
  rw [← hend, SerialData.endOf, if_neg hminus, BitVec.toNat_add, BitVec.toNat_ofNat]
  simp only [streamMaxSize] at hsize
  omega

/-- **A write goes to the buffer**, which is empty or ends where the write begins. -/
theorem Inv.collect (halloc : ∀ n, w.alloc n = true)
    (hne : r.bytes ≠ []) (hfits : s.data.bytes.length + r.bytes.length ≤ streamMaxSize)
    (hnext : s.data.bytes = [] ∨ s.data.endOf = r.offset) :
    Inv content (writes ++ [r]) (s.collect w r.toRpc) := by
  have hdata : (s.collect w r.toRpc).data =
      ⟨true, s.data.bytes ++ r.bytes,
        if s.data.offset = -1 then r.offset else s.data.offset⟩ := by
    simp only [WriteStream.collect, SerialData.append, halloc, Bool.or_true, if_true]
    rw [if_neg (by omega)]
  have hfile : (s.collect w r.toRpc).file.content = s.file.content := rfl
  have hsent : ∀ q ∈ (s.collect w r.toRpc).file.sent, Carries (writes ++ [r]) q :=
    fun q hq => (h.sent q hq).mono r
  by_cases hempty : s.data.bytes = []
  · have hover := h.overlay
    rw [hempty, patch_nil] at hover
    rw [if_pos (h.empty hempty), hempty, nil_append] at hdata
    refine ⟨h.client, ?_, ?_, ?_, ?_, ?_, hsent⟩
    · rw [hdata]
      dsimp only
      omega
    · intro hb
      rw [hdata] at hb
      exact absurd hb hne
    · intro _
      rw [hdata]
      exact r.position
    · rw [hdata, hfile, applied_snoc, hover]
    · rw [hdata]
      exact carries_last writes r
  · have hpos := h.position hempty
    have hminus : s.data.offset ≠ -1 := by
      intro heq
      rw [heq] at hpos
      exact absurd hpos (by decide)
    have hoff := h.endOf hempty (hnext.resolve_left hempty)
    rw [if_neg hminus] at hdata
    refine ⟨h.client, ?_, ?_, ?_, ?_, ?_, hsent⟩
    · rw [hdata, length_append]
      exact hfits
    · intro hb
      rw [hdata] at hb
      exact absurd (append_eq_nil_iff.mp hb).1 hempty
    · intro _
      rw [hdata]
      exact hpos
    · rw [hdata, hfile, applied_snoc, ← h.overlay, hoff, patch_append]
    · rw [hdata]
      exact h.carries.append r hoff

theorem Inv.pushSmall (halloc : ∀ n, w.alloc n = true)
    (hne : r.bytes ≠ []) (hsmall : r.bytes.length < streamMaxSize)
    (hnext : s.data.bytes = [] ∨ s.data.endOf = r.offset)
    (hp : s.pushSmall w r.toRpc = (s', 0)) : Inv content (writes ++ [r]) s' := by
  simp only [WriteStream.pushSmall] at hp
  split at hp
  · obtain ⟨⟨s₁, ret⟩, hper⟩ : ∃ x, s.persist w = x := ⟨_, rfl⟩
    simp only [hper] at hp
    split at hp
    · rename_i hret
      exact absurd (Prod.mk.inj hp).2 hret
    · rename_i hret
      obtain rfl : ret = 0 := by simpa using hret
      obtain ⟨rfl, -⟩ := Prod.mk.inj hp
      have hflushed := h.persist hper
      refine hflushed.inv.collect halloc hne ?_ (.inl hflushed.bytes)
      rw [hflushed.bytes, length_nil]
      omega
  · rename_i hfits
    obtain ⟨rfl, -⟩ := Prod.mk.inj hp
    exact h.collect halloc hne (by omega) hnext

/-- **One `Push`.** -/
theorem Inv.push (halloc : ∀ n, w.alloc n = true)
    (hp : s.push w r.toRpc = (s', 0)) : Inv content (writes ++ [r]) s' := by
  simp only [WriteStream.push, h.client, Bool.not_true, Bool.false_eq_true, if_false] at hp
  split at hp
  · rename_i hempty
    obtain ⟨rfl, -⟩ := Prod.mk.inj hp
    refine ⟨h.client, h.size, h.empty, h.position, ?_, h.carries.mono r, fun q hq =>
      (h.sent q hq).mono r⟩
    rw [applied_snoc, hempty, patch_nil]
    exact h.overlay
  · rename_i hne
    split at hp
    · obtain ⟨⟨s₁, ret⟩, hper⟩ : ∃ x, s.persist w = x := ⟨_, rfl⟩
      simp only [hper] at hp
      split at hp
      · rename_i hret
        exact absurd (Prod.mk.inj hp).2 hret
      · rename_i hret
        obtain rfl : ret = 0 := by simpa using hret
        have hflushed := h.persist hper
        split at hp
        · exact hflushed.large hne hp
        · rename_i hsmall
          exact hflushed.inv.pushSmall halloc hne (by omega) (.inl hflushed.bytes) hp
    · rename_i hcont
      have hnext : s.data.endOf = r.offset := by
        by_contra hno
        exact hcont (.inl hno)
      have hsmall : r.bytes.length < streamMaxSize := by
        by_contra hno
        exact hcont (.inr (by omega))
      exact h.pushSmall halloc hne hsmall (.inr hnext) hp

/-- **One `Complete`.** -/
theorem Inv.complete (hp : s.complete w = (s', 0)) : Flushed content writes s' := by
  rw [WriteStream.complete, if_pos h.client] at hp
  split at hp
  · rename_i hempty
    have hfile : ∀ f ret, s.file.closeFile w = (f, ret) →
        f.content = s.file.content ∧ f.sent = s.file.sent := by
      intro f ret hf
      simp only [File.closeFile] at hf
      split at hf
      · obtain ⟨rfl, -⟩ := Prod.mk.inj hf
        exact ⟨rfl, rfl⟩
      · obtain ⟨rfl, -⟩ := Prod.mk.inj hf
        exact ⟨rfl, rfl⟩
      · obtain ⟨rfl, -⟩ := Prod.mk.inj hf
        exact ⟨rfl, rfl⟩
    obtain ⟨⟨f, ret⟩, hclose⟩ : ∃ x, s.file.closeFile w = x := ⟨_, rfl⟩
    obtain ⟨hc, hs⟩ := hfile f ret hclose
    simp only [hclose] at hp
    obtain ⟨rfl, -⟩ := Prod.mk.inj hp
    refine ⟨⟨h.client, h.size, h.empty, h.position, ?_, h.carries, ?_⟩, hempty⟩
    · rw [← h.overlay, ← hc]
    · intro q hq
      exact h.sent q (hs ▸ hq)
  · obtain ⟨⟨f, ret⟩, hret⟩ : ∃ x, s.file.retry w ⟨s.data.offset, s.data.bytes⟩ brpcRetryNum = x :=
      ⟨_, rfl⟩
    simp only [hret] at hp
    obtain ⟨rfl, rfl⟩ := Prod.mk.inj hp
    obtain ⟨hc, hs⟩ := retry_ok _ hret
    exact h.clear hc hs

end

end Calls

/-! ## 5. Whole streams -/

/-- The writes among the calls. -/
def writesOf (calls : List Call) : List Write :=
  calls.filterMap fun c =>
    match c with
    | .push r => some r
    | .complete => none

section

variable {w : World} {content : Bytes} (halloc : ∀ n, w.alloc n = true) (calls : List Call)

include halloc

/-- Every call keeps the invariant, and so do all of them. -/
theorem inv_exec {writes : List Write} {s s' : WriteStream} (h : Inv content writes s)
    (hexec : exec (call w) s calls = some s') : Inv content (writes ++ writesOf calls) s' := by
  induction calls generalizing writes s with
  | nil =>
    cases hexec
    simpa [writesOf] using h
  | cons c calls ih =>
    simp only [exec] at hexec
    split at hexec
    · cases hexec
    · rename_i s₁ hcall
      cases c with
      | push r =>
        obtain ⟨⟨s₂, ret⟩, hpush⟩ : ∃ x, s.push w r.toRpc = x := ⟨_, rfl⟩
        simp only [call, hpush] at hcall
        split at hcall
        · rename_i hret
          subst hret
          cases hcall
          have := ih (h.push halloc hpush) hexec
          simpa [writesOf, append_assoc] using this
        · cases hcall
      | complete =>
        obtain ⟨⟨s₂, ret⟩, hcomplete⟩ : ∃ x, s.complete w = x := ⟨_, rfl⟩
        simp only [call, hcomplete] at hcall
        split at hcall
        · rename_i hret
          subst hret
          cases hcall
          exact ih (h.complete hcomplete).inv hexec
        · cases hcall

/-- **A stream in which every call returns 0**, be it at the second attempt. -/
theorem exec_complete {s : WriteStream}
    (hexec : exec (call w) (.start content) (calls ++ [.complete]) = some s) :
    s.file.content = applied content (writesOf calls) ∧
      ∀ r ∈ s.file.sent, Carries (writesOf calls) r := by
  rw [exec_append] at hexec
  obtain ⟨s₁, hcalls, hlast⟩ := Option.bind_eq_some_iff.mp hexec
  have hinv := inv_exec halloc calls (inv_start content) hcalls
  obtain ⟨⟨s₂, ret⟩, hcomplete⟩ : ∃ x, s₁.complete w = x := ⟨_, rfl⟩
  simp only [exec, call, hcomplete] at hlast
  by_cases hret : ret = 0
  · subst hret
    rw [if_pos rfl] at hlast
    cases hlast
    have hflushed := hinv.complete hcomplete
    have hover := hflushed.inv.overlay
    rw [hflushed.bytes, patch_nil] at hover
    exact ⟨hover, hflushed.inv.sent⟩
  · rw [if_neg hret] at hlast
    cases hlast

end

section Succeeds

variable {w : World} {s : WriteStream}

/-! Where all RPCs succeed, so do all calls. -/

section

variable (hrpc : ∀ n, w.rpc n = .ok)

include hrpc

theorem retry_succeeds (f : File) (r : Rpc) : ∃ f', f.retry w r brpcRetryNum = (f', 0) := by
  have hatt : ∃ f', f.attempt w r = (f', 0) := by
    simp only [File.attempt, hrpc]
    exact ⟨_, rfl⟩
  obtain ⟨f', hatt⟩ := hatt
  refine ⟨f', ?_⟩
  simp only [brpcRetryNum, File.retry, hatt]
  rfl

theorem persistToFile_succeeds (hclient : s.client = true) (r : Rpc) :
    ∃ s', s.persistToFile w r = (s', 0) ∧ s'.client = true := by
  obtain ⟨f, hret⟩ := retry_succeeds hrpc s.file r
  unfold persistToFile
  split
  · exact ⟨s, rfl, hclient⟩
  · rw [hret]
    exact ⟨_, rfl, hclient⟩

theorem persist_succeeds (hclient : s.client = true) :
    ∃ s', s.persist w = (s', 0) ∧ s'.client = true := by
  obtain ⟨s₁, hfile, hc⟩ := persistToFile_succeeds hrpc hclient ⟨s.data.offset, s.data.bytes⟩
  rw [persist, if_neg (by simp [hclient]), hfile]
  exact ⟨_, rfl, hc⟩

theorem pushSmall_succeeds (hclient : s.client = true) (r : Rpc) :
    ∃ s', s.pushSmall w r = (s', 0) ∧ s'.client = true := by
  obtain ⟨s₁, hper, hc⟩ := persist_succeeds hrpc hclient
  unfold pushSmall
  split
  · rw [hper]
    exact ⟨s₁.collect w r, rfl, hc⟩
  · exact ⟨s.collect w r, rfl, hclient⟩

theorem push_succeeds (hclient : s.client = true) (r : Rpc) :
    ∃ s', s.push w r = (s', 0) ∧ s'.client = true := by
  obtain ⟨s₁, hper, hc⟩ := persist_succeeds hrpc hclient
  unfold push
  split
  · exact ⟨s, rfl, hclient⟩
  · rw [if_neg (by simp [hclient])]
    split
    · rw [hper]
      simp only [ne_eq, not_true_eq_false, if_false]
      split
      · exact persistToFile_succeeds hrpc hc r
      · exact pushSmall_succeeds hrpc hc r
    · exact pushSmall_succeeds hrpc hclient r

theorem complete_succeeds (hclient : s.client = true) :
    ∃ s', s.complete w = (s', 0) ∧ s'.client = true := by
  obtain ⟨f, hret⟩ := retry_succeeds hrpc s.file ⟨s.data.offset, s.data.bytes⟩
  rw [complete, if_pos hclient]
  split
  · simp only [File.closeFile, hrpc]
    exact ⟨_, rfl, hclient⟩
  · rw [hret]
    exact ⟨_, rfl, hclient⟩

theorem exec_succeeds (calls : List Call) :
    ∀ {s : WriteStream}, s.client = true → ∃ s', exec (call w) s calls = some s' := by
  induction calls with
  | nil => exact fun {s} _ => ⟨s, rfl⟩
  | cons c calls ih =>
    intro s hclient
    match c with
    | .push r =>
      obtain ⟨s₁, hpush, hc⟩ := push_succeeds hrpc hclient r.toRpc
      simp only [exec, call, hpush, if_true]
      exact ih hc
    | .complete =>
      obtain ⟨s₁, hcomplete, hc⟩ := complete_succeeds hrpc hclient
      simp only [exec, call, hcomplete, if_true]
      exact ih hc

end

end Succeeds

/-- **The write stream loses nothing and moves nothing.**  For all sequences of writes, with
flushes between them or not, that end with `Complete`: the file has the bytes that the writes put
there one after the other, and every RPC carries bytes for the positions at which they were
written. -/
theorem write_stream_faithful {w : World} (hrpc : ∀ n, w.rpc n = .ok)
    (halloc : ∀ n, w.alloc n = true) (content : Bytes) (calls : List Call) :
    ∃ s, exec (call w) (.start content) (calls ++ [.complete]) = some s ∧
      s.file.content = applied content (writesOf calls) ∧
      ∀ r ∈ s.file.sent, Carries (writesOf calls) r := by
  obtain ⟨s, hexec⟩ := exec_succeeds hrpc (calls ++ [.complete]) (s := .start content) rfl
  exact ⟨s, hexec, exec_complete halloc calls hexec⟩

/-- Three writes: the second continues the first, the third goes back. -/
theorem write_stream_faithful_overlap :
    ∃ s, exec (call ⟨fun _ => .ok, fun _ => true, fun _ => ⟨true, none, true⟩⟩)
        (.start [9, 9])
        ([.push ⟨⟨1, [1, 2]⟩, rfl⟩, .push ⟨⟨3, [3]⟩, rfl⟩, .push ⟨⟨2, [7]⟩, rfl⟩] ++ [.complete]) =
          some s ∧
      s.file.content = [9, 1, 7, 3] := by
  obtain ⟨s, hexec, hcontent, -⟩ :=
    write_stream_faithful (w := ⟨fun _ => .ok, fun _ => true, fun _ => ⟨true, none, true⟩⟩)
      (fun _ => rfl) (fun _ => rfl) [9, 9]
      [.push ⟨⟨1, [1, 2]⟩, rfl⟩, .push ⟨⟨3, [3]⟩, rfl⟩, .push ⟨⟨2, [7]⟩, rfl⟩]
  exact ⟨s, hexec, hcontent.trans (by decide)⟩

end FalconFS.Stream
