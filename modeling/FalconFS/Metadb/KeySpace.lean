/-
# The keys of the inode tables

Three packings share 64 bits: an inode id is a sequence number and 12 bits of a server id, a key is
an inode id and 13 bits of a part id, and the index compares keys as signed numbers.  The second
packing shifts 13 bits out of the id.  So the keys of two directories are apart, and a scan finds
the keys of its directory and no others, unless the same server made their ids from sequence
numbers that differ by a multiple of `2 ^ 39` (`keys_apart_iff`).  The sign changes nothing.
-/
import FalconFS.Metadb.ReadDir
import FalconFS.Utils.InodeSequence

namespace FalconFS.ReadDir

open ShardTable InodeSequence

/-- The key of a name in a directory. -/
def keyOf (signedChar : Bool) (directoryId : BitVec 64) (fileName : List Byte) : BitVec 64 :=
  combineParentIdWithPartId directoryId (hashPartId signedChar fileName)

/-- Between `lowerId` and `upperId`, in the order of the numbers that `value` makes of keys. -/
def Scanned (value : BitVec 64 → Int) (directoryId key : BitVec 64) : Prop :=
  value (combineParentIdWithPartId directoryId 0) ≤ value key ∧
    value key ≤ value (combineParentIdWithPartId directoryId 0x1FFF)

/-- The keys of the entries of `d` are not keys of entries of `d'` or of other part ids, and a scan
of `d` meets a key of `d'` only if `d'` is `d`, without a sign and with it. -/
def KeysApart (signedChar : Bool) (d d' : BitVec 64) : Prop :=
  ∀ name name' : List Byte,
    (keyOf signedChar d name = keyOf signedChar d' name' →
      d = d' ∧ hashPartId signedChar name = hashPartId signedChar name') ∧
    (Scanned (fun k => k.toNat) d (keyOf signedChar d' name') ↔ d' = d) ∧
    (Scanned BitVec.toInt d (keyOf signedChar d' name') ↔ d' = d)

/-- The bits of the ids that reach the keys are the same. -/
def Aliased (d d' : BitVec 64) : Prop := d.toNat % 2 ^ 51 = d'.toNat % 2 ^ 51

variable {signedChar : Bool} {d d' : BitVec 64} {name name' : List Byte}

theorem keyOf_toNat (signedChar : Bool) (d : BitVec 64) (name : List Byte) :
    (keyOf signedChar d name).toNat =
        d.toNat % 2 ^ 51 * 2 ^ 13 + (hashPartId signedChar name).toNat ∧
      (hashPartId signedChar name).toNat < 2 ^ 13 :=
  ⟨combine_toNat d (hashPartId_mask signedChar name), masked_lt (hashPartId_mask signedChar name)⟩

theorem bounds_toNat (d : BitVec 64) :
    (combineParentIdWithPartId d 0).toNat = d.toNat % 2 ^ 51 * 2 ^ 13 ∧
      (combineParentIdWithPartId d 0x1FFF).toNat = d.toNat % 2 ^ 51 * 2 ^ 13 + 8191 := by
  have hlo := @combine_toNat d 0 (by decide)
  have hhi := @combine_toNat d 0x1FFF (by decide)
  have hmask : (0x1FFF : BitVec 16).toNat = 8191 := by decide
  rw [hlo, hhi, hmask]
  exact ⟨Nat.add_zero _, rfl⟩

theorem scanned_toNat_iff :
    Scanned (fun k => k.toNat) d (keyOf signedChar d' name') ↔ Aliased d d' := by
  obtain ⟨hlo, hhi⟩ := bounds_toNat d
  obtain ⟨hkey, hpart⟩ := keyOf_toNat signedChar d' name'
  simp only [Scanned, Aliased, hlo, hhi, hkey]
  omega

/-- The sign bit is the same for all keys of a directory. -/
theorem scanned_toInt_iff : Scanned BitVec.toInt d (keyOf signedChar d' name') ↔ Aliased d d' := by
  obtain ⟨hlo, hhi⟩ := bounds_toNat d
  obtain ⟨hkey, hpart⟩ := keyOf_toNat signedChar d' name'
  simp only [Scanned, Aliased, BitVec.toInt_eq_toNat_cond, hlo, hhi, hkey]
  (repeat' split) <;> omega

theorem keysApart_iff : KeysApart signedChar d d' ↔ (Aliased d d' → d = d') := by
  constructor
  · intro h halias
    exact ((h [] []).2.1.mp (scanned_toNat_iff.mpr halias)).symm
  · intro h name name'
    have hscan : Aliased d d' ↔ d' = d := ⟨fun ha => (h ha).symm, fun heq => heq ▸ rfl⟩
    refine ⟨?_, scanned_toNat_iff.trans hscan, scanned_toInt_iff.trans hscan⟩
    intro hkey
    obtain ⟨hval, hpart⟩ := keyOf_toNat signedChar d name
    obtain ⟨hval', hpart'⟩ := keyOf_toNat signedChar d' name'
    rw [hkey, hval'] at hval
    exact ⟨h (by unfold Aliased; omega), BitVec.eq_of_toNat_eq (by omega)⟩

/-- **When keys are apart.**  For all ids that can be made, with sequence numbers below `2 ^ 52` and
server ids below 4096: exactly when it is not so that one server made them from two numbers which
agree in their low 39 bits. -/
theorem keys_apart_iff (signedChar : Bool) {seq seq' node node' : Nat}
    (hseq : seq < 2 ^ 52) (hseq' : seq' < 2 ^ 52) (hnode : node < 4096) (hnode' : node' < 4096) :
    KeysApart signedChar
        (generateInodeIdBySeqAndNodeId (BitVec.ofNat 64 seq) (BitVec.ofNat 32 node))
        (generateInodeIdBySeqAndNodeId (BitVec.ofNat 64 seq') (BitVec.ofNat 32 node')) ↔
      ¬(node = node' ∧ seq ≠ seq' ∧ seq % 2 ^ 39 = seq' % 2 ^ 39) := by
  rw [keysApart_iff, Aliased, ← BitVec.toNat_inj, toNat_generateInodeIdBySeqAndNodeId hseq,
    toNat_generateInodeIdBySeqAndNodeId hseq']
  omega

theorem keys_apart_first : KeysApart true
    (generateInodeIdBySeqAndNodeId (BitVec.ofNat 64 1) (BitVec.ofNat 32 0))
    (generateInodeIdBySeqAndNodeId (BitVec.ofNat 64 2) (BitVec.ofNat 32 0)) :=
  (keys_apart_iff true (by decide) (by decide) (by decide) (by decide)).mpr (by decide)

/-- The directories made from 1 and `2 ^ 39 + 1` on one server share their keys. -/
theorem keys_shared :
    generateInodeIdBySeqAndNodeId 1 0 ≠ generateInodeIdBySeqAndNodeId (2 ^ 39 + 1) 0 ∧
    keyOf true (generateInodeIdBySeqAndNodeId 1 0) [97] =
      keyOf true (generateInodeIdBySeqAndNodeId (2 ^ 39 + 1) 0) [97] := by
  decide

end FalconFS.ReadDir
