/-
# Inode rows with all their columns

`InodeTable.lean` keeps of a row what decides about it.  Here a row has every column of
`pg_dfs_inode_table` in its width, so that one can ask what a request does to the columns that are
only copied along.  `SearchAndUpdateInodeTableInfo` is the one function through which the handlers
change a row, and `InsertIntoInodeTable` the one through which most rows come into being.

On the columns that both models have, `SearchAndUpdateInfo.apply` is `SearchAndUpdate.apply`
(`apply_toRow`).
-/
import FalconFS.Metadb.InodeTable
import FalconFS.Metadb.ShardTable

namespace FalconFS.InodeRows

open Option

open ShardTable (Byte)

/-! ## 1. Rows -/

/-- The columns that are not in the key. -/
structure InodeTuple where
  stIno : BitVec 64
  stDev : BitVec 64
  stMode : BitVec 32
  stNlink : BitVec 64
  stUid : BitVec 32
  stGid : BitVec 32
  stRdev : BitVec 64
  stSize : BitVec 64
  stBlksize : BitVec 64
  stBlocks : BitVec 64
  stAtim : BitVec 64
  stMtim : BitVec 64
  stCtim : BitVec 64
  etag : List Byte
  updateVersion : BitVec 64
  primaryNodeid : BitVec 32
  backupNodeid : BitVec 32
  deriving DecidableEq

/-- The columns of the unique index. -/
structure RowKey where
  parentidPartid : BitVec 64
  name : List Byte
  deriving DecidableEq

/-- The inode shards of one server. -/
abbrev InodeRelation := RowKey → Option InodeTuple

/-- `S_ISREG`, `S_ISDIR` -/
def sIsreg (mode : BitVec 32) : Bool := mode &&& 0o170000 == 0o100000
def sIsdir (mode : BitVec 32) : Bool := mode &&& 0o170000 == 0o040000

def fails : ModeCheck → BitVec 32 → Bool
  | .none, _ => false
  | .mustBeFile, mode => !sIsreg mode
  | .mustBeDirectory, mode => !sIsdir mode

/-! ## 2. Changing a row -/

/-- The arguments of `SearchAndUpdateInodeTableInfo`.  A pointer through which only a column is
returned is left out; `updateVersion` and `mode` say whether the pointer is there, and
`nlinkChangeNum` is the change when `nlink` is. -/
structure SearchAndUpdateInfo where
  doUpdate : Bool
  newSize : Option (BitVec 64) := none
  updateVersion : Bool := false
  nlinkChangeNum : Option Int := none
  mode : Bool := false
  newExecMode : Option (BitVec 32) := none
  modeCheckType : ModeCheck := .none
  newUid : Option (BitVec 32) := none
  newGid : Option (BitVec 32) := none
  newEtag : Option (List Byte) := none
  newAtime : Option (BitVec 64) := none
  newMtime : Option (BitVec 64) := none
  newPrimaryNodeId : Option (BitVec 32) := none

namespace SearchAndUpdateInfo

section

variable (a : SearchAndUpdateInfo)

/-- A column other than the link count is to be written. -/
def changes : Bool :=
  a.newSize.isSome || a.updateVersion || a.newUid.isSome || a.newGid.isSome ||
    a.newExecMode.isSome ||
    a.newEtag.isSome || a.newAtime.isSome || a.newMtime.isSome || a.newPrimaryNodeId.isSome

/-- The link count goes to 0. -/
def deletes (r : InodeTuple) : Bool :=
  a.doUpdate && a.nlinkChangeNum.any fun n => r.stNlink + BitVec.ofInt 64 n == 0

/-- The tuple of `heap_modify_tuple`. -/
def modified (r : InodeTuple) : InodeTuple :=
  { r with
    stSize := a.newSize.getD r.stSize
    updateVersion := if a.updateVersion then r.updateVersion + 1 else r.updateVersion
    stNlink := (a.nlinkChangeNum.map fun n => r.stNlink + BitVec.ofInt 64 n).getD r.stNlink
    stUid := a.newUid.getD r.stUid
    stGid := a.newGid.getD r.stGid
    stMode := (a.newExecMode.map fun m => (r.stMode &&& ~~~0x1FF) ||| m).getD r.stMode
    etag := a.newEtag.getD r.etag
    stAtim := a.newAtime.getD r.stAtim
    stMtim := a.newMtime.getD r.stMtim
    primaryNodeid := a.newPrimaryNodeId.getD r.primaryNodeid }

/-- What becomes of the row: `some none` when it is deleted.  The link count decides on that before
the mode is looked at, and a mode that is not the expected one ends the function before the update.
An update of the tuple that was just deleted is an error of PostgreSQL (`none`). -/
def apply (r : InodeTuple) : Option (Option InodeTuple) :=
  if a.mode && fails a.modeCheckType r.stMode then some (if a.deletes r then none else some r)
  else if a.deletes r then if a.changes then none else some none
  else some (some (if a.doUpdate then a.modified r else r))

end

end SearchAndUpdateInfo

/-- `SearchAndUpdateInodeTableInfo`: the row that was found, from which the columns are returned,
and the relation. -/
def searchAndUpdateInodeTableInfo (rel : InodeRelation) (k : RowKey) (a : SearchAndUpdateInfo) :
    Option (Option InodeTuple × InodeRelation) :=
  match rel k with
  | none => some (none, rel)
  | some r => (a.apply r).map fun v => (some r, Function.update rel k v)

/-- `InsertIntoInodeTable`, or any `CatalogTupleInsert`: a key that is taken is an error. -/
def insertIntoInodeTable (rel : InodeRelation) (k : RowKey) (row : InodeTuple) :
    Option InodeRelation :=
  if (rel k).isSome then none else some (Function.update rel k (some row))

theorem insertIntoInodeTable_some {rel rel' : InodeRelation} {k : RowKey} {row : InodeTuple}
    (h : insertIntoInodeTable rel k row = some rel') :
    rel k = none ∧ rel' = Function.update rel k (some row) := by
  unfold insertIntoInodeTable at h
  split at h
  · cases h
  · rename_i hfree
    exact ⟨not_isSome_iff_eq_none.mp hfree, (some.inj h).symm⟩

theorem searchAndUpdate_some {rel rel' : InodeRelation} {k : RowKey} {a : SearchAndUpdateInfo}
    {found : Option InodeTuple} (h : searchAndUpdateInodeTableInfo rel k a = some (found, rel')) :
    found = rel k ∧ ((rel k = none ∧ rel' = rel) ∨
      ∃ r v, rel k = some r ∧ a.apply r = some v ∧ rel' = Function.update rel k v) := by
  unfold searchAndUpdateInodeTableInfo at h
  split at h
  · rename_i hnone
    cases h
    exact ⟨hnone.symm, Or.inl ⟨hnone, rfl⟩⟩
  · rename_i r hr
    obtain ⟨v, hv, hres⟩ := map_eq_some_iff.mp h
    cases hres
    exact ⟨hr.symm, Or.inr ⟨r, v, hr, hv, rfl⟩⟩

/-! ## 3. What an update keeps -/

/-- The file type in the mode. -/
def InodeTuple.type (r : InodeTuple) : BitVec 32 := r.stMode &&& 0o170000

/-- **A regular file with one link, or a directory with two.** -/
def InodeTuple.Typed (r : InodeTuple) : Prop :=
  (sIsreg r.stMode ∧ r.stNlink = 1) ∨ (sIsdir r.stMode ∧ r.stNlink = 2)

/-- The columns that `FalconRenameSubCreateHandle` fills with constants have these. -/
def InodeTuple.Plain (r : InodeTuple) : Prop :=
  r.etag = [] ∧ r.updateVersion = 0 ∧ r.backupNodeid = -1

theorem sIsreg_iff {r : InodeTuple} : sIsreg r.stMode ↔ r.type = 0o100000 := by
  rw [sIsreg, beq_iff_eq]
  rfl

theorem sIsdir_iff {r : InodeTuple} : sIsdir r.stMode ↔ r.type = 0o040000 := by
  rw [sIsdir, beq_iff_eq]
  rfl

theorem InodeTuple.Typed.congr {r r' : InodeTuple} (h : r.Typed) (htype : r'.type = r.type)
    (hnlink : r'.stNlink = r.stNlink) : r'.Typed := by
  unfold InodeTuple.Typed at h ⊢
  rwa [sIsreg_iff, sIsdir_iff, htype, hnlink, ← sIsreg_iff, ← sIsdir_iff]

/-- Permission bits are not type bits. -/
theorem chmod_type (old new : BitVec 32) (hnew : new &&& 0x1FF = new) :
    ((old &&& ~~~0x1FF) ||| new) &&& 0o170000 = old &&& 0o170000 := by
  have hold : (old &&& ~~~0x1FF) &&& 0o170000 = old &&& 0o170000 := by
    rw [BitVec.and_assoc]
    rfl
  have hzero : new &&& 0o170000 = 0#32 := by
    rw [← hnew, BitVec.and_assoc]
    exact BitVec.and_zero
  rw [BitVec.and_or_distrib_right, hold, hzero, BitVec.or_zero]

namespace SearchAndUpdateInfo

/-- The arguments that no handler passes, and the mask of `FalconChmodHandle`. -/
structure Usual (a : SearchAndUpdateInfo) : Prop where
  newEtag : a.newEtag = none
  updateVersion : a.updateVersion = false
  newExecMode : ∀ m ∈ a.newExecMode, m &&& 0x1FF = m

variable {a : SearchAndUpdateInfo} {r r' : InodeTuple}

theorem apply_some (h : a.apply r = some (some r')) : r' = r ∨ r' = a.modified r := by
  unfold apply at h
  split at h
  · split at h
    · cases h
    · exact Or.inl (some.inj (some.inj h)).symm
  · split at h
    · split at h <;> cases h
    · obtain rfl := some.inj (some.inj h)
      split
      · exact Or.inr rfl
      · exact Or.inl rfl

/-- **No update changes the type of a row.** -/
theorem Usual.type_eq (ha : a.Usual) (h : a.apply r = some (some r')) : r'.type = r.type := by
  rcases apply_some h with rfl | rfl
  · rfl
  · unfold InodeTuple.type modified
    cases hmode : a.newExecMode with
    | none => rfl
    | some m => exact chmod_type r.stMode m (ha.newExecMode m hmode)

theorem Usual.plain (ha : a.Usual) (h : a.apply r = some (some r')) (hr : r.Plain) : r'.Plain := by
  rcases apply_some h with rfl | rfl
  · exact hr
  · obtain ⟨hetag, hversion, hbackup⟩ := hr
    refine ⟨?_, ?_, hbackup⟩
    · rw [modified, ha.newEtag]
      exact hetag
    · rw [modified, ha.updateVersion]
      exact hversion

theorem nlink_eq (ha : a.nlinkChangeNum = none) (h : a.apply r = some (some r')) :
    r'.stNlink = r.stNlink := by
  rcases apply_some h with rfl | rfl
  · rfl
  · rw [modified, ha]
    rfl

/-! ## 4. The smaller model -/

/-- The arguments that the smaller model has. -/
def toSearch (a : SearchAndUpdateInfo) : SearchAndUpdate where
  doUpdate := a.doUpdate
  newSize := a.newSize.map BitVec.toInt
  nlinkChange := a.nlinkChangeNum
  modeCheck := if a.mode then a.modeCheckType else .none
  newPrimaryNodeId := a.newPrimaryNodeId.map BitVec.toInt

end SearchAndUpdateInfo

/-- The columns that the smaller model has. -/
def InodeTuple.toRow (r : InodeTuple) : InodeRow :=
  ⟨r.stIno.toNat, r.stMode.toNat, r.stNlink.toNat, r.stSize.toInt, r.primaryNodeid.toInt⟩

theorem addNlink_toNat (nlink : BitVec 64) (n : Int) :
    addNlink nlink.toNat n = (nlink + BitVec.ofInt 64 n).toNat := by
  rw [addNlink, BitVec.toNat_add, BitVec.toNat_ofInt]
  omega

theorem mode_toNat (mode : BitVec 32) (type : BitVec 32) :
    (mode.toNat &&& FalconFS.sIfmt == type.toNat) = (mode &&& 0o170000 == type) := by
  have hand : (mode &&& 0o170000).toNat = mode.toNat &&& FalconFS.sIfmt := BitVec.toNat_and _ _
  rw [← hand, Bool.eq_iff_iff, beq_iff_eq, beq_iff_eq, BitVec.toNat_inj]

theorem fails_toRow (c : ModeCheck) (r : InodeTuple) : c.fails r.toRow = fails c r.stMode := by
  cases c with
  | none => rfl
  | mustBeFile => exact congrArg not (mode_toNat r.stMode 0o100000)
  | mustBeDirectory => exact congrArg not (mode_toNat r.stMode 0o040000)

theorem any_toRow (change : Option Int) (r : InodeTuple) :
    (change.any fun n => addNlink r.toRow.stNlink n = 0) =
      change.any fun n => r.stNlink + BitVec.ofInt 64 n == 0 := by
  cases change with
  | none => rfl
  | some n =>
    rw [any_some, any_some, InodeTuple.toRow, addNlink_toNat, Bool.eq_iff_iff,
      decide_eq_true_iff, beq_iff_eq, ← BitVec.toNat_inj]
    rfl

open SearchAndUpdateInfo

theorem modified_toRow {a : SearchAndUpdateInfo} (hmode : a.newExecMode = none) (r : InodeTuple) :
    (a.modified r).toRow = { r.toRow with
      stSize := a.toSearch.newSize.getD r.toRow.stSize
      stNlink := (a.nlinkChangeNum.map (addNlink r.toRow.stNlink)).getD r.toRow.stNlink
      primaryNodeId := a.toSearch.newPrimaryNodeId.getD r.toRow.primaryNodeId } := by
  simp only [modified, toSearch, InodeTuple.toRow, hmode,
    map_none, getD_none, InodeRow.mk.injEq, true_and]
  refine ⟨?_, ?_, ?_⟩
  · cases a.nlinkChangeNum with
    | none => rfl
    | some n => exact (addNlink_toNat r.stNlink n).symm
  · cases a.newSize <;> rfl
  · cases a.newPrimaryNodeId <;> rfl

/-- **On the columns of the smaller model the two functions agree.** -/
theorem apply_toRow {a : SearchAndUpdateInfo} {r : InodeTuple} {v : Option InodeTuple}
    (hmode : a.newExecMode = none) (h : a.apply r = some v) :
    v.map InodeTuple.toRow = (a.toSearch.apply r.toRow).getD (some r.toRow) := by
  have hfails : a.toSearch.modeCheck.fails r.toRow =
      (a.mode && fails a.modeCheckType r.stMode) := by
    rw [fails_toRow, toSearch]
    cases a.mode <;> rfl
  have hdeletes : a.deletes r = (a.doUpdate && a.toSearch.nlinkChange.any
      fun n => addNlink r.toRow.stNlink n = 0) := by
    rw [any_toRow]
    rfl
  have hupdate : a.toSearch.doUpdate = a.doUpdate := rfl
  unfold apply at h
  unfold SearchAndUpdate.apply
  rw [hfails, hupdate]
  cases hdo : a.doUpdate with
  | false =>
    rw [hdo, Bool.false_and] at hdeletes
    simp only [hdeletes, hdo, Bool.false_eq_true, if_false, ite_self, some.injEq] at h
    rw [← h]
    rfl
  | true =>
    rw [hdo, Bool.true_and] at hdeletes
    rw [← hdeletes, if_pos rfl]
    by_cases hdel : a.deletes r
    · rw [if_pos hdel]
      have hv : v = none := by
        simp only [hdel, if_true] at h
        split at h
        · exact (some.inj h).symm
        · split at h
          · cases h
          · exact (some.inj h).symm
      rw [hv]
      rfl
    · rw [if_neg hdel]
      rw [if_neg hdel, if_neg hdel, hdo, if_pos rfl] at h
      by_cases hcheck : (a.mode && fails a.modeCheckType r.stMode) = true
      · rw [if_pos hcheck] at h ⊢
        rw [← some.inj h]
        rfl
      · rw [if_neg hcheck] at h ⊢
        rw [← some.inj h, map_some, modified_toRow hmode]
        split
        · rfl
        · -- no column of the smaller model is written
          rename_i hnone
          simp only [Bool.or_eq_true, not_or, Bool.not_eq_true, isSome_eq_false_iff,
            isNone_iff_eq_none] at hnone
          obtain ⟨⟨hsize, hnlink⟩, hnode⟩ := hnone
          have hnlink : a.nlinkChangeNum = none := hnlink
          rw [hsize, hnlink, hnode]
          rfl

end FalconFS.InodeRows
