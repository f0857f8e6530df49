/-
# Requests that write inode rows

The handlers that write inode rows, from the point on where a path is parsed: create, mkdir, close,
unlink, rmdir, chmod, chown, utimens and rename.  A request is one transaction; an error in it
leaves the tables as they were.  Batches are lists, in the order in which the handler comes to their
members.  Which server has a key is arbitrary.

**Where a row comes from** (`Came`): after a request other than a rename a row is the one that was
under its key, or that one after updates, or it is new under a key that was free.
-/
import Mathlib.Data.BitVec
import FalconFS.Metadb.InodeTuple
import FalconFS.Lib.Machine

namespace FalconFS.InodeRows

open Function Option

open ShardTable (Byte hashPartId combineParentIdWithPartId)

/-! ## 1. Requests that do not move rows -/

abbrev Tables := ServerId → InodeRelation

/-- What the handlers find outside: how the hash reads a `char`, and
`SearchShardInfoByShardValue`. -/
structure Placement where
  signedChar : Bool
  workerOf : BitVec 64 → ServerId

/-- A path after it was parsed. -/
structure Parsed where
  parentId : BitVec 64
  name : List Byte

namespace Placement

variable (cfg : Placement)

def key (p : Parsed) : RowKey :=
  ⟨combineParentIdWithPartId p.parentId (hashPartId cfg.signedChar p.name), p.name⟩

/-- The server that has a key. -/
def home (k : RowKey) : ServerId := cfg.workerOf k.parentidPartid

end Placement

/-- A path to be created, with the inode id and the time that it gets. -/
structure CreateInfo extends Parsed where
  inodeId : BitVec 64
  now : BitVec 64

/-- The row of `FalconCreateHandle`. -/
def createTuple (self : ServerId) (i : CreateInfo) : InodeTuple where
  stIno := i.inodeId
  stDev := 0
  stMode := 0o100644
  stNlink := 1
  stUid := 0
  stGid := 0
  stRdev := 0
  stSize := 0
  stBlksize := 0
  stBlocks := 0
  stAtim := i.now
  stMtim := i.now
  stCtim := i.now
  etag := []
  updateVersion := 0
  primaryNodeid := BitVec.ofNat 32 self
  backupNodeid := -1

/-- The row of `FalconMkdirSubCreateHandle`, with the mode of `FalconMkdirHandle`. -/
def mkdirTuple (i : CreateInfo) : InodeTuple where
  stIno := i.inodeId
  stDev := 0
  stMode := 0o040755
  stNlink := 2
  stUid := 0
  stGid := 0
  stRdev := 0
  stSize := 0
  stBlksize := 0
  stBlocks := 0
  stAtim := i.now
  stMtim := i.now
  stCtim := i.now
  etag := []
  updateVersion := 0
  primaryNodeid := -1
  backupNodeid := -1

variable (cfg : Placement) (self : ServerId) (rel : InodeRelation)

/-- A member of the batch of `FalconCreateHandle`: a key that is taken is `FILE_EXISTS`. -/
def createOne (i : CreateInfo) : InodeRelation :=
  let k := cfg.key i.toParsed
  if cfg.home k = self then (insertIntoInodeTable rel k (createTuple self i)).getD rel else rel

/-- A member of the batch of `FalconMkdirSubCreateHandle`, on the server that has its key. -/
def mkdirOne (cfg : Placement) (t : Tables) (i : CreateInfo) : Option Tables :=
  let k := cfg.key i.toParsed
  let workerId := cfg.home k
  if i.inodeId = -1 ∨ k.parentidPartid = -1 then none
  else (insertIntoInodeTable (t workerId) k (mkdirTuple i)).map (update t workerId)

section

variable (cfg : Placement) (self : ServerId) (a : SearchAndUpdateInfo) (rel : InodeRelation)
  (p : Parsed)

/-- A member of the batches of `FalconCloseHandle` and `FalconUnlinkHandle`.  A row that is not
there, or is of another server, is an error of this member alone. -/
def changeOne : Option InodeRelation :=
  let k := cfg.key p
  if cfg.home k = self then (searchAndUpdateInodeTableInfo rel k a).map Prod.snd else some rel

/-- `FalconUtimeNsHandle`, `FalconChownHandle` and `FalconChmodHandle`, where both are errors. -/
def changeRow : Option InodeRelation :=
  let k := cfg.key p
  if cfg.home k = self then
    (searchAndUpdateInodeTableInfo rel k a).bind fun r => r.1.map fun _ => r.2
  else none

end

structure CloseInfo extends Parsed where
  stSize : BitVec 64
  nodeId : BitVec 32
  now : BitVec 64

def closeArgs (i : CloseInfo) : SearchAndUpdateInfo :=
  { doUpdate := true, newSize := some i.stSize, newMtime := some i.now,
    newPrimaryNodeId := some i.nodeId }

def unlinkArgs : SearchAndUpdateInfo :=
  { doUpdate := true, nlinkChangeNum := some (-1), mode := true, modeCheckType := .mustBeFile }

def rmdirArgs : SearchAndUpdateInfo := { doUpdate := true, nlinkChangeNum := some (-2) }

/-- Two times that are not given are two calls of `GetCurrentTimestamp`. -/
def utimeNsArgs (stAtim stMtim now now' : BitVec 64) : SearchAndUpdateInfo :=
  if stAtim = -1 ∨ stMtim = -1 then
    { doUpdate := true, newAtime := some now, newMtime := some now' }
  else { doUpdate := true, newAtime := some stAtim, newMtime := some stMtim }

def chownArgs (stUid stGid : BitVec 32) : SearchAndUpdateInfo :=
  { doUpdate := true, newUid := some stUid, newGid := some stGid }

def chmodArgs (stMode : BitVec 32) : SearchAndUpdateInfo :=
  { doUpdate := true, newExecMode := some (stMode &&& 0x1FF) }

/-- `FalconRmdirSubUnlinkHandle` -/
def falconRmdirSubUnlinkHandle (k : RowKey) : Option InodeRelation :=
  if cfg.home k = self then
    (searchAndUpdateInodeTableInfo rel k rmdirArgs).bind fun r =>
      r.1.bind fun row => if row.stNlink = 2 then some r.2 else none
  else none

/-! ## 2. Rename -/

/-- The columns of `RenameSubRenameLocallyResponse` and of `RenameSubCreateParam`. -/
structure RenamedInfo where
  stIno : BitVec 64
  stDev : BitVec 64
  stMode : BitVec 32
  stNlink : BitVec 64
  stUid : BitVec 32
  stGid : BitVec 32
  stRdev : BitVec 64
  stSize : BitVec 64
  stBlksize : BitVec 64
  stBlocks : BitVec 64
  stAtim : BitVec 64
  stMtim : BitVec 64
  stCtim : BitVec 64
  nodeId : BitVec 32

/-- What the reply says of the row that was removed. -/
def RenamedInfo.ofTuple (r : InodeTuple) : RenamedInfo :=
  ⟨r.stIno, r.stDev, r.stMode, r.stNlink, r.stUid, r.stGid, r.stRdev, r.stSize, r.stBlksize,
    r.stBlocks, r.stAtim, r.stMtim, r.stCtim, r.primaryNodeid⟩

/-- The row of `FalconRenameSubCreateHandle`. -/
def RenamedInfo.toTuple (i : RenamedInfo) : InodeTuple where
  stIno := i.stIno
  stDev := i.stDev
  stMode := i.stMode
  stNlink := i.stNlink
  stUid := i.stUid
  stGid := i.stGid
  stRdev := i.stRdev
  stSize := i.stSize
  stBlksize := i.stBlksize
  stBlocks := i.stBlocks
  stAtim := i.stAtim
  stMtim := i.stMtim
  stCtim := i.stCtim
  etag := []
  updateVersion := 0
  primaryNodeid := i.nodeId
  backupNodeid := -1

/-- `FalconRenameSubRenameLocallyHandle` and the encoding of its reply, which has the columns when
there was a row to remove and none to insert. -/
def falconRenameSubRenameLocallyHandle
    (src dst : RowKey) : Option (InodeRelation × Option RenamedInfo) :=
  if src.parentidPartid = 0 then some (rel, none)
  else if cfg.home src ≠ self then none
  else
    (rel src).bind fun fileInfo =>
      let removed := update rel src none
      if dst.parentidPartid ≠ 0 then
        if cfg.home dst ≠ self then none
        else (insertIntoInodeTable removed dst fileInfo).map (·, none)
      else some (removed, some (.ofTuple fileInfo))

/-- `FalconRenameSubCreateHandle` -/
def falconRenameSubCreateHandle (k : RowKey) (i : RenamedInfo) : Option InodeRelation :=
  if cfg.home k = self then insertIntoInodeTable rel k i.toTuple else none

/-- `FalconRenameHandle`, from its step 4 on.  All other servers are sent the mark 0 and answer
without columns.  `responseInfo` is what is in the memory of the variable before a reply is
decoded into it. -/
def falconRenameHandle (cfg : Placement) (t : Tables) (src dst : RowKey)
    (responseInfo : RenamedInfo) : Option Tables :=
  let srcWorkerId := cfg.home src
  let dstWorkerId := cfg.home dst
  let dst' := if dstWorkerId = srcWorkerId then dst else ⟨0, dst.name⟩
  (falconRenameSubRenameLocallyHandle cfg srcWorkerId (t srcWorkerId) src dst').bind fun r =>
    let t₁ := update t srcWorkerId r.1
    let responseInfo := r.2.getD responseInfo
    if srcWorkerId ≠ dstWorkerId then
      (falconRenameSubCreateHandle cfg dstWorkerId (t₁ dstWorkerId) dst responseInfo).map
        (update t₁ dstWorkerId)
    else some t₁

/-! ## 3. Requests and runs -/

inductive Request
  | create (self : ServerId) (infos : List CreateInfo)
  | mkdir (infos : List CreateInfo)
  | close (self : ServerId) (infos : List CloseInfo)
  | unlink (self : ServerId) (infos : List Parsed)
  | rmdir (info : Parsed)
  | utimeNs (self : ServerId) (info : Parsed) (stAtim stMtim now now' : BitVec 64)
  | chown (self : ServerId) (info : Parsed) (stUid stGid : BitVec 32)
  | chmod (self : ServerId) (info : Parsed) (stMode : BitVec 32)
  | rename (src dst : Parsed) (responseInfo : RenamedInfo)

/-- A handler on one server. -/
def onServer (t : Tables) (self : ServerId) (f : InodeRelation → Option InodeRelation) :
    Option Tables :=
  (f (t self)).map (update t self)

/-- What a request does to the tables; `none` is an error, which ends the transaction. -/
def handle (cfg : Placement) (t : Tables) : Request → Option Tables
  | .create self infos => onServer t self fun rel => some (infos.foldl (createOne cfg self) rel)
  | .mkdir infos => infos.foldlM (mkdirOne cfg) t
  | .close self infos => onServer t self fun rel =>
      infos.foldlM (fun rel i => changeOne cfg self (closeArgs i) rel i.toParsed) rel
  | .unlink self infos => onServer t self fun rel => infos.foldlM
    (changeOne cfg self unlinkArgs) rel
  | .rmdir info =>
      let k := cfg.key info
      onServer t (cfg.home k) fun rel => falconRmdirSubUnlinkHandle cfg (cfg.home k) rel k
  | .utimeNs self info stAtim stMtim now now' =>
      onServer t self fun rel => changeRow cfg self (utimeNsArgs stAtim stMtim now now') rel info
  | .chown self info stUid stGid =>
      onServer t self fun rel => changeRow cfg self (chownArgs stUid stGid) rel info
  | .chmod self info stMode => onServer t self fun rel => changeRow cfg self
    (chmodArgs stMode) rel info
  | .rename src dst responseInfo => falconRenameHandle cfg t (cfg.key src)
    (cfg.key dst) responseInfo

/-- The tables when the transaction has ended. -/
def step (cfg : Placement) (t : Tables) (req : Request) : Tables := (handle cfg t req).getD t

/-- The tables before the first request. -/
def emptyTables : Tables := fun _ _ => none

/-! ## 4. Where rows come from -/

/-- The updates that leave a row in place: those that do not touch its link count, and the one of
`FalconUnlinkHandle`. -/
inductive Update : SearchAndUpdateInfo → Prop
  | columns {a : SearchAndUpdateInfo} (ha : a.Usual) (hnlink : a.nlinkChangeNum = none) : Update a
  | unlink : Update unlinkArgs

variable {a : SearchAndUpdateInfo} {rel rel₁ rel₂ : InodeRelation} {k : RowKey} {cfg : Placement}
  {self : ServerId} {p : Parsed}

theorem Update.usual (h : Update a) : a.Usual := by
  cases h with
  | columns ha _ => exact ha
  | unlink => exact ⟨rfl, rfl, fun _ hm => (nomatch hm)⟩

theorem update_close (i : CloseInfo) : Update (closeArgs i) :=
  .columns ⟨rfl, rfl, fun _ hm => (nomatch hm)⟩ rfl

theorem update_utimeNs (stAtim stMtim now now' : BitVec 64) :
    Update (utimeNsArgs stAtim stMtim now now') := by
  unfold utimeNsArgs
  split <;> exact .columns ⟨rfl, rfl, fun _ hm => (nomatch hm)⟩ rfl

theorem update_chown (stUid stGid : BitVec 32) : Update (chownArgs stUid stGid) :=
  .columns ⟨rfl, rfl, fun _ hm => (nomatch hm)⟩ rfl

theorem update_chmod (stMode : BitVec 32) : Update (chmodArgs stMode) := by
  refine .columns ⟨rfl, rfl, fun m hm => ?_⟩ rfl
  cases hm
  rw [BitVec.and_assoc, BitVec.and_self]

/-- A row that a create or a mkdir makes. -/
inductive New : InodeTuple → Prop
  | create (self : ServerId) (i : CreateInfo) : New (createTuple self i)
  | mkdir (i : CreateInfo) : New (mkdirTuple i)

/-- **Where a row comes from**: it was under its key, and was updated; or the key was free. -/
inductive Came (rel : InodeRelation) (k : RowKey) : InodeTuple → Prop
  | kept {r : InodeTuple} (h : rel k = some r) : Came rel k r
  | updated {r r' : InodeTuple} {a : SearchAndUpdateInfo} (h : Came rel k r) (ha : Update a)
      (happly : a.apply r = some (some r')) : Came rel k r'
  | inserted {r : InodeTuple} (hfree : rel k = none) (hr : New r) : Came rel k r

/-- Every row of `rel'` comes from `rel`. -/
def Evolves (rel rel' : InodeRelation) : Prop := ∀ k r, rel' k = some r → Came rel k r

theorem evolves_refl (rel : InodeRelation) : Evolves rel rel := fun _ _ h => .kept h

/-- An update, or a deletion. -/
theorem Evolves.searchAndUpdate {found : Option InodeTuple} (h : Evolves rel rel₁) (ha : Update a)
    (hrun : searchAndUpdateInodeTableInfo rel₁ k a = some (found, rel₂)) : Evolves rel rel₂ := by
  obtain ⟨-, ⟨-, rfl⟩ | ⟨r, v, hr, happly, rfl⟩⟩ := searchAndUpdate_some hrun
  · exact h
  · intro k' r' hr'
    by_cases hk : k' = k
    · obtain rfl := hk
      rw [update_self] at hr'
      obtain rfl := hr'
      exact .updated (h k' r hr) ha happly
    · rw [update_of_ne hk] at hr'
      exact h k' r' hr'

theorem Evolves.remove (h : Evolves rel rel₁) (k : RowKey) : Evolves rel (update rel₁ k none) := by
  intro k' r' hr'
  by_cases hk : k' = k
  · rw [hk, update_self] at hr'
    cases hr'
  · rw [update_of_ne hk] at hr'
    exact h k' r' hr'

theorem Evolves.insert (h : Evolves rel rel₁) {r : InodeTuple} (hfree : rel k = none) (hr : New r) :
    Evolves rel (update rel₁ k (some r)) := by
  intro k' r' hr'
  by_cases hk : k' = k
  · obtain rfl := hk
    rw [update_self] at hr'
    cases hr'
    exact .inserted hfree hr
  · rw [update_of_ne hk] at hr'
    exact h k' r' hr'

/-- A batch of creates removes nothing, so that a key that is free was free before. -/
theorem evolves_create (cfg : Placement) (self : ServerId) (infos : List CreateInfo) :
    ∀ {rel rel₁ : InodeRelation}, Evolves rel rel₁ → (∀ k, rel₁ k = none → rel k = none) →
      Evolves rel (infos.foldl (createOne cfg self) rel₁) := by
  induction infos with
  | nil => exact fun h _ => h
  | cons i infos ih =>
    intro rel rel₁ h hfree
    rw [List.foldl_cons]
    unfold createOne
    dsimp only
    split
    case isFalse => exact ih h hfree
    case isTrue =>
      cases hins : insertIntoInodeTable rel₁ (cfg.key i.toParsed) (createTuple self i) with
      | none => exact ih h hfree
      | some rel₂ =>
        obtain ⟨hnone, rfl⟩ := insertIntoInodeTable_some hins
        refine ih (h.insert (hfree _ hnone) (.create self i)) fun k hk => ?_
        by_cases heq : k = cfg.key i.toParsed
        · rw [heq, getD_some, update_self] at hk
          cases hk
        · rw [getD_some, update_of_ne heq] at hk
          exact hfree k hk

theorem evolves_changeOne (ha : Update a) (h : Evolves rel rel₁)
    (hrun : changeOne cfg self a rel₁ p = some rel₂) : Evolves rel rel₂ := by
  unfold changeOne at hrun
  dsimp only at hrun
  split at hrun
  · obtain ⟨⟨found, rel'⟩, hsearch, rfl⟩ := map_eq_some_iff.mp hrun
    exact h.searchAndUpdate ha hsearch
  · cases hrun
    exact h

theorem evolves_changeRow (ha : Update a) (hrun : changeRow cfg self a rel p = some rel₁) :
    Evolves rel rel₁ := by
  unfold changeRow at hrun
  dsimp only at hrun
  split at hrun
  · obtain ⟨⟨found, rel'⟩, hsearch, hres⟩ := bind_eq_some_iff.mp hrun
    obtain ⟨-, -, rfl⟩ := map_eq_some_iff.mp hres
    exact (evolves_refl rel).searchAndUpdate ha hsearch
  · cases hrun

/-- A batch whose members all keep it. -/
theorem evolves_foldlM {ι : Type} {f : InodeRelation → ι → Option InodeRelation}
    (hf : ∀ rel₁ i rel₂, Evolves rel rel₁ → f rel₁ i = some rel₂ → Evolves rel rel₂) (is : List ι) :
    ∀ {rel₁ rel₂ : InodeRelation}, Evolves rel rel₁ → is.foldlM f rel₁ = some rel₂ →
      Evolves rel rel₂ := by
  induction is with
  | nil =>
    intro rel₁ rel₂ h hrun
    cases hrun
    exact h
  | cons i is ih =>
    intro rel₁ rel₂ h hrun
    rw [List.foldlM_cons] at hrun
    obtain ⟨rel', hone, hrest⟩ := bind_eq_some_iff.mp hrun
    exact ih (hf rel₁ i rel' h hone) hrest

theorem evolves_rmdirSubUnlink (hrun : falconRmdirSubUnlinkHandle cfg self rel k = some rel₁) :
    Evolves rel rel₁ := by
  unfold falconRmdirSubUnlinkHandle at hrun
  split at hrun
  case isFalse => cases hrun
  obtain ⟨⟨found, rel'⟩, hsearch, hres⟩ := bind_eq_some_iff.mp hrun
  obtain ⟨row, hfound, hrow⟩ := bind_eq_some_iff.mp hres
  split at hrow
  case isFalse => cases hrow
  rename_i hnlink
  cases hrow
  obtain ⟨rfl, ⟨hnone, -⟩ | ⟨r, v, hr, happly, hrel⟩⟩ := searchAndUpdate_some hsearch
  · rw [hnone] at hfound
    cases hfound
  · -- two links less are none, and the row is removed
    obtain rfl : r = row := some.inj (hr.symm.trans hfound)
    have hremoved : v = none := by
      have hdeletes : rmdirArgs.deletes r = true := by
        simp only [SearchAndUpdateInfo.deletes, rmdirArgs, hnlink]
        rfl
      have happly' : rmdirArgs.apply r = some none := by
        unfold SearchAndUpdateInfo.apply
        rw [hdeletes]
        rfl
      exact (some.inj (happly'.symm.trans happly)).symm
    have hrel : rel' = update rel k none := by rw [hrel, hremoved]
    show Evolves rel rel'
    rw [hrel]
    exact (evolves_refl rel).remove k

end FalconFS.InodeRows
