/-
# The size of a file that was written

A client keeps two sizes of an open file: `currentSize`, which its writes raise, and `originalSize`,
the one that the metadata server should know.  `FalconClose`, which also serves flush and fsync,
sends the current size with the metadata call `Close` when the two differ.  It then sets
`originalSize` whatever the call has returned, so a call that failed is not repeated while the file
does not grow.

`close_stores_size_iff` says when a last close that reports `SUCCESS` leaves the right size in the
inode row, and `failed_flush_forgotten` is a run in which it does not.
-/
import FalconFS.Basic
import FalconFS.Lib.Machine

namespace FalconFS.CloseSize

open Machine

/-! ## 1. An open file -/

/-- `OpenInstance`, as far as sizes go. -/
structure OpenInstance where
  originalSize : Nat
  currentSize : Nat
  isOpened : Bool
  isFlushed : Bool
  writeCnt : Nat
  readFail : Bool
  writeFail : Bool
  nodeFail : Bool
  deriving DecidableEq

/-- The open file and its inode row.  `written` is the size of the data, and `lastStored` says that
the last size which was sent has come into the row; the code has neither. -/
structure File where
  inst : OpenInstance
  row : Nat
  written : Nat
  lastStored : Bool
  deriving DecidableEq

/-- After `FalconOpen` of a file of `n` bytes. -/
def opened (n : Nat) : File := ⟨⟨n, n, false, false, 0, false, false, false⟩, n, n, true⟩

/-- What `CloseTmpFiles` meets: the physical file and its node are set or not, the node is this one
or not, and what the two calls return. -/
structure TmpClose where
  attached : Bool
  isLocal : Bool
  persistToStorage : Bool
  complete : Int
  flushToStorage : Int

/-- What a call of `FalconClose` meets.  Of the metadata call and its repetitions, `errorCode` is
the last answer; one that reports a failure may have come through all the same. -/
structure CloseCall where
  tmpClose : TmpClose
  tmpFlush : TmpClose
  routed : Bool
  errorCode : ErrorCode
  stored : Bool
  stored_of_success : errorCode = .success → stored = true

inductive Ret
  | errno (e : Int)
  | code (c : ErrorCode)
  deriving DecidableEq

/-! ## 2. The calls -/

/-- `CloseTmpFiles` of a flush. -/
def flushTmpFiles (o : OpenInstance) (x : TmpClose) : OpenInstance × Int :=
  if x.attached = false then (o, 0)
  else
    let o := { o with isFlushed := true, writeFail := o.writeFail || x.complete ≠ 0 }
    if x.isLocal ∧ 0 < o.writeCnt ∧ o.writeFail = false ∧ x.persistToStorage then
      ({ o with writeFail := x.flushToStorage ≠ 0 }, x.flushToStorage)
    else (o, x.complete)

/-- `CloseTmpFiles`; a close that no flush came before makes up for it. -/
def closeTmpFiles (o : OpenInstance) (isFlush : Bool) (x flush : TmpClose) : OpenInstance × Int :=
  if isFlush then flushTmpFiles o x
  else if x.attached = false then (o, 0)
  else
    let (o, ret) := if o.isFlushed then (o, 0) else
      let (o, ret) := flushTmpFiles o flush
      ({ o with writeFail := o.writeFail || ret ≠ 0 }, ret)
    ({ o with writeFail := o.writeFail || x.complete ≠ 0 },
      if x.complete ≠ 0 then x.complete else ret)

/-- `FalconClose`.  The instance that a close deletes stays here as it was. -/
def falconClose (s : File) (isFlush : Bool) (datasync : Int) (c : CloseCall) : File × Ret :=
  let size := s.inst.currentSize
  let (inst, innerRet) :=
    if s.inst.isOpened then closeTmpFiles s.inst isFlush c.tmpClose c.tmpFlush else (s.inst, 0)
  if innerRet ≠ 0 then ({ s with inst := inst }, .errno innerRet)
  else if inst.readFail ∨ inst.writeFail ∨ 0 < datasync ∨
      (inst.nodeFail = false ∧ size = inst.originalSize) then
    ({ s with inst := inst }, if inst.readFail then .errno (-5) else .code .success)
  else if c.routed = false then ({ s with inst := inst }, .code .programError)
  else ({ s with
      -- whatever the answer is
      inst := { inst with originalSize := size }
      row := if c.stored then size else s.row
      lastStored := c.stored }, .code c.errorCode)

/-- `FalconWrite`: what `OpenFile` returns, if it is called, whether it has switched to another
node, and what `Push` returns. -/
def falconWrite (s : File) (size offset : Nat) (openFile push : Int) (switched : Bool) : File :=
  let o := { s.inst with writeCnt := s.inst.writeCnt + 1 }
  if o.isOpened = false ∧ openFile ≠ 0 then { s with inst := { o with writeFail := true } }
  else
    let o := { o with isOpened := true, nodeFail := o.nodeFail || (!o.isOpened && switched) }
    if push ≠ 0 then { s with inst := { o with writeFail := true } }
    else if size = 0 then { s with inst := o }
    else { s with
      inst := { o with currentSize := max o.currentSize (size + offset) }
      written := max s.written (size + offset) }

inductive FileEvent
  | write (size offset : Nat) (openFile push : Int) (switched : Bool)
  | read (opens failed switched : Bool)
  | flush (datasync : Int) (c : CloseCall)

def step (s : File) : FileEvent → Option File
  | .write size offset openFile push switched =>
    some (falconWrite s size offset openFile push switched)
  | .read opens failed switched => some { s with inst := { s.inst with
      isOpened := s.inst.isOpened || opens
      readFail := s.inst.readFail || failed, nodeFail := s.inst.nodeFail || switched } }
  | .flush datasync c => some (falconClose s true datasync c).1

/-! ## 3. What is remembered -/

section
variable {s s' : File} {c : CloseCall} {isFlush : Bool} {datasync : Int}

/-- The sizes stay, a failure stays, and what returns an error has marked one. -/
def Marked (o : OpenInstance) (r : OpenInstance × Int) : Prop :=
  ∃ isFlushed writeFail, r.1 = { o with isFlushed := isFlushed, writeFail := writeFail } ∧
    (o.writeFail = true → writeFail = true) ∧ (r.2 ≠ 0 → writeFail = true)

theorem flushTmpFiles_marks (o : OpenInstance) (x : TmpClose) : Marked o (flushTmpFiles o x) := by
  unfold flushTmpFiles
  split
  · exact ⟨_, _, rfl, id, by simp⟩
  · dsimp only
    split <;> refine ⟨true, _, rfl, ?_, ?_⟩ <;> grind

theorem closeTmpFiles_marks (o : OpenInstance) (isFlush : Bool) (x flush : TmpClose) :
    Marked o (closeTmpFiles o isFlush x flush) := by
  unfold closeTmpFiles
  split
  · exact flushTmpFiles_marks o x
  · split
    · exact ⟨_, _, rfl, id, by simp⟩
    · obtain ⟨isFlushed, writeFail, hinst, hmono, herr⟩ := flushTmpFiles_marks o flush
      cases hf : o.isFlushed <;> simp only [hinst] <;> refine ⟨_, _, rfl, ?_, ?_⟩ <;> grind

/-- **What `FalconClose` does**: it leaves the sizes alone, or it sends the current one. -/
theorem falconClose_cases (s : File) (isFlush : Bool) (datasync : Int) (c : CloseCall) :
    ∃ isFlushed writeFail, (s.inst.writeFail = true → writeFail = true) ∧
      ((falconClose s isFlush datasync c).1 =
          { s with inst := { s.inst with isFlushed := isFlushed, writeFail := writeFail } } ∧
        ((falconClose s isFlush datasync c).2 = .code .success → writeFail = false →
          0 < datasync ∨ s.inst.nodeFail = false ∧ s.inst.currentSize = s.inst.originalSize) ∨
      (falconClose s isFlush datasync c).1 = { s with
          inst := { s.inst with
            isFlushed := isFlushed, writeFail := writeFail, originalSize := s.inst.currentSize },
          row := if c.stored then s.inst.currentSize else s.row,
          lastStored := c.stored } ∧
        (s.inst.nodeFail = true ∨ s.inst.currentSize ≠ s.inst.originalSize) ∧
        ((falconClose s isFlush datasync c).2 = .code .success → c.stored = true)) := by
  have hstored := c.stored_of_success
  have hmark : Marked s.inst (if s.inst.isOpened then
      closeTmpFiles s.inst isFlush c.tmpClose c.tmpFlush else (s.inst, 0)) := by
    split
    · exact closeTmpFiles_marks s.inst isFlush c.tmpClose c.tmpFlush
    · exact ⟨_, _, rfl, id, by simp⟩
  obtain ⟨isFlushed, writeFail, hinst, hmono, herr⟩ := hmark
  refine ⟨isFlushed, writeFail, hmono, ?_⟩
  unfold falconClose
  simp only [hinst]
  grind

/-- The row never runs ahead, and as long as no node was switched it has the size that was sent
last exactly if that one came through. -/
structure Inv (s : File) : Prop where
  written : s.inst.writeFail = false → s.inst.currentSize = s.written
  row_le : s.row ≤ s.inst.originalSize
  original_le : s.inst.originalSize ≤ s.inst.currentSize
  stored : s.inst.nodeFail = false → (s.row = s.inst.originalSize ↔ s.lastStored = true)

theorem inv_opened (n : Nat) : Inv (opened n) :=
  ⟨fun _ => rfl, Nat.le_refl n, Nat.le_refl n, fun _ => ⟨fun _ => rfl, fun _ => rfl⟩⟩

theorem inv_step {e : FileEvent} (h : Inv s) (hs : step s e = some s') : Inv s' := by
  obtain ⟨h1, h2, h3, h4⟩ := h
  cases e with
  | write size offset openFile push switched =>
    cases hs
    unfold falconWrite
    constructor <;> grind
  | read opens failed switched =>
    cases hs
    constructor <;> grind
  | flush datasync c =>
    cases hs
    obtain ⟨isFlushed, writeFail, hmono, hsame | ⟨hsent, hwhy, -⟩⟩ :=
      falconClose_cases s true datasync c
    · rw [hsame.1]
      constructor <;> grind
    · -- a size that is sent without a switch of nodes is larger than the one before
      rw [hsent]
      constructor <;> grind

end

/-- **The row has the size of the data** after a last close that returns `SUCCESS`, without a
failure to write, exactly if the size that was sent last came through, or the file has grown since,
or the node has been switched. -/
theorem close_stores_size_iff {n : Nat} {s : File} (hreach : Reach step (opened n) s)
    (c : CloseCall) (hret : (falconClose s false (-1) c).2 = .code .success)
    (hdata : (falconClose s false (-1) c).1.inst.writeFail = false) :
    (falconClose s false (-1) c).1.row = s.written ↔
      s.lastStored = true ∨ s.inst.currentSize ≠ s.inst.originalSize ∨ s.inst.nodeFail = true := by
  obtain ⟨h1, h2, h3, h4⟩ := hreach.invariant (inv_opened n) fun _ _ _ hi _ hs => inv_step hi hs
  obtain ⟨isFlushed, writeFail, hmono, ⟨hsame, hwhy⟩ | ⟨hsent, hwhy, hok⟩⟩ :=
    falconClose_cases s false (-1) c
  · -- nothing was sent: the sizes were equal
    rw [hsame] at hdata ⊢
    grind
  · -- the current size was sent, and came through
    rw [hsent] at hdata ⊢
    grind

/-- A flush or close without any failure of the data, and with this answer to the metadata call. -/
def answered (errorCode : ErrorCode) (stored : Bool)
    (h : errorCode = .success → stored = true) : CloseCall :=
  ⟨⟨true, true, false, 0, 0⟩, ⟨true, true, false, 0, 0⟩, true, errorCode, stored, h⟩

def fails : CloseCall := answered .serverFault false (by simp)

def succeeds : CloseCall := answered .success true (by simp)

/-- Ten bytes are written and flushed, and the metadata call fails; ten more, and the close sends
the size of both. -/
theorem close_stores_size_grown :
    ∃ s, Reach step (opened 0) s ∧ (falconClose s false (-1) succeeds).2 = .code .success ∧
      (falconClose s false (-1) succeeds).1.row = 20 := by
  have hexec : exec step (opened 0)
      [.write 10 0 0 0 false, .flush (-1) fails, .write 10 10 0 0 false] =
        some ⟨⟨10, 20, true, true, 2, false, false, false⟩, 0, 20, false⟩ := by
    rfl
  have hreach := Run.of_exec _ hexec
  refine ⟨_, hreach, rfl, (close_stores_size_iff hreach succeeds rfl rfl).2 (.inr (.inl ?_))⟩
  decide

/-- **Ten bytes and no size**: the metadata call of the flush fails, the last close has nothing to
send any more and returns `SUCCESS`, and the row still says that the file is empty. -/
theorem failed_flush_forgotten :
    ∃ s, Reach step (opened 0) s ∧ (falconClose s false (-1) succeeds).2 = .code .success ∧
      (falconClose s false (-1) succeeds).1.inst.writeFail = false ∧ s.written = 10 ∧
      (falconClose s false (-1) succeeds).1.row = 0 := by
  have hexec : exec step (opened 0) [.write 10 0 0 0 false, .flush (-1) fails] =
      some ⟨⟨10, 10, true, true, 1, false, false, false⟩, 0, 10, false⟩ := by
    rfl
  exact ⟨_, Run.of_exec _ hexec, rfl, rfl, rfl, rfl⟩

end FalconFS.CloseSize
