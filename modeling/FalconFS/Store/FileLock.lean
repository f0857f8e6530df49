/-
# The file locks of a store node

`util/file_lock.cpp` keeps one lock for every inode that somebody holds or waits for.  All of it
happens under one mutex, so a call is one step, with one exception: a caller that has to wait sleeps
on the condition variable of the inode's entry, which gives the mutex back, and goes on in a later
step, when its predicate is true.

The sleeping thread does not keep a pointer to the entry.  It looks the entry up again, with
`operator[]`, which would put an empty entry where there is none.  So the model gives every entry
an ADDRESS, that `operator[]` draws anew, and a waiter remembers the address and the condition
variable with which it went to sleep: that it finds them again is a theorem (`file_locks_exact`),
not part of the model.

Threads are the owners of locks.  They are of any type and in any number, and give back only what
they have (`Event.release`).
-/
import FalconFS.Basic
import FalconFS.Lib.Machine
import Mathlib.Data.List.Count

namespace FalconFS.Store

open Function

/-! ## 1. The lock table -/

inductive LockMode
  | x | s
  deriving DecidableEq

/-- The values of the enumeration. -/
def LockMode.toInt : LockMode → Int
  | .x => -1
  | .s => 1

structure FileLockState where
  /-- The condition variable, by its number. -/
  cv : Option Nat
  lockCount : Int
  waitingThreads : Int
  deriving DecidableEq

/-- An entry of the map, with the address of its node. -/
structure LockEntry where
  address : Nat
  state : FileLockState
  deriving DecidableEq

structure FileLock where
  inodeIdTofileLockStateMap : InodeId → Option LockEntry
  /-- Addresses and condition variables from here on are new. -/
  next : Nat

namespace FileLock

def init : FileLock := ⟨fun _ => none, 0⟩

section

variable (l : FileLock) (inodeId : InodeId)

/-- `inodeIdTofileLockStateMap[inodeId] = state` for an entry that is there. -/
def set (e : LockEntry) : FileLock :=
  { l with inodeIdTofileLockStateMap :=
      update l.inodeIdTofileLockStateMap inodeId (some e) }

/-- `inodeIdTofileLockStateMap.erase(inodeId)` -/
def erase : FileLock :=
  { l with inodeIdTofileLockStateMap :=
      update l.inodeIdTofileLockStateMap inodeId none }

/-- `inodeIdTofileLockStateMap[inodeId]`, which inserts an empty entry when there is none. -/
def index : FileLock × LockEntry :=
  match l.inodeIdTofileLockStateMap inodeId with
  | some e => (l, e)
  | none =>
    let e : LockEntry := ⟨l.next, ⟨none, 0, 0⟩⟩
    (({ l with next := l.next + 1 } : FileLock).set inodeId e, e)

/-- The count of an inode, without inserting. -/
def lockCnt : Int :=
  match l.inodeIdTofileLockStateMap inodeId with
  | some e => e.state.lockCount
  | none => 0

end

/-- How far a call of `innerGetFileLock` gets by itself. -/
inductive GetResult
  | locked
  | refused
  /-- Asleep on the condition variable `cv` of the entry at `address`. -/
  | asleep (address cv : Nat)
  deriving DecidableEq

/-- `innerGetFileLock`, up to the point where it returns or goes to sleep.  The predicate with
which it goes to sleep is false there: the count is negative, or it is not zero and `m` is `X`. -/
def innerGetFileLock (l : FileLock) (inodeId : InodeId) (m : LockMode) (wait : Bool) :
    FileLock × GetResult :=
  let (l', e) := l.index inodeId
  if l.lockCnt inodeId = 0 then
    if e.state.waitingThreads = 0 then
      (({ l' with next := l'.next + 1 } : FileLock).set inodeId
        { e with state := { e.state with cv := some l'.next, lockCount := m.toInt } }, .locked)
    else
      (l'.set inodeId { e with state := { e.state with lockCount := m.toInt } }, .locked)
  else if 0 < l.lockCnt inodeId ∧ m = .s then
    (l'.set inodeId { e with state := { e.state with lockCount := e.state.lockCount + 1 } },
      .locked)
  else if wait then
    match e.state.cv with
    | none => (l, .refused)
    | some cv =>
      (l'.set inodeId { e with
        state := { e.state with waitingThreads := e.state.waitingThreads + 1 } },
        .asleep e.address cv)
  else (l, .refused)

/-- What a sleeping caller waits for. -/
def mayWake (m : LockMode) (lockCount : Int) : Bool :=
  match m with
  | .x => lockCount = 0
  | .s => 0 ≤ lockCount

section

variable (l : FileLock) (inodeId : InodeId) (m : LockMode)

/-- A sleeping caller looks at its predicate, and has the lock if it is true. -/
def wake : FileLock × Bool :=
  let (l', e) := l.index inodeId
  if mayWake m e.state.lockCount then
    (l'.set inodeId { e with state := { e.state with
      waitingThreads := e.state.waitingThreads - 1
      lockCount := e.state.lockCount + m.toInt } }, true)
  else (l', false)

/-- `ReleaseFileLock`; waking up the others is a step of theirs. -/
def releaseFileLock : FileLock :=
  match l.inodeIdTofileLockStateMap inodeId with
  | none => l
  | some e =>
    let lockCount := e.state.lockCount - m.toInt
    if lockCount = 0 ∧ e.state.waitingThreads = 0 then l.erase inodeId
    else l.set inodeId { e with state := { e.state with lockCount := lockCount } }

/-- `TestLocked` -/
def testLocked : Bool :=
  match l.inodeIdTofileLockStateMap inodeId, m with
  | none, _ => false
  | some _, .x => true
  | some e, .s => e.state.lockCount < 0

end

@[simp] theorem set_self (l : FileLock) (i : InodeId) (e : LockEntry) :
    (l.set i e).inodeIdTofileLockStateMap i = some e := update_self ..

variable {i j : InodeId}

theorem set_ne (l : FileLock) (e : LockEntry) (h : j ≠ i) :
    (l.set i e).inodeIdTofileLockStateMap j = l.inodeIdTofileLockStateMap j :=
  update_of_ne h ..

@[simp] theorem erase_self (l : FileLock) (i : InodeId) :
    (l.erase i).inodeIdTofileLockStateMap i = none := update_self ..

theorem erase_ne (l : FileLock) (h : j ≠ i) :
    (l.erase i).inodeIdTofileLockStateMap j = l.inodeIdTofileLockStateMap j :=
  update_of_ne h ..

theorem index_of_some {l : FileLock} {e : LockEntry} (h : l.inodeIdTofileLockStateMap i = some e) :
    l.index i = (l, e) := by
  simp only [index, h]

theorem index_ne (l : FileLock) (h : j ≠ i) :
    (l.index i).1.inodeIdTofileLockStateMap j = l.inodeIdTofileLockStateMap j := by
  unfold index
  split
  · rfl
  · exact set_ne _ _ h

theorem innerGetFileLock_ne (l : FileLock) (m : LockMode) (wait : Bool) (h : j ≠ i) :
    (l.innerGetFileLock i m wait).1.inodeIdTofileLockStateMap j =
      l.inodeIdTofileLockStateMap j := by
  have hindex := index_ne l h
  simp only [innerGetFileLock]
  (repeat' split) <;> first | rfl | exact (set_ne _ _ h).trans hindex

theorem wake_ne (l : FileLock) (m : LockMode) (h : j ≠ i) :
    (l.wake i m).1.inodeIdTofileLockStateMap j = l.inodeIdTofileLockStateMap j := by
  have hindex := index_ne l h
  simp only [wake]
  split
  · exact (set_ne _ _ h).trans hindex
  · exact hindex

theorem releaseFileLock_ne (l : FileLock) (m : LockMode) (h : j ≠ i) :
    (l.releaseFileLock i m).inodeIdTofileLockStateMap j = l.inodeIdTofileLockStateMap j := by
  unfold releaseFileLock
  dsimp only
  (repeat' split) <;> first | rfl | exact erase_ne _ h | exact set_ne _ _ h

end FileLock

/-! ## 2. The threads -/

/-- A lock that a thread has. -/
structure Hold (τ : Type) where
  thread : τ
  inodeId : InodeId
  mode : LockMode
  deriving DecidableEq

/-- A thread that sleeps in `innerGetFileLock`. -/
structure Waiter (τ : Type) where
  thread : τ
  inodeId : InodeId
  mode : LockMode
  address : Nat
  cv : Nat
  deriving DecidableEq

structure LockSys (τ : Type) where
  lock : FileLock
  held : List (Hold τ)
  waiters : List (Waiter τ)

inductive LockEvent (τ : Type)
  /-- `GetFileLock`, `TryGetFileLock`, `WaitGetFileLock` -/
  | get (t : τ) (inodeId : InodeId) (m : LockMode) (wait : Bool)
  | wake (t : τ)
  | release (t : τ) (inodeId : InodeId) (m : LockMode)
  | test (t : τ) (inodeId : InodeId) (m : LockMode)

namespace LockSys

variable {τ : Type} [DecidableEq τ]

def init : LockSys τ := ⟨.init, [], []⟩

/-- The sleep of a thread. -/
def waiterOf (s : LockSys τ) (t : τ) : Option (Waiter τ) := s.waiters.find? (·.thread = t)

/-- A thread that sleeps does nothing but wake up. -/
def step (s : LockSys τ) : LockEvent τ → Option (LockSys τ)
  | .get t inodeId m wait =>
    if (s.waiterOf t).isSome then none
    else
      match s.lock.innerGetFileLock inodeId m wait with
      | (lock, .locked) => some { s with lock := lock, held := ⟨t, inodeId, m⟩ :: s.held }
      | (lock, .refused) => some { s with lock := lock }
      | (lock, .asleep address cv) =>
        some { s with lock := lock, waiters := ⟨t, inodeId, m, address, cv⟩ :: s.waiters }
  | .wake t =>
    match s.waiterOf t with
    | none => none
    | some w =>
      match s.lock.wake w.inodeId w.mode with
      | (lock, true) =>
        some ⟨lock, ⟨t, w.inodeId, w.mode⟩ :: s.held, s.waiters.erase w⟩
      | (lock, false) => some { s with lock := lock }
  | .release t inodeId m =>
    if (s.waiterOf t).isSome then none
    else if ⟨t, inodeId, m⟩ ∈ s.held then
      some { s with
        lock := s.lock.releaseFileLock inodeId m
        held := s.held.erase ⟨t, inodeId, m⟩ }
    else none
  | .test t _ _ => if (s.waiterOf t).isSome then none else some s

/-- How many locks of this kind there are on the inode. -/
def holds (s : LockSys τ) (i : InodeId) (m : LockMode) : Nat :=
  s.held.countP fun h => h.inodeId = i ∧ h.mode = m

/-- Who sleeps for the inode. -/
def waitersAt (s : LockSys τ) (i : InodeId) : List (Waiter τ) :=
  s.waiters.filter fun w => w.inodeId = i

end LockSys

/-! ## 3. The invariant of one inode -/

/-- The count says who holds the lock. -/
def CountOk (lockCount : Int) (shared exclusive : Nat) : Prop :=
  exclusive = 0 ∧ lockCount = shared ∨ exclusive = 1 ∧ shared = 0 ∧ lockCount = -1

/-- An entry next to the locks and the sleepers of its inode. -/
structure EntryOk {τ : Type} (e : LockEntry) (shared exclusive : Nat) (ws : List (Waiter τ)) :
    Prop where
  count : CountOk e.state.lockCount shared exclusive
  waiting : e.state.waitingThreads = ws.length
  used : 0 < shared + exclusive + ws.length
  cv : e.state.cv.isSome
  sleep : ∀ w ∈ ws, w.address = e.address ∧ e.state.cv = some w.cv

/-- An inode, with or without an entry. -/
def InodeOk {τ : Type} (entry : Option LockEntry) (shared exclusive : Nat)
    (ws : List (Waiter τ)) : Prop :=
  match entry with
  | some e => EntryOk e shared exclusive ws
  | none => shared = 0 ∧ exclusive = 0 ∧ ws = []

/-- One more lock of mode `m`. -/
def plus (m m' : LockMode) : Nat := if m = m' then 1 else 0

theorem plus_pos (m : LockMode) : 0 < plus m .s + plus m .x := by
  match m with
  | .x => exact Nat.one_pos
  | .s => exact Nat.one_pos

variable {c : Int} {shared exclusive : Nat} {m : LockMode}

open FileLock

/-- A lock may be given where its waiters would wake up. -/
theorem CountOk.add (h : CountOk c shared exclusive) (hm : FileLock.mayWake m c = true) :
    CountOk (c + m.toInt) (shared + plus m .s) (exclusive + plus m .x) := by
  cases m <;> grind [CountOk, mayWake, plus, LockMode.toInt]

theorem CountOk.sub (h : CountOk c (shared + plus m .s) (exclusive + plus m .x)) :
    CountOk (c - m.toInt) shared exclusive := by
  cases m <;> grind [CountOk, plus, LockMode.toInt]

theorem CountOk.eq_zero_iff (h : CountOk c shared exclusive) :
    c = 0 ↔ shared = 0 ∧ exclusive = 0 := by
  unfold CountOk at h
  omega

open List

section InodeOk

variable {τ : Type} {l l' : FileLock} {i : InodeId} {shared exclusive : Nat}
  {ws : List (Waiter τ)} {m : LockMode} {wait : Bool}

variable {e : LockEntry} {w : Waiter τ}

theorem lockCnt_of_some (h : l.inodeIdTofileLockStateMap i = some e) :
    l.lockCnt i = e.state.lockCount := by
  simp only [lockCnt, h]

/-- An entry that gets one more lock, and keeps its condition variable while somebody sleeps. -/
theorem EntryOk.add {e' : LockEntry} (h : EntryOk e shared exclusive ws)
    (hm : FileLock.mayWake m e.state.lockCount = true)
    (hcount : e'.state.lockCount = e.state.lockCount + m.toInt)
    (hwaiting : e'.state.waitingThreads = e.state.waitingThreads)
    (haddress : e'.address = e.address) (hsome : e'.state.cv.isSome)
    (hcv : e.state.waitingThreads ≠ 0 → e'.state.cv = e.state.cv) :
    EntryOk e' (shared + plus m .s) (exclusive + plus m .x) ws where
  count := hcount ▸ h.count.add hm
  waiting := hwaiting.trans h.waiting
  used := by
    have := h.used
    omega
  cv := hsome
  sleep w hw := by
    have hne : e.state.waitingThreads ≠ 0 := by
      rw [h.waiting]
      have := length_pos_of_mem hw
      omega
    rw [haddress, hcv hne]
    exact h.sleep w hw

/-- **A call that gets the lock at once.** -/
theorem InodeOk.locked (h : InodeOk (l.inodeIdTofileLockStateMap i) shared exclusive ws)
    (hget : l.innerGetFileLock i m wait = (l', .locked)) :
    InodeOk (l'.inodeIdTofileLockStateMap i) (shared + plus m .s) (exclusive + plus m .x) ws := by
  match hmap : l.inodeIdTofileLockStateMap i with
  | none =>
    -- the first lock of the inode: a new entry
    rw [hmap] at h
    obtain ⟨rfl, rfl, rfl⟩ := h
    simp only [innerGetFileLock, lockCnt, index, hmap, if_true] at hget
    cases hget
    rw [set_self]
    have hpos := plus_pos m
    refine ⟨?_, rfl, by omega, rfl, nofun⟩
    cases m <;> simp [CountOk, plus, LockMode.toInt]
  | some e =>
    rw [hmap] at h
    -- in each of the three branches that lock, the sleepers of the same mode would wake up
    simp only [innerGetFileLock, lockCnt_of_some hmap, index_of_some hmap] at hget
    (repeat' split at hget) <;> cases hget <;> rw [set_self]
    · exact EntryOk.add h (by cases m <;> simp_all [mayWake]) (by simp_all) rfl rfl rfl
        (by simp_all)
    · exact EntryOk.add h (by cases m <;> simp_all [mayWake]) (by simp_all) rfl rfl h.cv
        fun _ => rfl
    · rename_i hs
      obtain ⟨hpos, rfl⟩ := hs
      exact EntryOk.add h (by simp only [mayWake, decide_eq_true_eq]; omega) rfl rfl rfl
        h.cv fun _ => rfl

/-- Where a call does not get the lock, somebody has it, so there is an entry. -/
theorem exists_entry {x : GetResult} (hget : l.innerGetFileLock i m wait = (l', x))
    (hx : x ≠ .locked) : ∃ e, l.inodeIdTofileLockStateMap i = some e := by
  match hmap : l.inodeIdTofileLockStateMap i with
  | none =>
    simp only [innerGetFileLock, lockCnt, index, hmap, if_true] at hget
    cases hget
    exact absurd rfl hx
  | some e => exact ⟨e, rfl⟩

/-- A call that is refused changes nothing. -/
theorem refused_eq (hget : l.innerGetFileLock i m wait = (l', .refused)) : l' = l := by
  simp only [innerGetFileLock] at hget
  (repeat' split at hget) <;> cases hget <;> rfl

section

variable (h : InodeOk (l.inodeIdTofileLockStateMap i) shared exclusive ws)

include h

/-- **A call that goes to sleep.** -/
theorem InodeOk.asleep {address cv : Nat}
    (hget : l.innerGetFileLock i m wait = (l', .asleep address cv)) (w : Waiter τ)
    (hw : w.address = address ∧ w.cv = cv) :
    InodeOk (l'.inodeIdTofileLockStateMap i) shared exclusive (w :: ws) := by
  obtain ⟨e, hmap⟩ := exists_entry hget nofun
  rw [hmap] at h
  obtain ⟨hcount, hwaiting, hused, hcv, hsleep⟩ := h
  simp only [innerGetFileLock, lockCnt_of_some hmap, index_of_some hmap] at hget
  (repeat' split at hget) <;> cases hget
  rw [set_self]
  constructor <;> grind

/-- A caller that is willing to wait is not refused. -/
theorem InodeOk.not_refused : l.innerGetFileLock i m true ≠ (l', .refused) := by
  intro hget
  obtain ⟨e, hmap⟩ := exists_entry hget nofun
  rw [hmap] at h
  have hcv := h.cv
  simp only [innerGetFileLock, lockCnt_of_some hmap, index_of_some hmap] at hget
  (repeat' split at hget) <;> cases hget <;> simp_all

/-- A sleeper finds the entry it went to sleep at. -/
theorem InodeOk.entry (hw : w ∈ ws) :
    ∃ e, l.inodeIdTofileLockStateMap i = some e ∧ EntryOk e shared exclusive ws := by
  match hmap : l.inodeIdTofileLockStateMap i with
  | none =>
    rw [hmap] at h
    rw [h.2.2] at hw
    cases hw
  | some e =>
    rw [hmap] at h
    exact ⟨e, rfl, h⟩

/-- **A sleeper that wakes up** with the lock. -/
theorem InodeOk.woken [DecidableEq τ] (hw : w ∈ ws) (hwake : l.wake i m = (l', true)) :
    InodeOk (l'.inodeIdTofileLockStateMap i) (shared + plus m .s) (exclusive + plus m .x)
      (ws.erase w) := by
  obtain ⟨e, hmap, he⟩ := h.entry hw
  simp only [wake, index_of_some hmap] at hwake
  split at hwake <;> cases hwake
  rename_i hm
  rw [set_self]
  have hlen := length_erase_of_mem hw
  have hpos := length_pos_of_mem hw
  have hplus := plus_pos m
  refine ⟨he.count.add hm, ?_, by omega, he.cv,
    fun w' hw' => he.sleep w' (mem_of_mem_erase hw')⟩
  simp only [he.waiting, hlen]
  omega

/-- A sleeper whose predicate is false changes nothing. -/
theorem InodeOk.wake_false (hw : w ∈ ws) (hwake : l.wake i m = (l', false)) : l' = l := by
  obtain ⟨e, hmap, he⟩ := h.entry hw
  simp only [wake, index_of_some hmap] at hwake
  split at hwake <;> cases hwake
  rfl

end

/-- **A lock is given back.**  The entry goes with the last lock, unless somebody sleeps. -/
theorem InodeOk.released
    (h : InodeOk (l.inodeIdTofileLockStateMap i) (shared + plus m .s) (exclusive + plus m .x) ws) :
    InodeOk ((l.releaseFileLock i m).inodeIdTofileLockStateMap i) shared exclusive ws := by
  match hmap : l.inodeIdTofileLockStateMap i with
  | none =>
    rw [hmap] at h
    obtain ⟨hs, hx, -⟩ := h
    have := plus_pos m
    exact absurd hs (by omega)
  | some e =>
    rw [hmap] at h
    have hcount := h.count.sub
    simp only [releaseFileLock, hmap]
    split
    · rename_i hlast
      rw [erase_self]
      have hnone := hcount.eq_zero_iff.mp hlast.1
      have hws : ws.length = 0 := by
        have := h.waiting
        omega
      exact ⟨hnone.1, hnone.2, length_eq_zero_iff.mp hws⟩
    · rename_i hmore
      rw [set_self]
      refine ⟨hcount, h.waiting, ?_, h.cv, h.sleep⟩
      by_contra hno
      have hzero := hcount.eq_zero_iff.mpr ⟨by omega, by omega⟩
      exact hmore ⟨hzero, by rw [h.waiting]; omega⟩

end InodeOk

/-! ## 4. Runs -/

namespace LockSys

variable {τ : Type}

def Inv (s : LockSys τ) : Prop :=
  ∀ i, InodeOk (s.lock.inodeIdTofileLockStateMap i) (s.holds i .s) (s.holds i .x) (s.waitersAt i)

theorem inv_init : Inv (init : LockSys τ) := fun _ => ⟨rfl, rfl, rfl⟩

variable {s s' : LockSys τ} {i j : InodeId} {w : Waiter τ} {m : LockMode} {l : List (Hold τ)}
  {t : τ}

/-- What an event at one inode has to show: its own inode, and that nothing changes elsewhere. -/
theorem Inv.of_inode (h : Inv s) (i : InodeId)
    (hi : InodeOk (s'.lock.inodeIdTofileLockStateMap i) (s'.holds i .s) (s'.holds i .x)
      (s'.waitersAt i))
    (hmap : ∀ j, j ≠ i → s'.lock.inodeIdTofileLockStateMap j = s.lock.inodeIdTofileLockStateMap j)
    (hheld : ∀ j, j ≠ i → ∀ m, s'.holds j m = s.holds j m)
    (hwaiters : ∀ j, j ≠ i → s'.waitersAt j = s.waitersAt j) : Inv s' := by
  intro j
  by_cases hj : j = i
  · exact hj ▸ hi
  · rw [hmap j hj, hheld j hj, hheld j hj, hwaiters j hj]
    exact h j

theorem countHolds_cons (l : List (Hold τ)) (t : τ) (i : InodeId) (m m' : LockMode) :
    (⟨t, i, m⟩ :: l).countP (fun h => h.inodeId = i ∧ h.mode = m') =
      l.countP (fun h => h.inodeId = i ∧ h.mode = m') + plus m m' := by
  by_cases hm : m = m'
  · simp [plus, hm]
  · simp [plus, hm]

theorem countHolds_cons_ne (l : List (Hold τ)) (t : τ) (m m' : LockMode) (hj : j ≠ i) :
    (⟨t, i, m⟩ :: l).countP (fun h => h.inodeId = j ∧ h.mode = m') =
      l.countP (fun h => h.inodeId = j ∧ h.mode = m') :=
  countP_cons_of_neg (by simp [Ne.symm hj])

theorem mem_waitersAt (h : w ∈ s.waiters) : w ∈ s.waitersAt w.inodeId := mem_filter.mpr ⟨h, by simp⟩

theorem holds_pos_iff : 0 < s.holds i m ↔ ∃ h ∈ s.held, h.inodeId = i ∧ h.mode = m := by
  simp [holds, countP_pos_iff]

/-- Every lock on the inode is shared or exclusive. -/
theorem length_filter_held (s : LockSys τ) (i : InodeId) :
    (s.held.filter fun h => h.inodeId = i).length = s.holds i .s + s.holds i .x := by
  simp only [holds]
  induction s.held with
  | nil => rfl
  | cons h l ih =>
    obtain ⟨t, j, m⟩ := h
    by_cases hj : j = i
    · subst hj
      rw [filter_cons_of_pos (by simp), length_cons, ih, countHolds_cons, countHolds_cons]
      match m with
      | .x => simp [plus, Nat.add_assoc]
      | .s => simp [plus, Nat.add_right_comm]
    · rw [filter_cons_of_neg (by simp [hj]), ih, countHolds_cons_ne _ _ _ _ (Ne.symm hj),
        countHolds_cons_ne _ _ _ _ (Ne.symm hj)]

/-- What the table says about the locks and the sleepers. -/
structure Exact (s : LockSys τ) : Prop where
  /-- Beside an exclusive lock there is no other lock on the inode. -/
  exclusive : ∀ h ∈ s.held, h.mode = .x → s.held.filter (fun h' => h'.inodeId = h.inodeId) = [h]
  /-- The count is the number of shared locks, or -1 for one exclusive lock. -/
  count : ∀ i e, s.lock.inodeIdTofileLockStateMap i = some e →
    CountOk e.state.lockCount (s.holds i .s) (s.holds i .x)
  /-- There is an entry as long as the inode is held or waited for, and no longer. -/
  entry : ∀ i, (s.lock.inodeIdTofileLockStateMap i).isSome ↔
    (∃ h ∈ s.held, h.inodeId = i) ∨ ∃ w ∈ s.waiters, w.inodeId = i
  /-- A sleeper will find the entry and the condition variable with which it went to sleep. -/
  sleep : ∀ w ∈ s.waiters, ∃ e, s.lock.inodeIdTofileLockStateMap w.inodeId = some e ∧
    e.address = w.address ∧ e.state.cv = some w.cv

theorem Inv.exact (h : Inv s) : Exact s where
  exclusive hold hmem hx := by
    have hpos : 0 < s.holds hold.inodeId .x := holds_pos_iff.mpr ⟨hold, hmem, rfl, hx⟩
    have hin : hold ∈ s.held.filter fun h' => h'.inodeId = hold.inodeId :=
      mem_filter.mpr ⟨hmem, by simp⟩
    have hi := h hold.inodeId
    match hmap : s.lock.inodeIdTofileLockStateMap hold.inodeId with
    | none =>
      rw [hmap] at hi
      exact absurd hi.2.1 (by omega)
    | some e =>
      rw [hmap] at hi
      have hone : (s.held.filter fun h' => h'.inodeId = hold.inodeId).length = 1 := by
        rw [length_filter_held]
        rcases hi.count with ⟨hzero, -⟩ | ⟨hone, hnone, -⟩
        · omega
        · omega
      obtain ⟨a, ha⟩ := length_eq_one_iff.mp hone
      rw [ha] at hin ⊢
      rw [mem_singleton.mp hin]
  count i e hmap := by
    have hi := h i
    rw [hmap] at hi
    exact hi.count
  entry i := by
    have hi := h i
    match hmap : s.lock.inodeIdTofileLockStateMap i with
    | none =>
      rw [hmap] at hi
      refine ⟨fun hsome => absurd hsome (by simp), ?_⟩
      rintro (⟨hold, hmem, rfl⟩ | ⟨w, hw, rfl⟩)
      · have hpos : 0 < s.holds hold.inodeId hold.mode := holds_pos_iff.mpr ⟨hold, hmem, rfl, rfl⟩
        match hm : hold.mode with
        | .x => exact absurd hi.2.1 (by rw [hm] at hpos; omega)
        | .s => exact absurd hi.1 (by rw [hm] at hpos; omega)
      · exact absurd (mem_waitersAt hw) (by rw [hi.2.2]; exact not_mem_nil)
    | some e =>
      rw [hmap] at hi
      refine ⟨fun _ => ?_, fun _ => rfl⟩
      have hused := hi.used
      by_cases hs : 0 < s.holds i .s
      · obtain ⟨hold, hmem, hinode, -⟩ := holds_pos_iff.mp hs
        exact .inl ⟨hold, hmem, hinode⟩
      by_cases hx : 0 < s.holds i .x
      · obtain ⟨hold, hmem, hinode, -⟩ := holds_pos_iff.mp hx
        exact .inl ⟨hold, hmem, hinode⟩
      obtain ⟨w, hw⟩ := exists_mem_of_length_pos (l := s.waitersAt i) (by omega)
      obtain ⟨hmem, hinode⟩ := mem_filter.mp hw
      exact .inr ⟨w, hmem, by simpa using hinode⟩
  sleep w hw := by
    obtain ⟨e, hmap, he⟩ := (h w.inodeId).entry (mem_waitersAt hw)
    obtain ⟨haddress, hcv⟩ := he.sleep w (mem_waitersAt hw)
    exact ⟨e, hmap, haddress.symm, hcv⟩

variable [DecidableEq τ]

theorem countHolds_erase (h : ⟨t, i, m⟩ ∈ l) (m' : LockMode) :
    l.countP (fun h => h.inodeId = i ∧ h.mode = m') =
      (l.erase ⟨t, i, m⟩).countP (fun h => h.inodeId = i ∧ h.mode = m') + plus m m' := by
  rw [(perm_cons_erase h).countP_eq, countHolds_cons]

theorem countHolds_erase_ne (h : ⟨t, i, m⟩ ∈ l) (m' : LockMode) (hj : j ≠ i) :
    (l.erase ⟨t, i, m⟩).countP (fun h => h.inodeId = j ∧ h.mode = m') =
      l.countP (fun h => h.inodeId = j ∧ h.mode = m') := by
  rw [(perm_cons_erase h).countP_eq, countHolds_cons_ne _ _ _ _ hj]

theorem waiterOf_eq_some (h : s.waiterOf t = some w) : w ∈ s.waiters ∧ w.thread = t :=
  ⟨mem_of_find?_eq_some h, by simpa using find?_some h⟩

theorem filter_erase_ne (ws : List (Waiter τ)) (hj : j ≠ w.inodeId) :
    (ws.erase w).filter (fun v => v.inodeId = j) = ws.filter fun v => v.inodeId = j := by
  rw [← erase_filter]
  refine erase_of_not_mem fun hmem => hj ?_
  have heq : w.inodeId = j := by simpa using (mem_filter.mp hmem).2
  exact heq.symm

/-- **Every step keeps the invariant.** -/
theorem inv_step {e : LockEvent τ} (h : Inv s) (hs : step s e = some s') : Inv s' := by
  match e with
  | .get t i m wait =>
    simp only [step] at hs
    split at hs
    · cases hs
    · have hne := fun (j : InodeId) hj => innerGetFileLock_ne s.lock (i := i) (j := j) m wait hj
      split at hs
      · rename_i lock hget
        rw [hget] at hne
        cases hs
        refine h.of_inode i ?_ hne (fun j hj m' => countHolds_cons_ne _ _ _ _ hj) fun _ _ => rfl
        simp only [holds, countHolds_cons]
        exact (h i).locked hget
      · rename_i lock hget
        cases hs
        rw [refused_eq hget]
        exact h
      · rename_i lock address cv hget
        rw [hget] at hne
        cases hs
        refine h.of_inode i ?_ hne (fun _ _ _ => rfl) fun j hj => ?_
        · have hws : filter (fun w : Waiter τ => w.inodeId = i)
              (⟨t, i, m, address, cv⟩ :: s.waiters) =
                ⟨t, i, m, address, cv⟩ :: s.waitersAt i := filter_cons_of_pos (by simp)
          simp only [waitersAt] at hws ⊢
          rw [hws]
          exact (h i).asleep hget _ ⟨rfl, rfl⟩
        · exact filter_cons_of_neg (by simp [Ne.symm hj])
  | .wake t =>
    simp only [step] at hs
    split at hs
    · cases hs
    · rename_i w hw
      obtain ⟨hmem, -⟩ := waiterOf_eq_some hw
      have hne := fun (j : InodeId) hj => wake_ne s.lock (i := w.inodeId) (j := j) w.mode hj
      split at hs
      · rename_i lock hwake
        rw [hwake] at hne
        cases hs
        refine h.of_inode w.inodeId ?_ hne (fun j hj m' => countHolds_cons_ne _ _ _ _ hj)
          fun j hj => filter_erase_ne _ hj
        simp only [holds, countHolds_cons, waitersAt, ← erase_filter]
        exact (h w.inodeId).woken (mem_waitersAt hmem) hwake
      · rename_i lock hwake
        cases hs
        rw [(h w.inodeId).wake_false (mem_waitersAt hmem) hwake]
        exact h
  | .release t i m =>
    simp only [step] at hs
    split at hs
    · cases hs
    · split at hs
      · rename_i hmem
        cases hs
        refine h.of_inode i ?_ (fun j hj => releaseFileLock_ne _ _ hj)
          (fun j hj m' => countHolds_erase_ne hmem m' hj) fun _ _ => rfl
        have hi := h i
        simp only [holds, countHolds_erase hmem] at hi
        exact hi.released
      · cases hs
  | .test t i m =>
    simp only [step] at hs
    split at hs
    · cases hs
    · exact Option.some.inj hs ▸ h

/-- What a call does to the locks and the sleepers. -/
theorem step_get {wait : Bool} (hs : step s (.get t i m wait) = some s') :
    s'.held = s.held ∧ s'.waiters = s.waiters ∨
      s'.held = ⟨t, i, m⟩ :: s.held ∧ s'.waiters = s.waiters ∨
      s'.held = s.held ∧ ∃ address cv, s'.waiters = ⟨t, i, m, address, cv⟩ :: s.waiters := by
  simp only [step] at hs
  (repeat' split at hs) <;> cases hs <;> simp

theorem step_wake (hw : s.waiterOf t = some w) (hs : step s (.wake t) = some s') :
    s'.held = s.held ∧ s'.waiters = s.waiters ∨
      s'.held = ⟨t, w.inodeId, w.mode⟩ :: s.held ∧ s'.waiters = s.waiters.erase w := by
  simp only [step, hw] at hs
  split at hs <;> cases hs <;> simp

theorem step_release (hs : step s (.release t i m) = some s') :
    s'.held = s.held.erase ⟨t, i, m⟩ ∧ s'.waiters = s.waiters := by
  simp only [step] at hs
  (repeat' split at hs) <;> cases hs
  exact ⟨rfl, rfl⟩

/-- A thread that is willing to wait gets its lock or sleeps. -/
theorem Inv.get_wait (h : Inv s) (hs : step s (.get t i m true) = some s') :
    ⟨t, i, m⟩ ∈ s'.held ∨ (s'.waiterOf t).isSome := by
  simp only [step] at hs
  split at hs
  · cases hs
  · split at hs
    · cases hs
      exact .inl mem_cons_self
    · rename_i hget
      exact absurd hget (h i).not_refused
    · cases hs
      exact .inr (by simp [waiterOf])

/-- **The file locks of a node.**  However the calls of any number of threads are interleaved. -/
theorem file_locks_exact {s : LockSys τ} (h : Machine.Reach step init s) : Exact s :=
  (h.invariant inv_init fun _ _ _ hi _ hs => inv_step hi hs).exact

/-- One thread has inode 5 for itself, a second one sleeps, a third one is refused. -/
theorem file_locks_exact_asleep :
    ∃ s : LockSys Nat, Machine.Reach step init s ∧ s.held = [⟨0, 5, .x⟩] ∧ s.waiters.length = 1 ∧
      Exact s := by
  have hrun : ∃ s, Machine.exec step (init : LockSys Nat)
      [.get 0 5 .x true, .get 1 5 .s true, .get 2 5 .x false, .wake 1] = some s ∧
        s.held = [⟨0, 5, .x⟩] ∧ s.waiters.length = 1 := ⟨_, rfl, rfl, rfl⟩
  obtain ⟨s, hexec, hheld, hlen⟩ := hrun
  exact ⟨s, .of_exec _ hexec, hheld, hlen, file_locks_exact (.of_exec _ hexec)⟩

end LockSys

end FalconFS.Store
