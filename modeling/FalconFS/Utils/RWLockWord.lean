/-
# The word of a reader-writer lock

`utils/rwlock.c` keeps a whole lock in one 64-bit word: bits 0 to 23 count the shared holders, bit
24 is set by an exclusive holder, bits 25 to 49 count the references that keep the memory alive,
and bit 62 says that somebody waits for exclusive access.  The word is changed by `fetch_add`,
`fetch_sub` and compare-and-swap, one at a time, while other sessions do the same.

`RWLock.lean` has the lock as lists of sessions, with `RWLockAcquire` in one step.  Here is the
word with every atomic step of its own; sessions follow the callers of `dir_path_hash.c`, which
declare a lock, acquire it, undeclare it, and release it later, or at the end of the transaction
with everything else.
-/
import FalconFS.Lib.Machine
import FalconFS.Lib.Tally
import FalconFS.Lib.Word
import FalconFS.Utils.RWLock

namespace FalconFS.RWLockWord

open Machine Function Tally List

/-! ## 1. The word -/

/-- `BIT_COUNT_FOR_SHARED` -/
def bitCountForShared : Nat := 24

/-- `RW_FLAG_HAS_EXCLUSIVE_WAITER` -/
def flagHasExclusiveWaiter : BitVec 64 := 1#64 <<< 62

/-- `RW_VAL_EXCLUSIVE` -/
def valExclusive : BitVec 64 := 1#64 <<< bitCountForShared

/-- `RW_VAL_SHARED` -/
def valShared : BitVec 64 := 1

/-- `RW_VAL_REF_COUNT` -/
def valRefCount : BitVec 64 := 1#64 <<< (bitCountForShared + 1)

/-- `RW_LOCK_MASK` -/
def lockMask : BitVec 64 := (1#64 <<< (bitCountForShared + 1)) - 1

/-- `RW_SHARED_MASK` -/
def sharedMask : BitVec 64 := (1#64 <<< bitCountForShared) - 1

/-- `RW_REF_COUNT_MASK` -/
def refCountMask : BitVec 64 :=
  ((1#64 <<< (bitCountForShared * 2 + 2)) - 1) &&& ~~~lockMask

/-- One turn of the loop of `RWLockAttemptLock`: `desired_state` and `lock_free`. -/
def attemptLock (old : BitVec 64) (mode : RWLockMode) : BitVec 64 × Bool :=
  if mode = .exclusive then
    if old &&& lockMask = 0 then ((old ||| valExclusive) &&& ~~~flagHasExclusiveWaiter, true)
    else (old ||| flagHasExclusiveWaiter, false)
  else if old &&& (valExclusive ||| flagHasExclusiveWaiter) = 0 then (old + valShared, true)
  else (old, false)

/-- `RWLockCheckDestroyable` -/
def checkDestroyable (state : BitVec 64) : Bool := state &&& refCountMask == 0

/-- What a word says: its shared holders, exclusive holders and references, and a waiter or none. -/
structure Says (w : BitVec 64) (shared exclusive refs waiter : Nat) : Prop where
  alone : exclusive = 0 ∨ (exclusive = 1 ∧ shared = 0)
  flag : waiter ≤ 1
  value : w.toNat = shared + 2 ^ 24 * exclusive + 2 ^ 25 * refs + 2 ^ 62 * waiter

section Says

variable {w : BitVec 64} {shared exclusive refs waiter : Nat}

theorem toNat_and_flag : (w &&& flagHasExclusiveWaiter).toNat = 2 ^ 62 * (w.toNat / 2 ^ 62 % 2) :=
  Word.toNat_and_bit w (by decide)

theorem toNat_and_exclusive : (w &&& valExclusive).toNat = 2 ^ 24 * (w.toNat / 2 ^ 24 % 2) :=
  Word.toNat_and_bit w (by decide)

theorem toNat_and_lockMask : (w &&& lockMask).toNat = w.toNat % 2 ^ 25 :=
  Word.toNat_and_mask (k := 25) w (by decide)

theorem toNat_and_sharedMask : (w &&& sharedMask).toNat = w.toNat % 2 ^ 24 :=
  Word.toNat_and_mask (k := 24) w (by decide)

theorem toNat_and_refCountMask :
    (w &&& refCountMask).toNat = 2 ^ 25 * (w.toNat / 2 ^ 25 % 2 ^ 25) := by
  have hcut := Word.toNat_and_not_add_toNat_and (w &&& ((1#64 <<< 50) - 1)) lockMask
  have hmask : (w &&& ((1#64 <<< 50) - 1)).toNat = w.toNat % 2 ^ 50 :=
    Word.toNat_and_mask (k := 50) w (by decide)
  rw [toNat_and_lockMask, hmask, Nat.mod_mod_of_dvd _ (by decide), BitVec.and_assoc] at hcut
  replace hcut : (w &&& refCountMask).toNat + w.toNat % 2 ^ 25 = w.toNat % 2 ^ 50 := hcut
  omega

theorem Says.cast {s e r : Nat} (h : Says w shared exclusive refs waiter) (hs : s = shared)
    (he : e = exclusive) (hr : r = refs) : Says w s e r waiter := by
  rwa [hs, he, hr]

/-- `fetch_add` of a reference. -/
theorem Says.add_ref (h : Says w shared exclusive refs waiter) (hs : shared < 2 ^ 24)
    (hr : refs < 2 ^ 25) : Says (w + valRefCount) shared exclusive (refs + 1) waiter := by
  obtain ⟨halone, hw, hval⟩ := h
  have hone : valRefCount.toNat = 2 ^ 25 := rfl
  refine ⟨halone, hw, ?_⟩
  rw [BitVec.toNat_add, hone, hval]
  omega

/-- `fetch_sub` of what the word counts. -/
theorem Says.sub (s e r : Nat) {v : BitVec 64} (hv : v.toNat = s + 2 ^ 24 * e + 2 ^ 25 * r)
    (h : Says w (shared + s) (exclusive + e) (refs + r) waiter) :
    Says (w - v) shared exclusive refs waiter := by
  obtain ⟨halone, hw, hval⟩ := h
  refine ⟨by omega, hw, ?_⟩
  rw [BitVec.toNat_sub, hv]
  omega

theorem eq_zero_iff_toNat {v : BitVec 64} : v = 0 ↔ v.toNat = 0 := by
  rw [← BitVec.toNat_inj]
  rfl

section

variable (h : Says w shared exclusive refs waiter) (hs : shared < 2 ^ 24)

include h hs

/-- An attempt at shared access. -/
theorem Says.attempt_shared (hr : refs < 2 ^ 25) :
    if exclusive = 0 ∧ waiter = 0 then attemptLock w .shared = (w + valShared, true) ∧
      Says (w + valShared) (shared + 1) exclusive refs waiter
    else attemptLock w .shared = (w, false) := by
  obtain ⟨halone, hw, hval⟩ := h
  have hfree :
      w &&& (valExclusive ||| flagHasExclusiveWaiter) = 0 ↔ exclusive = 0 ∧ waiter = 0 := by
    rw [BitVec.and_or_distrib_left]
    refine (BitVec.or_eq_zero_iff.trans (and_congr eq_zero_iff_toNat eq_zero_iff_toNat)).trans ?_
    rw [toNat_and_exclusive, toNat_and_flag]
    omega
  have hattempt : attemptLock w .shared =
      if exclusive = 0 ∧ waiter = 0 then (w + valShared, true) else (w, false) := by
    simp only [← hfree]
    rfl
  rw [hattempt]
  split
  · have hone : valShared.toNat = 1 := rfl
    refine ⟨rfl, by omega, hw, ?_⟩
    rw [BitVec.toNat_add, hone, hval]
    omega
  · rfl

/-- An attempt at exclusive access. -/
theorem Says.attempt_exclusive (hr : refs < 2 ^ 25) :
    if exclusive = 0 ∧ shared = 0 then (attemptLock w .exclusive).2 = true ∧
      Says (attemptLock w .exclusive).1 shared (exclusive + 1) refs 0
    else (attemptLock w .exclusive).2 = false ∧
      Says (attemptLock w .exclusive).1 shared exclusive refs 1 := by
  obtain ⟨halone, hw, hval⟩ := h
  have hfree : w &&& lockMask = 0 ↔ exclusive = 0 ∧ shared = 0 := by
    rw [eq_zero_iff_toNat, toNat_and_lockMask]
    omega
  rw [attemptLock, if_pos rfl]
  simp only [hfree]
  split
  · rename_i hnone
    refine ⟨rfl, by omega, Nat.zero_le _, ?_⟩
    have hset := Word.toNat_or w valExclusive
    have hrest := Word.toNat_and_not_add_toNat_and w valExclusive
    have hbit : valExclusive.toNat = 2 ^ 24 := rfl
    rw [toNat_and_exclusive] at hrest
    have hcut := Word.toNat_and_not_add_toNat_and (w ||| valExclusive) flagHasExclusiveWaiter
    rw [toNat_and_flag] at hcut
    dsimp only
    omega
  · refine ⟨rfl, halone, le_refl _, ?_⟩
    have hset := Word.toNat_or w flagHasExclusiveWaiter
    have hrest := Word.toNat_and_not_add_toNat_and w flagHasExclusiveWaiter
    have hbit : flagHasExclusiveWaiter.toNat = 2 ^ 62 := rfl
    rw [toNat_and_flag] at hrest
    dsimp only
    omega

/-- What a word with room in its fields says can be read off with the masks. -/
theorem Says.read (hr : refs < 2 ^ 25) : (w &&& sharedMask).toNat = shared ∧
      ((w &&& refCountMask) >>> (bitCountForShared + 1)).toNat = refs := by
  obtain ⟨halone, hw, hval⟩ := h
  rw [toNat_and_sharedMask, BitVec.toNat_ushiftRight, Nat.shiftRight_eq_div_pow,
    toNat_and_refCountMask]
  simp only [bitCountForShared]
  constructor <;> omega

theorem Says.checkDestroyable (hr : refs < 2 ^ 25) : checkDestroyable w = true ↔ refs = 0 := by
  obtain ⟨halone, hw, hval⟩ := h
  rw [RWLockWord.checkDestroyable, beq_iff_eq, eq_zero_iff_toNat, toNat_and_refCountMask]
  omega

end

end Says

/-! ## 2. The lock that a word stands for -/

section Represents

variable {σ : Type} {w : BitVec 64} {l : RWLock σ} {t : σ} {m : RWLockMode} {pending : Nat}

/-- The handles on a lock. -/
def handleCount (l : RWLock σ) : Nat :=
  l.declared.length + l.shared.length + l.exclusive.toList.length

/-- A word and a lock of `RWLock.lean`.  Besides the handles, the word counts references that have
none, of sessions in `RWLockAcquire` or `RWLockRelease`. -/
def Represents (w : BitVec 64) (l : RWLock σ) (pending : Nat) : Prop :=
  Says w l.shared.length l.exclusive.toList.length (handleCount l + pending) l.waiter.toNat

theorem represents_init : Represents 0 (.init : RWLock σ) 0 := ⟨.inl rfl, Nat.zero_le _, rfl⟩

/-- The last step of `RWLockRelease`. -/
theorem Represents.unref (h : Represents w l (pending + 1)) :
    Represents (w - valRefCount) l pending := Says.sub 0 0 1 rfl h

section

variable (h : Represents w l pending)

include h

/-- A reference is added, in `RWLockDeclare` and in `RWLockAcquire`. -/
theorem Represents.ref (hs : l.shared.length < 2 ^ 24) (hr : handleCount l + pending < 2 ^ 25)
    (t : σ) : Represents (w + valRefCount) (l.declare t) pending ∧
      Represents (w + valRefCount) l (pending + 1) := by
  have hadd := Says.add_ref h hs hr
  refine ⟨Says.cast hadd rfl rfl ?_, hadd⟩
  simp only [handleCount, RWLock.declare, length_cons]
  omega

theorem Represents.checkDestroyable (hs : l.shared.length < 2 ^ 24)
    (hr : handleCount l + pending < 2 ^ 25) :
    RWLockWord.checkDestroyable w = (l.checkDestroyable && pending == 0) := by
  rw [Bool.eq_iff_iff, Says.checkDestroyable h hs hr]
  simp [handleCount, RWLock.checkDestroyable, and_assoc, and_comm, and_left_comm]

/-- The `fetch_sub`s of `RWLockUndeclare` and `RWLockRelease`. -/
theorem Represents.release [DecidableEq σ] (ht : 0 < l.count t m) :
    match m with
    | .declare => Represents (w - valRefCount) (l.release t m) pending
    | .shared => Represents (w - valShared) (l.release t m) (pending + 1)
    | .exclusive => Represents (w - valExclusive) (l.release t m) (pending + 1) := by
  cases m with
  | declare =>
    have hlen := length_erase_add_one (count_pos_iff.mp ht)
    refine Says.sub 0 0 1 rfl (Says.cast h rfl rfl ?_)
    simp only [handleCount, RWLock.release, RWLock.undeclare]
    omega
  | shared =>
    have hlen := length_erase_add_one (count_pos_iff.mp ht)
    refine Says.sub 1 0 0 rfl (Says.cast h hlen rfl ?_)
    simp only [handleCount, RWLock.release]
    omega
  | exclusive =>
    have hx := RWLock.exclusive_eq_some.mpr ht
    refine Says.sub 0 1 0 rfl (Says.cast h rfl (by simp [RWLock.release, hx]) ?_)
    simp only [handleCount, RWLock.release, hx, Option.toList_some, Option.toList_none,
      length_singleton, length_nil]
    omega

/-- One turn of `RWLockAttemptLock`. -/
theorem Represents.attemptLock (hp : 0 < pending) (hs : l.shared.length < 2 ^ 24)
    (hr : handleCount l + pending < 2 ^ 25) (hm : m ≠ .declare) (t : σ) :
    (attemptLock w m).2 = (l.attemptLock t m).2 ∧
      Represents (attemptLock w m).1 (l.attemptLock t m).1
        (pending - (l.attemptLock t m).2.toNat) := by
  cases m with
  | declare => exact absurd rfl hm
  | shared =>
    have hword := Says.attempt_shared h hs hr
    have hiff : l.exclusive.toList.length = 0 ∧ l.waiter.toNat = 0 ↔
        l.exclusive = none ∧ l.waiter = false := by simp
    simp only [hiff] at hword
    by_cases hfree : l.exclusive = none ∧ l.waiter = false
    · rw [if_pos hfree] at hword
      simp only [RWLock.attemptLock, dif_pos hfree, hword.1, true_and, Bool.toNat_true]
      refine Says.cast hword.2 rfl rfl ?_
      simp only [handleCount, length_cons]
      omega
    · rw [if_neg hfree] at hword
      simp only [RWLock.attemptLock, dif_neg hfree, hword, true_and]
      exact h
  | exclusive =>
    have hword := Says.attempt_exclusive h hs hr
    have hiff : l.exclusive.toList.length = 0 ∧ l.shared.length = 0 ↔
        l.exclusive = none ∧ l.shared = [] := by simp
    simp only [hiff] at hword
    by_cases hfree : l.exclusive = none ∧ l.shared = []
    · rw [if_pos hfree] at hword
      simp only [RWLock.attemptLock, dif_pos hfree, hword.1, true_and, Bool.toNat_true]
      refine Says.cast hword.2 rfl (by simp [hfree.1]) ?_
      simp only [handleCount, hfree.1, Option.toList_some, Option.toList_none, length_singleton,
        length_nil]
      omega
    · rw [if_neg hfree] at hword
      simp only [RWLock.attemptLock, dif_neg hfree, hword.1, true_and]
      exact hword.2

end

end Represents

/-! ## 3. Sessions -/

/-- Where a session is, between two atomic steps. -/
inductive Pc (L : Type)
  | idle
  /-- Back from `RWLockDeclare`. -/
  | declared (lock : L)
  /-- In `RWLockAcquire`, before it reads the word. -/
  | attempt (lock : L) (mode : RWLockMode)
  /-- ... and before it writes it, if it is still `old`. -/
  | swap (lock : L) (mode : RWLockMode) (old : BitVec 64)
  /-- Back from `RWLockAcquire`. -/
  | acquired (lock : L)
  /-- In `RWLockRelease`, before the reference is given up; called by `RWLockReleaseAll` or not. -/
  | unref (lock : L) (all : Bool)
  /-- In the loop of `RWLockReleaseAll`. -/
  | releaseAll
  deriving DecidableEq

/-- Between two calls, and where `RWLockReleaseAll` begins a turn. -/
def Pc.Quiet {L : Type} : Pc L → Prop
  | .attempt _ _ | .swap _ _ _ | .unref _ _ => False
  | _ => True

variable {L : Type}

theorem Pc.quiet_idle : (.idle : Pc L).Quiet := trivial

theorem Pc.quiet_declared (lock : L) : (Pc.declared lock).Quiet := trivial

theorem Pc.quiet_acquired (lock : L) : (Pc.acquired lock).Quiet := trivial

theorem Pc.quiet_releaseAll : (.releaseAll : Pc L).Quiet := trivial

/-- `held_rwlocks`, the last handle first. -/
structure Session (L : Type) where
  held : List (L × RWLockMode)
  pc : Pc L
  deriving DecidableEq

/-- `MAX_SIMUL_RWLOCKS` -/
def maxSimulRwlocks : Nat := 8196

section Calls

variable {L : Type} [DecidableEq L] (state : L → BitVec 64) (held : List (L × RWLockMode))

/-- An error ends the transaction, and the handles are given up. -/
def error : (L → BitVec 64) × Session L := (state, ⟨held, .releaseAll⟩)

/-- `RWLockDeclare` -/
def declare (lock : L) : (L → BitVec 64) × Session L :=
  if maxSimulRwlocks ≤ held.length then error state held
  else (update state lock (state lock + valRefCount),
    ⟨(lock, .declare) :: held, .declared lock⟩)

/-- `RWLockUndeclare` -/
def undeclare (lock : L) (next : Pc L) : (L → BitVec 64) × Session L :=
  if (lock, .declare) ∈ held then
    (update state lock (state lock - valRefCount), ⟨held.erase (lock, .declare), next⟩)
  else error state held

/-- `RWLockAcquire`, up to the loop. -/
def acquire (lock : L) (mode : RWLockMode) : (L → BitVec 64) × Session L :=
  if mode = .declare then error state held
  else if maxSimulRwlocks ≤ held.length then error state held
  else (update state lock (state lock + valRefCount), ⟨held, .attempt lock mode⟩)

/-- `RWLockRelease`, up to the last `fetch_sub`.  The handle is the last one of the lock. -/
def release (lock : L) (all : Bool) : (L → BitVec 64) × Session L :=
  match held.find? fun h => h.1 = lock with
  | none => error state held
  | some h =>
    let val := if h.2 = .exclusive then valExclusive else valShared
    (update state lock (state lock - val), ⟨held.erase h, .unref lock all⟩)

end Calls

inductive Call (L : Type)
  | declare (lock : L)
  | acquire (mode : RWLockMode)
  | undeclare
  | release (lock : L)
  | releaseAll

namespace Session

variable {L : Type} [DecidableEq L]

/-- The calls of a session, in the order of its callers: between `RWLockDeclare` and
`RWLockUndeclare` of a lock is its `RWLockAcquire`, unless there is an error. -/
def call (state : L → BitVec 64) (x : Session L) : Call L → Option ((L → BitVec 64) × Session L)
  | .declare lock =>
    match x.pc with
    | .idle => some (RWLockWord.declare state x.held lock)
    | _ => none
  | .acquire mode =>
    match x.pc with
    | .declared lock => some (acquire state x.held lock mode)
    | _ => none
  | .undeclare =>
    match x.pc with
    | .acquired lock => some (undeclare state x.held lock .idle)
    | _ => none
  | .release lock =>
    match x.pc with
    | .idle => some (RWLockWord.release state x.held lock false)
    | _ => none
  | .releaseAll =>
    match x.pc with
    | .idle | .declared _ | .acquired _ => some (state, ⟨x.held, .releaseAll⟩)
    | _ => none

/-- The next atomic step of the call that a session is in. -/
def go (state : L → BitVec 64) (x : Session L) : Option ((L → BitVec 64) × Session L) :=
  match x.pc with
  | .attempt lock mode => some (state, ⟨x.held, .swap lock mode (state lock)⟩)
  | .swap lock mode old =>
    if state lock = old then
      let (desired, lockFree) := attemptLock old mode
      some (update state lock desired,
        if lockFree then ⟨(lock, mode) :: x.held, .acquired lock⟩ else ⟨x.held, .attempt lock mode⟩)
    else some (state, ⟨x.held, .swap lock mode (state lock)⟩)
  | .unref lock all =>
    some (update state lock (state lock - valRefCount),
      ⟨x.held, if all then .releaseAll else .idle⟩)
  | .releaseAll =>
    match x.held with
    | [] => some (state, ⟨[], .idle⟩)
    | (lock, mode) :: _ =>
      if mode = .declare then some (undeclare state x.held lock .releaseAll)
      else some (RWLockWord.release state x.held lock true)
  | .idle | .declared _ | .acquired _ => none

/-- How many handles of a mode a session has on a lock. -/
def handles (lock : L) (mode : RWLockMode) (x : Session L) : Nat := x.held.count (lock, mode)

/-- A reference that no handle stands for: not yet, while the session waits, or no more. -/
def pending (lock : L) (x : Session L) : Nat :=
  match x.pc with
  | .attempt l _ | .swap l _ _ | .unref l _ => if l = lock then 1 else 0
  | _ => 0

def refs (lock : L) (x : Session L) : Nat :=
  x.handles lock .declare + x.handles lock .shared + x.handles lock .exclusive + x.pending lock

/-- A session in `RWLockAcquire`. -/
def Waits (lock : L) (x : Session L) : Prop :=
  match x.pc with
  | .attempt l _ | .swap l _ _ => l = lock
  | _ => False

instance (lock : L) (x : Session L) : Decidable (x.Waits lock) :=
  match h : x.pc with
  | .attempt l _ | .swap l _ _ => decidable_of_iff (l = lock) (by simp [Waits, h])
  | .idle | .declared _ | .acquired _ | .unref _ _ | .releaseAll => isFalse (by simp [Waits, h])

/-- A session that has declared, waits for or holds a lock. -/
def Uses (lock : L) (x : Session L) : Prop := (∃ h ∈ x.held, h.1 = lock) ∨ x.Waits lock

instance (lock : L) (x : Session L) : Decidable (x.Uses lock) :=
  inferInstanceAs (Decidable (_ ∨ _))

/-- Whoever uses a lock has a reference. -/
theorem refs_pos_of_uses {lock : L} {x : Session L} (h : x.Uses lock) : 0 < x.refs lock := by
  obtain ⟨held, pc⟩ := x
  rcases h with ⟨⟨l, m⟩, hmem, rfl⟩ | hw
  · have hpos : 0 < handles l m ⟨held, pc⟩ := count_pos_iff.mpr hmem
    simp only [refs]
    match m, hpos with
    | .declare, hpos | .shared, hpos | .exclusive, hpos => omega
  · have hpos : 0 < pending lock ⟨held, pc⟩ := by
      match pc, hw with
      | .attempt _ _, hw | .swap _ _ _, hw => simp [pending, show _ = lock from hw]
    unfold refs
    omega

/-- `RWLockRelease` does not ask for the mode of the handle, so it must not meet one of
`RWLockDeclare`. -/
def Ok (x : Session L) : Prop :=
  match x.pc with
  | .idle | .unref _ false => ∀ h ∈ x.held, h.2 ≠ .declare
  | .declared l | .acquired l => ∀ h ∈ x.held.erase (l, .declare), h.2 ≠ .declare
  | .attempt l m | .swap l m _ => m ≠ .declare ∧ ∀ h ∈ x.held.erase (l, .declare), h.2 ≠ .declare
  | .unref _ true | .releaseAll => True

theorem handles_push (h : L × RWLockMode) (held : List (L × RWLockMode)) (pc pc' : Pc L) (l : L)
    (m : RWLockMode) : handles l m ⟨h :: held, pc'⟩ =
      handles l m ⟨held, pc⟩ + if h = (l, m) then 1 else 0 := by
  simp [handles, count_cons]

theorem handles_erase {h : L × RWLockMode} {held : List (L × RWLockMode)} (hmem : h ∈ held)
    (pc pc' : Pc L) (l : L) (m : RWLockMode) : handles l m ⟨held.erase h, pc'⟩ +
      (if h = (l, m) then 1 else 0) = handles l m ⟨held, pc⟩ := by
  simp only [handles, count_erase, beq_iff_eq]
  split
  · rename_i heq
    subst heq
    have := count_pos_iff.mpr hmem
    omega
  · rfl

end Session

/-! ## 4. One session among others

`Keeps` says what a step of one session does, whatever the others have: if the word counts their
handles and the session's before the step, it counts them after the step. -/

open Session

/-- A word whose flag may be set or not. -/
def Means (w : BitVec 64) (shared exclusive refs : Nat) : Prop :=
  ∃ waiter, Says w shared exclusive refs waiter

section Keeps

variable {L : Type} [DecidableEq L] {state state' : L → BitVec 64} {x x' : Session L}

def Keeps (state : L → BitVec 64) (x : Session L) (state' : L → BitVec 64) (x' : Session L) :
    Prop :=
  ∀ (l : L) (shared exclusive refs : Nat),
    shared + x.handles l .shared < 2 ^ 24 → refs + x.refs l < 2 ^ 25 →
    Means (state l) (shared + x.handles l .shared) (exclusive + x.handles l .exclusive)
      (refs + x.refs l) →
    Means (state' l) (shared + x'.handles l .shared) (exclusive + x'.handles l .exclusive)
      (refs + x'.refs l)

/-- The session goes on elsewhere, with the handles it has. -/
theorem keeps_local {held : List (L × RWLockMode)} {pc pc' : Pc L}
    (h : ∀ l, pending l ⟨held, pc'⟩ = pending l ⟨held, pc⟩) :
    Keeps state ⟨held, pc⟩ state ⟨held, pc'⟩ := by
  intro l shared exclusive refs _ _ hmeans
  simpa only [Session.refs, handles, h l] using hmeans

variable {held held' : List (L × RWLockMode)} {pc pc' : Pc L} {lock : L} {v : BitVec 64}
  {p p' : Nat}

/-- A step at one lock: the others see nothing of it. -/
theorem keeps_update (hother : ∀ l ≠ lock,
      (∀ m, handles l m ⟨held', pc'⟩ = handles l m ⟨held, pc⟩) ∧
        pending l ⟨held', pc'⟩ = pending l ⟨held, pc⟩)
    (hlock : ∀ shared exclusive refs : Nat,
      shared + handles lock .shared ⟨held, pc⟩ < 2 ^ 24 →
      refs + Session.refs lock ⟨held, pc⟩ < 2 ^ 25 →
      Means (state lock) (shared + handles lock .shared ⟨held, pc⟩)
        (exclusive + handles lock .exclusive ⟨held, pc⟩)
        (refs + Session.refs lock ⟨held, pc⟩) →
      Means v (shared + handles lock .shared ⟨held', pc'⟩)
        (exclusive + handles lock .exclusive ⟨held', pc'⟩)
        (refs + Session.refs lock ⟨held', pc'⟩)) :
    Keeps state ⟨held, pc⟩ (update state lock v) ⟨held', pc'⟩ := by
  intro l shared exclusive refs hs hr hmeans
  by_cases hl : l = lock
  · subst hl
    rw [update_self]
    exact hlock shared exclusive refs hs hr hmeans
  · rw [update_of_ne hl]
    obtain ⟨hh, hp⟩ := hother l hl
    simpa only [Session.refs, hh, hp] using hmeans

/-- `pending` counts for the lock of the step only, and there `p` before it and `p'` after it. -/
def PendingAt (lock : L) (pc : Pc L) (p : Nat) : Prop :=
  ∀ (held : List (L × RWLockMode)) (l : L),
    pending l ⟨held, pc⟩ = if l = lock then p else 0

theorem keeps_pending (hp : PendingAt lock pc p) (hp' : PendingAt lock pc' p')
    (hv : ∀ shared exclusive refs, shared < 2 ^ 24 → refs + p < 2 ^ 25 →
      Means (state lock) shared exclusive (refs + p) → Means v shared exclusive (refs + p')) :
    Keeps state ⟨held, pc⟩ (update state lock v) ⟨held, pc'⟩ := by
  refine keeps_update ?_ ?_
  · intro l hl
    exact ⟨fun m => rfl, by rw [hp, hp', if_neg hl, if_neg hl]⟩
  · intro shared exclusive refs hs hr hmeans
    simp only [Session.refs, hp held, hp' held, if_true, ← Nat.add_assoc] at hr hmeans ⊢
    exact hv _ _ _ hs hr hmeans

/-- A handle is added. -/
theorem keeps_push {m : RWLockMode} (hp : PendingAt lock pc p) (hp' : PendingAt lock pc' p')
    (hv : ∀ shared exclusive refs, shared < 2 ^ 24 → refs + p < 2 ^ 25 →
      Means (state lock) shared exclusive (refs + p) →
      Means v (shared + if m = .shared then 1 else 0) (exclusive + if m = .exclusive then 1 else 0)
        (refs + 1 + p')) :
    Keeps state ⟨held, pc⟩ (update state lock v) ⟨(lock, m) :: held, pc'⟩ := by
  have hpush := fun l n => handles_push (lock, m) held pc pc' l n
  refine keeps_update ?_ ?_
  · intro l hl
    refine ⟨fun n => ?_, by rw [hp, hp', if_neg hl, if_neg hl]⟩
    rw [hpush, if_neg fun heq => hl (Prod.mk.inj heq).1.symm]
    rfl
  · intro shared exclusive refs hs hr hmeans
    simp only [Session.refs, hp held, if_true, ← Nat.add_assoc] at hr hmeans
    have hnew := hv _ _ _ hs hr hmeans
    have hrefs : Session.refs lock ⟨(lock, m) :: held, pc'⟩ =
        handles lock .declare ⟨held, pc⟩ + handles lock .shared ⟨held, pc⟩ +
          handles lock .exclusive ⟨held, pc⟩ + 1 + p' := by
      simp only [Session.refs, hpush, hp' _ lock, if_true, Prod.mk.injEq, true_and]
      cases m <;> simp <;> omega
    rw [hpush, hpush, hrefs]
    simpa only [Prod.mk.injEq, true_and, ← Nat.add_assoc] using hnew

/-- A handle is removed. -/
theorem keeps_erase {m : RWLockMode} (hmem : (lock, m) ∈ held) (hp : PendingAt lock pc p)
    (hp' : PendingAt lock pc' p')
    (hv : ∀ shared exclusive refs,
      Means (state lock) (shared + if m = .shared then 1 else 0)
        (exclusive + if m = .exclusive then 1 else 0) (refs + 1 + p) →
      Means v shared exclusive (refs + p')) :
    Keeps state ⟨held, pc⟩ (update state lock v) ⟨held.erase (lock, m), pc'⟩ := by
  have herase := fun l n => handles_erase hmem pc pc' l n
  refine keeps_update ?_ ?_
  · intro l hl
    refine ⟨fun n => ?_, by rw [hp, hp', if_neg hl, if_neg hl]⟩
    rw [← herase, if_neg fun heq => hl (Prod.mk.inj heq).1.symm]
    rfl
  · intro shared exclusive refs hs hr hmeans
    have hrefs : Session.refs lock ⟨held, pc⟩ =
        handles lock .declare ⟨held.erase (lock, m), pc'⟩ +
          handles lock .shared ⟨held.erase (lock, m), pc'⟩ +
          handles lock .exclusive ⟨held.erase (lock, m), pc'⟩ + 1 + p := by
      simp only [Session.refs, ← herase, hp _ lock, if_true, Prod.mk.injEq, true_and]
      cases m <;> simp <;> omega
    rw [hrefs, ← herase, ← herase] at hmeans
    simp only [Prod.mk.injEq, true_and, ← Nat.add_assoc] at hmeans
    simp only [Session.refs, hp' _ lock, if_true, ← Nat.add_assoc]
    exact hv _ _ _ hmeans

/-- Between two calls a session has no reference without a handle. -/
theorem Pc.Quiet.pendingAt (h : pc.Quiet) (lock : L) : PendingAt lock pc 0 := by
  intro held l
  match pc, h with
  | .idle, _ | .declared _, _ | .acquired _, _ | .releaseAll, _ => simp [pending]

theorem pendingAt_attempt (m : RWLockMode) : PendingAt lock (.attempt lock m) 1 :=
  fun _ l => by simp [pending, eq_comm]

theorem pendingAt_swap (m : RWLockMode) (old : BitVec 64) : PendingAt lock (.swap lock m old) 1 :=
  fun _ l => by simp [pending, eq_comm]

theorem pendingAt_unref (all : Bool) : PendingAt lock (.unref lock all) 1 :=
  fun _ l => by simp [pending, eq_comm]

/-! What the functions do. -/

theorem keeps_error (hpc : pc.Quiet) :
    Keeps state ⟨held, pc⟩ (error state held).1 (error state held).2 := by
  refine keeps_local fun l => ?_
  rw [Pc.quiet_releaseAll.pendingAt l, hpc.pendingAt l]

section

variable (hpc : pc.Quiet) (lock : L)

include hpc

theorem keeps_declare :
    Keeps state ⟨held, pc⟩ (declare state held lock).1 (declare state held lock).2 := by
  unfold declare
  split
  · exact keeps_error hpc
  · exact keeps_push (hpc.pendingAt lock) ((Pc.quiet_declared lock).pendingAt lock)
      fun shared exclusive refs hs hr h => h.imp fun _ h => h.add_ref hs hr

theorem keeps_undeclare {next : Pc L} (hnext : next.Quiet) :
    Keeps state ⟨held, pc⟩ (undeclare state held lock next).1
      (undeclare state held lock next).2 := by
  unfold undeclare
  split
  · rename_i hmem
    exact keeps_erase hmem (hpc.pendingAt lock) (hnext.pendingAt lock)
      fun shared exclusive refs h => h.imp fun _ h => h.sub 0 0 1 rfl
  · exact keeps_error hpc

theorem keeps_acquire (mode : RWLockMode) :
    Keeps state ⟨held, pc⟩ (acquire state held lock mode).1 (acquire state held lock mode).2 := by
  unfold acquire
  split
  · exact keeps_error hpc
  · split
    · exact keeps_error hpc
    · exact keeps_pending (hpc.pendingAt lock) (pendingAt_attempt mode)
        fun shared exclusive refs hs hr h => h.imp fun _ h => h.add_ref hs hr

/-- The handle that `RWLockRelease` finds must not be one of `RWLockDeclare`. -/
theorem keeps_release (all : Bool)
    (hmode : ∀ h, (held.find? fun h => h.1 = lock) = some h → h.2 ≠ .declare) :
    Keeps state ⟨held, pc⟩ (release state held lock all).1 (release state held lock all).2 := by
  unfold release
  split
  · exact keeps_error hpc
  · rename_i h hfind
    obtain ⟨l, mode⟩ := h
    have hl : l = lock := by simpa using find?_some hfind
    subst hl
    refine keeps_erase (mem_of_find?_eq_some hfind) (hpc.pendingAt l) (pendingAt_unref all) ?_
    rintro shared exclusive refs ⟨waiter, hbits⟩
    match mode, hmode _ hfind with
    | .shared, _ => exact ⟨waiter, hbits.sub 1 0 0 rfl⟩
    | .exclusive, _ => exact ⟨waiter, hbits.sub 0 1 0 rfl⟩

end

/-- The compare-and-swap. -/
theorem keeps_swap {mode : RWLockMode} (hmode : mode ≠ .declare) (lock : L) (old : BitVec 64)
    (hold : state lock = old) :
    Keeps state ⟨held, .swap lock mode old⟩ (update state lock (attemptLock old mode).1)
      (if (attemptLock old mode).2 then ⟨(lock, mode) :: held, .acquired lock⟩
        else ⟨held, .attempt lock mode⟩) := by
  have hattempt : ∀ shared exclusive refs, shared < 2 ^ 24 → refs < 2 ^ 25 →
      Means old shared exclusive refs →
      if (attemptLock old mode).2 then
        Means (attemptLock old mode).1 (shared + if mode = .shared then 1 else 0)
          (exclusive + if mode = .exclusive then 1 else 0) refs
      else Means (attemptLock old mode).1 shared exclusive refs := by
    rintro shared exclusive refs hs hr ⟨waiter, h⟩
    match mode, hmode with
    | .shared, _ =>
      have hword := h.attempt_shared hs hr
      split at hword
      · rw [hword.1]
        exact ⟨waiter, hword.2⟩
      · rw [hword]
        exact ⟨waiter, h⟩
    | .exclusive, _ =>
      have hword := h.attempt_exclusive hs hr
      split at hword
      · rw [if_pos hword.1]
        exact ⟨0, hword.2⟩
      · rw [if_neg (by rw [hword.1]; decide)]
        exact ⟨1, hword.2⟩
  split
  · rename_i hfree
    simp only [hfree, if_true] at hattempt
    refine keeps_push (pendingAt_swap mode old) ((Pc.quiet_acquired lock).pendingAt lock) ?_
    intro shared exclusive refs hs hr h
    exact hattempt shared exclusive (refs + 1) hs hr (hold ▸ h)
  · rename_i hfree
    simp only [hfree] at hattempt
    refine keeps_pending (pendingAt_swap mode old) (pendingAt_attempt mode) ?_
    intro shared exclusive refs hs hr h
    exact hattempt shared exclusive (refs + 1) hs hr (hold ▸ h)

end Keeps

namespace Session

variable {L : Type} [DecidableEq L] {state state' : L → BitVec 64} {x x' : Session L}

variable {r : (L → BitVec 64) × Session L}

theorem call_spec {c : Call L} (hok : x.Ok) (h : x.call state c = some r) :
    Keeps state x r.1 r.2 ∧ r.2.Ok := by
  obtain ⟨held, pc⟩ := x
  match c, pc, h with
  | .declare lock, .idle, h =>
    cases h
    refine ⟨keeps_declare Pc.quiet_idle lock, ?_⟩
    unfold declare
    split
    · trivial
    · show ∀ h ∈ ((lock, RWLockMode.declare) :: held).erase (lock, .declare), h.2 ≠ .declare
      rw [erase_cons_head]
      exact hok
  | .acquire mode, .declared lock, h =>
    cases h
    refine ⟨keeps_acquire (Pc.quiet_declared lock) lock mode, ?_⟩
    unfold acquire
    split
    · trivial
    · rename_i hmode
      split
      · trivial
      · exact ⟨hmode, hok⟩
  | .undeclare, .acquired lock, h =>
    cases h
    refine ⟨keeps_undeclare (Pc.quiet_acquired lock) lock Pc.quiet_idle, ?_⟩
    unfold undeclare
    split
    · exact hok
    · trivial
  | .release lock, .idle, h =>
    cases h
    refine ⟨keeps_release Pc.quiet_idle lock false fun h hfind =>
      hok h (mem_of_find?_eq_some hfind), ?_⟩
    unfold release
    split
    · trivial
    · exact fun h hmem => hok h (mem_of_mem_erase hmem)
  | .releaseAll, .idle, h | .releaseAll, .declared _, h | .releaseAll, .acquired _, h =>
    cases h
    exact ⟨keeps_error trivial, trivial⟩

theorem go_spec (hok : x.Ok) (h : x.go state = some r) : Keeps state x r.1 r.2 ∧ r.2.Ok := by
  obtain ⟨held, pc⟩ := x
  match pc, h with
  | .attempt lock mode, h =>
    cases h
    exact ⟨keeps_local fun _ => rfl, hok⟩
  | .swap lock mode old, h =>
    simp only [go] at h
    split at h
    · rename_i hold
      cases h
      refine ⟨keeps_swap hok.1 lock old hold, ?_⟩
      dsimp only
      split
      · intro h hmem
        rw [erase_cons_tail (by simpa using hok.1)] at hmem
        rcases mem_cons.mp hmem with rfl | hmem
        · exact hok.1
        · exact hok.2 h hmem
      · exact hok
    · cases h
      exact ⟨keeps_local fun _ => rfl, hok⟩
  | .unref lock all, h =>
    cases h
    have hquiet : (if all then (Pc.releaseAll : Pc L) else .idle).Quiet := by split <;> trivial
    refine ⟨keeps_pending (pendingAt_unref all) (hquiet.pendingAt lock)
      fun shared exclusive refs _ _ h => h.imp fun _ h => h.sub 0 0 1 rfl, ?_⟩
    match all, hok with
    | false, hok => exact hok
    | true, _ => trivial
  | .releaseAll, h =>
    match held, h with
    | [], h =>
      cases h
      exact ⟨keeps_local fun _ => rfl, fun h hmem => by cases hmem⟩
    | (lock, mode) :: held, h =>
      simp only [go] at h
      split at h
      · cases h
        refine ⟨keeps_undeclare Pc.quiet_releaseAll lock Pc.quiet_releaseAll, ?_⟩
        unfold undeclare
        split <;> trivial
      · rename_i hmode
        cases h
        refine ⟨keeps_release Pc.quiet_releaseAll lock true fun h hfind => ?_, ?_⟩
        · -- the last handle of the lock is the last of all
          obtain rfl : (lock, mode) = h := by simpa using hfind
          exact hmode
        · unfold release
          split <;> trivial

end Session

/-! ## 5. Any number of sessions -/

structure Locks (L : Type) where
  /-- `state` of the locks. -/
  state : L → BitVec 64
  sessions : List (Session L)

inductive Event (L : Type)
  /-- A backend starts. -/
  | start
  | call (i : Nat) (c : Call L)
  | go (i : Nat)

namespace Locks

variable {L : Type} [DecidableEq L]

/-- `RWLockInitialize` of every lock. -/
def init : Locks L := ⟨fun _ => 0, []⟩

section

variable (s : Locks L)

def setSession (i : Nat) (r : (L → BitVec 64) × Session L) : Locks L :=
  ⟨r.1, s.sessions.set i r.2⟩

def step : Event L → Option (Locks L)
  | .start => some { s with sessions := s.sessions ++ [⟨[], .idle⟩] }
  | .call i c => s.sessions[i]?.bind fun x => (x.call s.state c).map (s.setSession i)
  | .go i => s.sessions[i]?.bind fun x => (x.go s.state).map (s.setSession i)

/-- How many handles of a mode there are on a lock. -/
def holders (l : L) (m : RWLockMode) : Nat := tally (handles l m) s.sessions

def references (l : L) : Nat := tally (Session.refs l) s.sessions

/-- There is room in the word for all that it counts. -/
def Fits : Prop := ∀ l, s.holders l .shared < 2 ^ 24 ∧ s.references l < 2 ^ 25

structure Inv : Prop where
  means : ∀ l, Means (s.state l) (s.holders l .shared) (s.holders l .exclusive) (s.references l)
  ok : ∀ x ∈ s.sessions, x.Ok

end

theorem inv_init : Inv (init : Locks L) where
  means _ := ⟨0, Or.inl rfl, Nat.zero_le _, rfl⟩
  ok _ h := by cases h

/-- One session takes a step. -/
theorem Inv.setSession {s : Locks L} {i : Nat} {x : Session L} {r : (L → BitVec 64) × Session L}
    (h : Inv s) (hfits : s.Fits) (hx : s.sessions[i]? = some x)
    (hr : Keeps s.state x r.1 r.2 ∧ r.2.Ok) : Inv (s.setSession i r) := by
  refine ⟨fun l => ?_, fun y hy => ?_⟩
  · obtain ⟨shared, hsh, hsh'⟩ := exists_rest (handles l .shared) hx
    obtain ⟨exclusive, hex, hex'⟩ := exists_rest (handles l .exclusive) hx
    obtain ⟨refs, href, href'⟩ := exists_rest (refs l) hx
    have hmeans := h.means l
    obtain ⟨hlt, hlt'⟩ := hfits l
    simp only [holders, references, hsh, hex, href] at hmeans hlt hlt'
    simp only [holders, references, Locks.setSession, hsh', hex', href']
    exact hr.1 l shared exclusive refs hlt hlt' hmeans
  · rcases mem_or_eq_of_mem_set hy with hy | rfl
    · exact h.ok y hy
    · exact hr.2

/-- **One step.** -/
theorem inv_step {s s' : Locks L} {e : Event L} (h : Inv s) (hfits : s.Fits)
    (hs : s.step e = some s') : Inv s' := by
  match e, hs with
  | .start, hs =>
    cases hs
    refine ⟨fun l => ?_, fun x hx => ?_⟩
    · simpa [holders, references, handles, refs, pending] using h.means l
    · rcases mem_append.mp hx with hx | hx
      · exact h.ok x hx
      · obtain rfl := mem_singleton.mp hx
        exact fun h hmem => by cases hmem
  | .call i c, hs =>
    obtain ⟨x, hx, hs⟩ := Option.bind_eq_some_iff.mp hs
    obtain ⟨r, hr, rfl⟩ := Option.map_eq_some_iff.mp hs
    exact h.setSession hfits hx (call_spec (h.ok x (mem_of_getElem? hx)) hr)
  | .go i, hs =>
    obtain ⟨x, hx, hs⟩ := Option.bind_eq_some_iff.mp hs
    obtain ⟨r, hr, rfl⟩ := Option.map_eq_some_iff.mp hs
    exact h.setSession hfits hx (go_spec (h.ok x (mem_of_getElem? hx)) hr)

/-- **What the word of a lock says is so**, as long as there is room in it: an exclusive holder is
alone, the shared holders are counted, and there is a reference for every session that has
declared, waits for or holds the lock, so that `RWLockCheckDestroyable` finds out about all of
them. -/
theorem lock_word_exact {s : Locks L} (h : Run step (fun s _ => s.Fits) init s)
    (hfits : s.Fits) (l : L) :
    (0 < s.holders l .exclusive → s.holders l .exclusive = 1 ∧ s.holders l .shared = 0) ∧
      (s.state l &&& sharedMask).toNat = s.holders l .shared ∧
      s.sessions.countP (fun x => x.Uses l) ≤
        ((s.state l &&& refCountMask) >>> (bitCountForShared + 1)).toNat ∧
      (checkDestroyable (s.state l) = true → ∀ x ∈ s.sessions, ¬ x.Uses l) := by
  have hinv : Inv s := h.invariant inv_init fun s e s' hs hfits hstep => inv_step hs hfits hstep
  obtain ⟨waiter, hbits⟩ := hinv.means l
  obtain ⟨hs, hr⟩ := hfits l
  obtain ⟨hshared, hrefs⟩ := hbits.read hs hr
  refine ⟨fun hpos => ?_, hshared, ?_, fun hd x hx huse => ?_⟩
  · rcases hbits.alone with hnone | halone
    · omega
    · exact halone
  · rw [hrefs]
    exact countP_le_tally _ _ (fun x hx => refs_pos_of_uses (of_decide_eq_true hx)) _
  · have hzero := (hbits.checkDestroyable hs hr).mp hd
    have hle := le_tally (refs l) hx
    have hpos := refs_pos_of_uses huse
    unfold references at hzero
    omega

instance [Fintype L] (s : Locks L) : Decidable s.Fits :=
  inferInstanceAs (Decidable (∀ _, _ ∧ _))

/-- One session holds a lock, a second one waits for exclusive access to it. -/
theorem lock_word_exact_waiting : ∃ s : Locks Unit,
    s.state () = flagHasExclusiveWaiter + 3 * valRefCount + valShared ∧
      (0 < s.holders () .exclusive → s.holders () .exclusive = 1 ∧ s.holders () .shared = 0) ∧
      (s.state () &&& sharedMask).toNat = s.holders () .shared ∧
      s.sessions.countP (fun x => x.Uses ()) ≤
        ((s.state () &&& refCountMask) >>> (bitCountForShared + 1)).toNat ∧
      (checkDestroyable (s.state ()) = true → ∀ x ∈ s.sessions, ¬ x.Uses ()) :=
  ⟨_, rfl, lock_word_exact (Run.of_exec_if
    [.start, .start, .call 0 (.declare ()), .call 1 (.declare ()), .call 0 (.acquire .shared),
      .go 0, .go 0, .call 1 (.acquire .exclusive), .call 0 .undeclare, .go 1, .go 1] rfl)
        (by decide) ()⟩

/-! ## 6. A word without room

`BIT_COUNT_FOR_SHARED` is chosen so that every backend can hold a lock once.  With more shared
holders their count runs over into the bit of the exclusive holder, and with more references
theirs runs out of its mask. -/

section Full

variable (w : BitVec 64) (xs : List (Session Unit)) (y : Session Unit)

/-- The last session that started is `y`. -/
def withLast : Locks Unit := ⟨fun _ => w, xs ++ [y]⟩

theorem setSession_last : (withLast w xs y).setSession xs.length =
    fun r => withLast (r.1 ()) xs r.2 := by
  funext r
  simp [withLast, setSession]

theorem step_call_last (c : Call Unit) : (withLast w xs y).step (.call xs.length c) =
    (y.call (fun _ => w) c).map fun r => withLast (r.1 ()) xs r.2 := by
  rw [← setSession_last w xs y]
  simp [step, withLast]

theorem step_go_last : (withLast w xs y).step (.go xs.length) =
    (y.go fun _ => w).map fun r => withLast (r.1 ()) xs r.2 := by
  rw [← setSession_last w xs y]
  simp [step, withLast]

variable {w} {n : Nat}

variable {C : Locks Unit → Event Unit → Prop}

/-- A new session declares the lock. -/
theorem run_declare (w : BitVec 64) (h₀ : C ⟨fun _ => w, xs⟩ .start)
    (h₁ : ∀ e, C (withLast w xs ⟨[], .idle⟩) e) :
    Run step C ⟨fun _ => w, xs⟩
      (withLast (w + valRefCount) xs ⟨[((), .declare)], .declared ()⟩) := by
  have hstart : step ⟨fun _ => w, xs⟩ .start = some (withLast w xs ⟨[], .idle⟩) := rfl
  have hdeclare : (withLast w xs ⟨[], .idle⟩).step (.call xs.length (.declare ())) =
      some (withLast (w + valRefCount) xs ⟨[((), .declare)], .declared ()⟩) := by
    rw [step_call_last]
    rfl
  exact (Run.refl.tail h₀ hstart).tail (h₁ _) hdeclare

/-- `n` sessions that have declared the lock. -/
def declarers (n : Nat) : Locks Unit :=
  ⟨fun _ => BitVec.ofNat 64 (2 ^ 25 * n), List.replicate n ⟨[((), .declare)], .declared ()⟩⟩

theorem run_declarers (n : Nat) :
    Run step (fun s _ => s.holders () .shared < 2 ^ 24) init (declarers n) := by
  induction n with
  | zero => exact .refl
  | succ n ih =>
    have hnone : handles () .shared (⟨[((), .declare)], .declared ()⟩ : Session Unit) = 0 :=
      rfl
    have hone : handles () .shared (⟨[], .idle⟩ : Session Unit) = 0 := rfl
    have hword :
        BitVec.ofNat 64 (2 ^ 25 * n) + valRefCount = BitVec.ofNat 64 (2 ^ 25 * (n + 1)) := by
      rw [Nat.mul_succ, BitVec.ofNat_add]
      rfl
    have hround := run_declare (replicate n ⟨[((), .declare)], .declared ()⟩)
      (BitVec.ofNat 64 (2 ^ 25 * n))
      (C := fun s _ => s.holders () .shared < 2 ^ 24) (by simp [holders, hnone])
      (by simp [holders, withLast, hnone, hone])
    rw [hword, withLast, ← replicate_succ'] at hround
    exact ih.trans hround

/-- The attempt succeeds as long as the count is below the bit of the exclusive holder. -/
theorem attemptLock_shared {m : Nat} (hn : n < 2 ^ 24) (hm : m < 2 ^ 25)
    (hw : w.toNat = n + 2 ^ 25 * m) : attemptLock w .shared = (w + valShared, true) := by
  have hbits : Says w n 0 m 0 := ⟨.inl rfl, Nat.zero_le 1, hw⟩
  exact (hbits.attempt_shared hn hm).1

/-- A new session acquires the lock, too. -/
theorem run_acquire (hn : n < 2 ^ 24) (hw : w.toNat = n + 2 ^ 25 * n)
    (h₀ : C ⟨fun _ => w, xs⟩ .start)
    (hC : ∀ v e, ∀ y : Session Unit, y.refs () ≤ 2 → C (withLast v xs y) e) :
    Run step C ⟨fun _ => w, xs⟩
      (withLast (w + valRefCount + valShared) xs ⟨[((), .shared)], .idle⟩) := by
  have hone : valRefCount.toNat = 2 ^ 25 := rfl
  obtain ⟨w₂, hdef⟩ : ∃ w₂, w₂ = w + valRefCount + valRefCount := ⟨_, rfl⟩
  have hw₂ : w₂.toNat = n + 2 ^ 25 * (n + 2) := by
    rw [hdef, BitVec.toNat_add, BitVec.toNat_add, hone, hw]
    omega
  have hacquire : (withLast (w + valRefCount) xs ⟨[((), .declare)], .declared ()⟩).step
      (.call xs.length (.acquire .shared)) =
      some (withLast w₂ xs ⟨[((), .declare)], .attempt () .shared⟩) := by
    simp [step_call_last, call, acquire, maxSimulRwlocks, hdef]
  have hread : (withLast w₂ xs ⟨[((), .declare)], .attempt () .shared⟩).step (.go xs.length) =
      some (withLast w₂ xs ⟨[((), .declare)], .swap () .shared w₂⟩) := by
    simp [step_go_last, go]
  have hswap : (withLast w₂ xs ⟨[((), .declare)], .swap () .shared w₂⟩).step (.go xs.length) =
      some (withLast (w₂ + valShared) xs ⟨[((), .shared), ((), .declare)], .acquired ()⟩) := by
    simp [step_go_last, go, attemptLock_shared hn (by omega) hw₂]
  have hundeclare : (withLast (w₂ + valShared) xs
      ⟨[((), .shared), ((), .declare)], .acquired ()⟩).step (.call xs.length .undeclare) =
      some (withLast (w + valRefCount + valShared) xs ⟨[((), .shared)], .idle⟩) := by
    have hword : w₂ + valShared - valRefCount = w + valRefCount + valShared := by
      rw [hdef]
      bv_omega
    simp [step_call_last, call, undeclare, hword]
  have hdeclared := run_declare xs w h₀ fun e => hC w e ⟨[], .idle⟩ (Nat.zero_le 2)
  have hattempt := hdeclared.tail (hC _ _ _ (by decide)) hacquire
  have hreading := hattempt.tail (hC _ _ _ (by decide)) hread
  have hacquired := hreading.tail (hC _ _ _ (Nat.le_refl 2)) hswap
  exact hacquired.tail (hC _ _ _ (by decide)) hundeclare

/-- `n` sessions that hold the lock. -/
def sharers (n : Nat) : Locks Unit :=
  ⟨fun _ => BitVec.ofNat 64 (n + 2 ^ 25 * n), List.replicate n ⟨[((), .shared)], .idle⟩⟩

theorem run_sharers (hn : n ≤ 2 ^ 24) :
    Run step (fun s _ => s.references () < 2 ^ 25) init (sharers n) := by
  induction n with
  | zero => exact .refl
  | succ n ih =>
    have hone : refs () (⟨[((), .shared)], .idle⟩ : Session Unit) = 1 := rfl
    have hword : BitVec.ofNat 64 (n + 2 ^ 25 * n) + valRefCount + valShared =
        BitVec.ofNat 64 (n + 1 + 2 ^ 25 * (n + 1)) := by
      have href : valRefCount = BitVec.ofNat 64 (2 ^ 25) := by decide
      have hshared : valShared = BitVec.ofNat 64 1 := by decide
      rw [href, hshared, ← BitVec.ofNat_add, ← BitVec.ofNat_add,
        show n + 2 ^ 25 * n + 2 ^ 25 + 1 = n + 1 + 2 ^ 25 * (n + 1) by omega]
    have hround := run_acquire (replicate n ⟨[((), .shared)], .idle⟩) (n := n)
      (w := BitVec.ofNat 64 (n + 2 ^ 25 * n))
      (C := fun s _ => s.references () < 2 ^ 25) (by omega)
      (by rw [BitVec.toNat_ofNat]; omega)
      (by
        rw [references, tally_replicate, hone]
        omega)
      (by
        intro v e y hy
        rw [references, withLast, tally_append, tally_replicate, hone, tally_cons, tally_nil]
        omega)
    rw [hword, withLast, ← replicate_succ'] at hround
    exact (ih (by omega)).trans hround

end Full

/-- **`2 ^ 24` shared holders are counted as none**, and **a lock with `2 ^ 25` references is
destroyable**, with room for the references in the first case and for the holders in the second. -/
theorem lock_word_overflows :
    (∃ s : Locks Unit, Run step (fun s _ => s.references () < 2 ^ 25) init s ∧
      s.references () < 2 ^ 25 ∧ (s.state () &&& sharedMask).toNat ≠ s.holders () .shared) ∧
    (∃ s : Locks Unit, Run step (fun s _ => s.holders () .shared < 2 ^ 24) init s ∧
      s.holders () .shared < 2 ^ 24 ∧ checkDestroyable (s.state ()) = true ∧
        ∃ x ∈ s.sessions, x.Uses ()) := by
  constructor
  · refine ⟨sharers (2 ^ 24), run_sharers (le_refl _), ?_, ?_⟩
    · rw [references, sharers, tally_replicate]
      decide
    · rw [toNat_and_sharedMask, holders, sharers, tally_replicate]
      decide
  · refine ⟨declarers (2 ^ 25), run_declarers _, ?_, by decide,
      ⟨[((), .declare)], .declared ()⟩, ?_, by decide⟩
    · rw [holders, declarers, tally_replicate]
      decide
    · exact mem_replicate.mpr ⟨by decide, rfl⟩

end Locks

end FalconFS.RWLockWord
