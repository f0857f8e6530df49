/-
# The reader-writer lock of a dir-path hash entry

`utils/rwlock.c` packs a lock into one 64-bit word: a count of shared holders, an exclusive bit, a
reference count that keeps the memory alive, and a flag saying that somebody waits for exclusive
access.  A session remembers its handles in `held_rwlocks`, each with its mode.

The model names the sessions behind the counts: `shared` and `declared` list the sessions once for
every handle they have, so that the counts of the word are the lengths of the lists.  That an
exclusive holder is alone is a field, since `RWLockAttemptLock` is the only way in.

Everything the rest of the development needs is how many handles of each mode a session has on the
lock (`RWLock.count`) and how the operations change that number.
-/
import Mathlib.Data.List.Basic

namespace FalconFS

/-- `RWLockMode`. -/
inductive RWLockMode
  | declare | shared | exclusive
  deriving DecidableEq

structure RWLock (σ : Type) where
  exclusive : Option σ
  shared : List σ
  /-- Sessions that keep the lock alive without holding it (`RWLockDeclare`). -/
  declared : List σ
  /-- `RW_FLAG_HAS_EXCLUSIVE_WAITER` -/
  waiter : Bool
  alone : exclusive ≠ none → shared = []

namespace RWLock

variable {σ : Type} [DecidableEq σ]

/-! ## 1. The operations -/

/-- `RWLockInitialize`. -/
def init : RWLock σ := ⟨none, [], [], false, by simp⟩

section

variable (l : RWLock σ)

/-- `RWLockDeclare`. -/
def declare (t : σ) : RWLock σ :=
  { l with declared := t :: l.declared }

/-- `RWLockUndeclare`. -/
def undeclare (t : σ) : RWLock σ :=
  { l with declared := l.declared.erase t }

/-- `RWLockAttemptLock`: exclusive access needs a lock nobody holds, and leaves the flag when it is
refused; shared access needs that nobody has or waits for exclusive access. -/
def attemptLock (t : σ) (m : RWLockMode) : RWLock σ × Bool :=
  match m with
  | .exclusive =>
    if h : l.exclusive = none ∧ l.shared = [] then
      ({ l with exclusive := some t, waiter := false, alone := fun _ => h.2 }, true)
    else ({ l with waiter := true }, false)
  | .shared =>
    if h : l.exclusive = none ∧ l.waiter = false then
      ({ l with shared := t :: l.shared, alone := fun he => absurd h.1 he }, true)
    else (l, false)
  | .declare => (l, false)

/-- `RWLockRelease`, and `RWLockUndeclare` for a handle that only declares. -/
def release (t : σ) (m : RWLockMode) : RWLock σ :=
  match m with
  | .exclusive => { l with exclusive := none, alone := fun h => absurd rfl h }
  | .shared => { l with
      shared := l.shared.erase t
      alone := fun h => by rw [l.alone h]; rfl }
  | .declare => l.undeclare t

/-- `RWLockCheckDestroyable`: no references. -/
def checkDestroyable : Bool :=
  l.exclusive.isNone && l.shared.isEmpty && l.declared.isEmpty

/-- The handles a session has on the lock. -/
def count (t : σ) : RWLockMode → Nat
  | .declare => l.declared.count t
  | .shared => l.shared.count t
  | .exclusive => if l.exclusive = some t then 1 else 0

end

/-! ## 2. What they do to the handles -/

@[simp] theorem count_init (t : σ) (m : RWLockMode) : (init : RWLock σ).count t m = 0 := by
  cases m <;> simp [count, init]

theorem count_declare (l : RWLock σ) (t u : σ) (m : RWLockMode) :
    (l.declare t).count u m = l.count u m + if u = t ∧ m = .declare then 1 else 0 := by
  cases m with
  | declare =>
    by_cases h : u = t
    · simp [count, declare, h]
    · simp [count, declare, h, List.count_cons_of_ne (Ne.symm h)]
  | shared => simp [count, declare]
  | exclusive =>
    rw [if_neg (by simp)]
    rfl

variable {t : σ} {l : RWLock σ} {m : RWLockMode}

theorem count_undeclare (l : RWLock σ) (h : 0 < l.count t .declare) (u : σ) (m : RWLockMode) :
    (l.undeclare t).count u m + (if u = t ∧ m = .declare then 1 else 0) = l.count u m := by
  cases m with
  | declare =>
    by_cases hu : u = t
    · subst hu
      simp only [count] at h
      simp only [count, undeclare, List.count_erase_self, and_self, if_true]
      omega
    · simp [count, undeclare, hu, List.count_erase_of_ne hu]
  | shared => simp [count, undeclare]
  | exclusive =>
    rw [if_neg (by simp)]
    rfl

/-- A lock that was obtained is one more handle. -/
theorem count_attemptLock (h : (l.attemptLock t m).2 = true) (u : σ) (n : RWLockMode) :
    (l.attemptLock t m).1.count u n = l.count u n + if u = t ∧ n = m then 1 else 0 := by
  cases m with
  | declare => simp [attemptLock] at h
  | shared =>
    simp only [attemptLock] at h ⊢
    split at h
    · rename_i hfree
      rw [dif_pos hfree]
      cases n with
      | shared =>
        by_cases hu : u = t
        · simp [count, hu]
        · simp [count, hu, List.count_cons_of_ne (Ne.symm hu)]
      | declare => simp [count]
      | exclusive => simp [count]
    · cases h
  | exclusive =>
    simp only [attemptLock] at h ⊢
    split at h
    · rename_i hfree
      rw [dif_pos hfree]
      cases n with
      | shared => simp [count]
      | declare => simp [count]
      | exclusive => simp [count, hfree.1, eq_comm]
    · cases h

/-- A refused attempt changes no handle. -/
theorem count_attemptLock_refused (h : (l.attemptLock t m).2 = false) (u : σ) (n : RWLockMode) :
    (l.attemptLock t m).1.count u n = l.count u n := by
  cases m with
  | declare => rfl
  | shared =>
    simp only [attemptLock] at h ⊢
    split at h
    · cases h
    · rename_i hfree
      rw [dif_neg hfree]
  | exclusive =>
    simp only [attemptLock] at h ⊢
    split at h
    · cases h
    · rename_i hfree
      rw [dif_neg hfree]
      cases n <;> rfl

theorem count_release (l : RWLock σ) (h : 0 < l.count t m) (u : σ) (n : RWLockMode) :
    (l.release t m).count u n + (if u = t ∧ n = m then 1 else 0) = l.count u n := by
  cases m with
  | declare => exact count_undeclare l h u n
  | shared =>
    simp only [count] at h
    cases n with
    | shared =>
      by_cases hu : u = t
      · subst hu
        simp only [count, release, List.count_erase_self, and_self, if_true]
        omega
      · simp [count, release, hu, List.count_erase_of_ne hu]
    | declare => simp [count, release]
    | exclusive =>
      rw [if_neg (by simp)]
      rfl
  | exclusive =>
    have hx : l.exclusive = some t := by
      by_contra hne
      simp [count, hne] at h
    cases n with
    | shared => simp [count, release]
    | declare => simp [count, release]
    | exclusive => simp [count, release, hx, eq_comm]

/-- A destroyable lock has no handles. -/
theorem count_of_checkDestroyable (h : l.checkDestroyable = true) (t : σ) (m : RWLockMode) :
    l.count t m = 0 := by
  simp only [checkDestroyable, Bool.and_eq_true, Option.isNone_iff_eq_none,
    List.isEmpty_iff] at h
  cases m <;> simp [count, h.1.1, h.1.2, h.2]

/-- **Exclusion.**  Beside an exclusive handle there is no other handle that holds the lock. -/
theorem count_exclusive {u : σ} (ht : 0 < l.count t .exclusive) (hm : m ≠ .declare)
    (hu : 0 < l.count u m) : u = t ∧ m = .exclusive ∧ l.count u m = 1 := by
  have hx : l.exclusive = some t := by
    by_contra hne
    simp [count, hne] at ht
  cases m with
  | declare => exact absurd rfl hm
  | shared =>
    have := l.alone (by simp [hx])
    simp [count, this] at hu
  | exclusive =>
    by_cases hu' : l.exclusive = some u
    · exact ⟨Option.some.inj (hu'.symm.trans hx), rfl, by simp [count, hu']⟩
    · simp [count, hu'] at hu

theorem exclusive_eq_some : l.exclusive = some t ↔ 0 < l.count t .exclusive := by
  by_cases h : l.exclusive = some t <;> simp [count, h]

end RWLock

end FalconFS
