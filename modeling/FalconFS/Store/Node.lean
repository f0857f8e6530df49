/-
# A store node at work

Any number of requests run on a node at the same time, together with the tasks that they have left
to the thread pool, the background evictor, and the writers of open files, which change the size
of an item.  A step is one operation of one of them; between any two the others may run.  What
fails, and what the evictors are asked for, is chosen anew in every step (`Outcome`).

The numbers of the processes serve as the names of the lockers they make.  A locker is destroyed,
and its lock released, when nobody has a copy of it any more.
-/
import FalconFS.Store.Requests

namespace FalconFS.Store

/-! ## 1. Processes -/

inductive Job
  /-- A file from `OpenFile` to the last `CloseTmpFiles`, by FUSE or by a remote call -/
  | file (inst : OpenInstance) (flushes : List (BitVec 64)) (currentSize : BitVec 64)
  | readSmallFiles (inst : OpenInstance)
  | readSmallFilesForBrpc (key : InodeId) (size : BitVec 64) (oflags : BitVec 32) (nodeFail : Bool)
  | readSwitched (inst : OpenInstance)
  | deleteFiles (key : InodeId)
  /-- A task of the pool, and who submitted it -/
  | task (t : StoreTask) (parent : Nat)

namespace Job

def key : Job → InodeId
  | file inst _ _ => inst.inodeId
  | readSmallFiles inst => inst.inodeId
  | readSmallFilesForBrpc key _ _ _ => key
  | readSwitched inst => inst.inodeId
  | deleteFiles key => key
  | task t _ => t.key

def prog (persistToStorage : Bool) : Job → StoreProg Int
  | file inst flushes currentSize => .fileLife persistToStorage inst flushes currentSize
  | readSmallFiles inst => .readSmallFiles persistToStorage inst
  | readSmallFilesForBrpc key size oflags nodeFail =>
    .readSmallFilesForBrpc persistToStorage key size oflags nodeFail
  | readSwitched inst => .readSwitched persistToStorage inst
  | deleteFiles key => .deleteFiles persistToStorage key
  | task t _ => .task t

/-- A task starts with the open file that its parent has left to it. -/
def hist : Job → List StoreEntry
  | task t _ => [⟨.openLoading t.key, none⟩]
  | _ => []

def isTask : Job → Bool
  | task _ _ => true
  | _ => false

end Job

structure Proc where
  job : Job
  /-- What is left to do. -/
  prog : StoreProg Int
  /-- What has been done. -/
  hist : List StoreEntry
  /-- The locker of which it has a copy. -/
  locker : Option Nat

def Proc.begin (persistToStorage : Bool) (job : Job) (locker : Option Nat) : Proc :=
  ⟨job, job.prog persistToStorage, job.hist, locker⟩

/-- The copy of the locker after an operation of process `p`. -/
def lockerAfter (p : Nat) (locker : Option Nat) : (o : StoreOp) → o.Res → Option Nat
  | .lockX _ _, (r : Bool) => if r then some p else locker
  | .dropLocker _, _ => none
  | _, _ => locker

def Proc.resume (proc : Proc) (p : Nat) (o : StoreOp) (r : o.Res) (k : o.Res → StoreProg Int) :
    Proc :=
  ⟨proc.job, k r, ⟨o, r⟩ :: proc.hist, lockerAfter p proc.locker o r⟩

/-! ## 2. The node -/

structure Node where
  cache : DiskCache
  reservedCap : BitVec 64
  locks : LockSys Nat
  procs : List Proc

/-- What the outside decides about one operation. -/
structure Outcome where
  /-- The error of `open` or of `remove`. -/
  err : Option Errno
  /-- What a `pread` that does not fill its buffer leaves in `errno`. -/
  short : Option Nat
  /-- Whether a call of the storage, or `pwrite`, succeeds; and what `access` says. -/
  ok : Bool
  wantedCap : BitVec 64
  wantedInode : Nat
  removes : InodeId → Bool

/-- No error, and nothing to evict. -/
def quiet : Outcome := ⟨none, none, true, 0, 0, fun _ => true⟩

inductive NodeEvent
  | begin (job : Job)
  | run (p : Nat) (x : Outcome)
  /-- The background evictor. -/
  | cleanup (wantedCap : BitVec 64) (wantedInode : Nat) (removes : InodeId → Bool)
  | update (key : InodeId) (size : BitVec 64)
  | add (key : InodeId) (size : BitVec 64)

namespace Node

/-- A started node, before the first request. -/
def start (cache : DiskCache) (reservedCap : BitVec 64) : Node := ⟨cache, reservedCap, .init, []⟩

/-- A process asks for its lock, or looks whether it can wake up; `none` if it sleeps (on). -/
def lockX (s : Node) (p : Nat) (key : InodeId) (wait : Bool) : Option (Node × Option Bool) :=
  match s.locks.waiterOf p with
  | some _ =>
    (s.locks.step (.wake p)).map fun locks =>
      ({ s with locks := locks }, if (locks.waiterOf p).isSome then none else some true)
  | none =>
    (s.locks.step (.get p key .x wait)).map fun locks =>
      ({ s with locks := locks },
        if (locks.waiterOf p).isSome then none else some (decide (⟨p, key, .x⟩ ∈ locks.held)))

/-- Somebody else than process `p` has a copy of the locker. -/
def shared (s : Node) (p : Nat) (q : Nat) : Bool :=
  (s.procs.eraseIdx p).any fun proc => proc.locker = some q

/-- A copy of a locker goes, and with the last one the lock. -/
def dropLocker (s : Node) (p : Nat) (locker : Option Nat) (key : InodeId) : Option Node :=
  match locker with
  | none => some s
  | some q =>
    if s.shared p q then some s
    else (s.locks.step (.release q key .x)).map fun locks => { s with locks := locks }

/-- A task goes to the pool. -/
def submit (s : Node) (persistToStorage : Bool) (p : Nat) (proc : Proc) (t : StoreTask) : Node :=
  { s with procs := s.procs ++
      [.begin persistToStorage (.task t p) (if t.captures then proc.locker else none)] }

/-- One operation of process `p`, and its result unless the process has to wait. -/
def act (persistToStorage : Bool) (s : Node) (p : Nat) (proc : Proc) (x : Outcome) :
    (o : StoreOp) → Option (Node × Option o.Res)
  | .find key needPin =>
    let (c, hit) := s.cache.find key needPin x.ok
    some ({ s with cache := c }, some hit)
  | .insertAndUpdate key size needPin =>
    some ({ s with cache := s.cache.insertAndUpdate key size needPin }, some ())
  | .unpin key => some ({ s with cache := s.cache.unpin key }, some ())
  | .deleteOldCacheWithNoPin key =>
    some ({ s with cache := s.cache.deleteOldCacheWithNoPin key (x.err.map (·.num)) }, some ())
  | .delete key =>
    let (c, ret) := s.cache.delete key (x.err.map (·.num))
    some ({ s with cache := c }, some ret)
  | .reserve size =>
    if s.cache.stop then some (s, some true)
    else if s.reservedCap + size < s.cache.freeCap then
      some ({ s with reservedCap := s.reservedCap + size }, some true)
    else some (s, some false)
  | .evict _ =>
    some ({ s with cache := s.cache.cleanupForEvict x.wantedCap x.wantedInode x.removes }, some ())
  | .freePreAllocSpace size =>
    some (if s.cache.stop then s else { s with reservedCap := s.reservedCap - size }, some ())
  | .lockX key wait => s.lockX p key wait
  | .dropLocker key => (s.dropLocker p proc.locker key).map fun s => (s, some ())
  | .openLocal _ => some (s, some x.err)
  | .openLoading _ => some (s, some x.err)
  | .close => some (s, some ())
  | .pread => some (s, some x.short)
  | .pwrite => some (s, some x.ok)
  | .remove => some (s, some ())
  | .readObject => some (s, some x.ok)
  | .deleteObject => some (s, some x.ok)
  | .submit t => some (s.submit persistToStorage p proc t, some ())

/-- The process goes on with the result. -/
def resume (s : Node) (p : Nat) (proc : Proc) (o : StoreOp) (r : o.Res)
    (k : o.Res → StoreProg Int) : Node :=
  { s with procs := s.procs.set p (proc.resume p o r k) }

def run (persistToStorage : Bool) (s : Node) (p : Nat) (x : Outcome) : Option Node :=
  match s.procs[p]? with
  | none => none
  | some proc =>
    match proc.prog with
    | .op o k =>
      match s.act persistToStorage p proc x o with
      | none => none
      | some (s', none) => some s'
      | some (s', some r) => some (s'.resume p proc o r k)
    | _ => none

def step (persistToStorage : Bool) (s : Node) : NodeEvent → Option Node
  | .begin job =>
    if job.isTask then none
    else some { s with procs := s.procs ++ [.begin persistToStorage job none] }
  | .run p x => s.run persistToStorage p x
  | .cleanup wantedCap wantedInode removes =>
    some { s with cache := s.cache.cleanup wantedCap wantedInode removes }
  | .update key size => some { s with cache := (s.cache.update key size).1 }
  | .add key size => some { s with cache := (s.cache.add key size).1 }

variable {persistToStorage : Bool} {s s' : Node} {p : Nat} {x : Outcome} {proc : Proc} {o : StoreOp}
  {r : Option o.Res}

open Option

/-- **What a step of a process can do.** -/
theorem run_cases (h : s.run persistToStorage p x = some s') :
    ∃ proc o k, s.procs[p]? = some proc ∧ proc.prog = .op o k ∧
      ∃ s₁ r, s.act persistToStorage p proc x o = some (s₁, r) ∧
        (r = none ∧ s' = s₁ ∨ ∃ v, r = some v ∧ s' = s₁.resume p proc o v k) := by
  simp only [run] at h
  split at h
  · cases h
  · rename_i proc hproc
    split at h
    · rename_i o k hprog
      refine ⟨proc, o, k, hproc, hprog, ?_⟩
      split at h
      · cases h
      · rename_i s₁ hact
        exact ⟨s₁, none, hact, Or.inl ⟨rfl, (some.inj h).symm⟩⟩
      · rename_i s₁ v hact
        exact ⟨s₁, some v, hact, Or.inr ⟨v, rfl, (some.inj h).symm⟩⟩
    · cases h

/-- What an operation does to the cache. -/
def cacheAfter (c : DiskCache) (x : Outcome) : StoreOp → DiskCache
  | .find key needPin => (c.find key needPin x.ok).1
  | .insertAndUpdate key size needPin => c.insertAndUpdate key size needPin
  | .unpin key => c.unpin key
  | .deleteOldCacheWithNoPin key => c.deleteOldCacheWithNoPin key (x.err.map (·.num))
  | .delete key => (c.delete key (x.err.map (·.num))).1
  | .evict _ => c.cleanupForEvict x.wantedCap x.wantedInode x.removes
  | _ => c

/-- The cache stays in order. -/
theorem after_cacheAfter {c : DiskCache} (h : c.Inv) (o : StoreOp) :
    c.After (cacheAfter c x o) := by
  cases o with
  | find key needPin => exact h.find key needPin x.ok
  | insertAndUpdate key size needPin => exact h.insertAndUpdate key size needPin
  | unpin key => exact h.unpin key
  | deleteOldCacheWithNoPin key => exact (h.deleteOldCacheWithNoPin key _).toAfter
  | delete key => exact (h.delete key _).toAfter
  | evict => exact (h.evict x.wantedCap x.wantedInode x.removes).1.toAfter
  | _ => exact h.tended.toAfter

/-- **What an operation changes**: the cache as above; the processes, if it is a `submit`; the
locks by a step of theirs. -/
theorem act_frame (h : s.act persistToStorage p proc x o = some (s', r)) :
    s'.cache = cacheAfter s.cache x o ∧
      (s'.procs = s.procs ∨
        ∃ t, o = .submit t ∧ s'.procs = (s.submit persistToStorage p proc t).procs) ∧
      (s'.locks = s.locks ∨ ∃ e, s.locks.step e = some s'.locks) := by
  cases o with
  | lockX key wait =>
    simp only [act, lockX] at h
    split at h
    all_goals
      obtain ⟨locks, hlocks, heq⟩ := map_eq_some_iff.mp h
      obtain ⟨rfl, -⟩ := Prod.mk.inj heq
      exact ⟨rfl, .inl rfl, .inr ⟨_, hlocks⟩⟩
  | dropLocker key =>
    obtain ⟨s₁, hdrop, heq⟩ := map_eq_some_iff.mp h
    obtain ⟨rfl, -⟩ := Prod.mk.inj heq
    simp only [dropLocker] at hdrop
    split at hdrop
    · cases hdrop
      exact ⟨rfl, .inl rfl, .inl rfl⟩
    · split at hdrop
      · cases hdrop
        exact ⟨rfl, .inl rfl, .inl rfl⟩
      · obtain ⟨locks, hlocks, rfl⟩ := map_eq_some_iff.mp hdrop
        exact ⟨rfl, .inl rfl, .inr ⟨_, hlocks⟩⟩
  | submit t =>
    obtain ⟨rfl, -⟩ := Prod.mk.inj (some.inj h)
    exact ⟨rfl, .inr ⟨t, rfl, rfl⟩, .inl rfl⟩
  | reserve size =>
    simp only [act] at h
    (repeat' split at h) <;> cases h <;> exact ⟨rfl, .inl rfl, .inl rfl⟩
  | freePreAllocSpace size =>
    obtain ⟨rfl, -⟩ := Prod.mk.inj (some.inj h)
    split <;> exact ⟨rfl, .inl rfl, .inl rfl⟩
  | _ =>
    obtain ⟨rfl, -⟩ := Prod.mk.inj (some.inj h)
    exact ⟨rfl, .inl rfl, .inl rfl⟩

/-- Only for a lock does a process wait. -/
theorem act_waits (h : s.act persistToStorage p proc x o = some (s', none)) :
    ∃ key wait, o = .lockX key wait := by
  cases o with
  | lockX key wait => exact ⟨key, wait, rfl⟩
  | dropLocker =>
    obtain ⟨s₁, -, heq⟩ := map_eq_some_iff.mp h
    cases (Prod.mk.inj heq).2
  | reserve =>
    simp only [act] at h
    (repeat' split at h) <;> cases (Prod.mk.inj (some.inj h)).2
  | _ => cases (Prod.mk.inj (some.inj h)).2

/-- The operations that leave the processes and the locks alone. -/
def Plain : StoreOp → Bool
  | .lockX _ _ => false
  | .dropLocker _ => false
  | .submit _ => false
  | _ => true

theorem act_plain (h : s.act persistToStorage p proc x o = some (s', r)) (ho : Plain o = true) :
    s'.procs = s.procs ∧ s'.locks = s.locks := by
  cases o with
  | lockX | dropLocker | submit => cases ho
  | reserve =>
    simp only [act] at h
    (repeat' split at h) <;> cases h <;> exact ⟨rfl, rfl⟩
  | freePreAllocSpace =>
    obtain ⟨rfl, -⟩ := Prod.mk.inj (some.inj h)
    split <;> exact ⟨rfl, rfl⟩
  | _ =>
    obtain ⟨rfl, -⟩ := Prod.mk.inj (some.inj h)
    exact ⟨rfl, rfl⟩

end Node

end FalconFS.Store
