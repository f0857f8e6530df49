/-
# Loading a cache file

A LOADER fills the cache file of an inode: a download, or the task that writes a small file which
was read already.  It is loading from the moment it has opened the file for writing until
`InsertAndUpdate` has made the file known to the cache, or it has given up.  All the while the
inode should be locked, so that nobody else loads it and nobody reads it (`TestLocked`).

The lock belongs to a locker, and the locker to whoever has a copy of it.  The task of
`WriteToFileAsync` has one.  That of a download in the background has none: the lambda captures
what its body uses, and that is not the locker.  So the lock goes when `DownLoadFromStorage`
returns, while the task goes on.

`HoldsOn` is the condition that this does not happen: a locker is not dropped while a task that
has no copy of it is loading.  Then there is one loader at a time, under the lock
(`loads_exclusive`).
-/
import FalconFS.Store.Courses

namespace FalconFS.Store

open Machine Phase

/-! ## 1. The processes of a node -/

def Proc.phase (proc : Proc) : Phase := Store.phase proc.job proc.hist

/-- The process whose locker protects the loading. -/
def Proc.owner (proc : Proc) (p : Nat) : Nat :=
  match proc.job with
  | .task _ parent => parent
  | _ => p

/-- The tasks that have no copy of the locker. -/
def Job.uncovered : Job → Bool
  | task t _ => !t.captures
  | _ => false

/-- What is loading has its locker, or never had one; and it has not left its file to somebody
else. -/
structure Coherent (job : Job) (f : Phase) : Prop where
  locked : f.loading = true → f.locked = true ∨ job.uncovered = true
  submitted : f.submitted = true → f.loading = false

variable {job : Job} {o : StoreOp} {proc : Proc} {p : Nat} {k : o.Res → StoreProg Int}

theorem Coherent.after {h : List StoreEntry} {r : o.Res} (hc : Coherent job (phase job h))
    (hok : LoadOk job h o) : Coherent job (phase job (⟨o, r⟩ :: h)) := by
  obtain ⟨hlocked, hsubmitted⟩ := hc
  constructor <;> simp only [phase] <;> cases o <;> simp only [after] <;> grind [LoadOk]

/-- A process, at place `p`, next to its history. -/
structure Proc.Ordered (proc : Proc) (p : Nat) : Prop where
  safe : Prog.Safe (LoadOk proc.job) (LoadEnd proc.job) proc.hist proc.prog
  coherent : Coherent proc.job proc.phase
  locker : proc.locker = if proc.phase.locked then some (proc.owner p) else none

theorem owner_of_not_task (h : proc.job.isTask = false) (p : Nat) : proc.owner p = p := by
  unfold Proc.owner
  split
  · rename_i heq
    rw [heq] at h
    cases h
  · rfl

theorem owner_of_task (h : proc.job.isTask = true) :
    ∃ t q, proc.job = .task t q ∧ ∀ p, proc.owner p = q := by
  cases hjob : proc.job with
  | task t q => exact ⟨t, q, rfl, fun p => by rw [Proc.owner, hjob]⟩
  | _ => simp [hjob, Job.isTask] at h

theorem Proc.next_safe (h : Prog.Safe (LoadOk proc.job) (LoadEnd proc.job) proc.hist proc.prog)
    (hprog : proc.prog = .op o k) : LoadOk proc.job proc.hist o ∧
      ∀ v, Prog.Safe (LoadOk proc.job) (LoadEnd proc.job) (⟨o, v⟩ :: proc.hist) (k v) := by
  rw [hprog] at h
  exact h

theorem Proc.Ordered.loadOk (h : proc.Ordered p) (hprog : proc.prog = .op o k) :
    LoadOk proc.job proc.hist o :=
  (Proc.next_safe h.safe hprog).1

theorem Proc.Ordered.resume (h : proc.Ordered p) (hprog : proc.prog = .op o k) (v : o.Res) :
    (proc.resume p o v k).Ordered p where
  safe := (Proc.next_safe h.safe hprog).2 v
  coherent := h.coherent.after (h.loadOk hprog)
  locker := by
    have hok := h.loadOk hprog
    have hl := h.locker
    change lockerAfter p proc.locker o v =
      if (Store.phase proc.job (⟨o, v⟩ :: proc.hist)).locked then some (proc.owner p) else none
    cases o with
    | lockX key wait =>
      have hnone : proc.locker = none := by
        rw [hl, if_neg]
        simp [Proc.phase, hok.2.1]
      match v with
      | true => exact congrArg some (owner_of_not_task hok.2.2 p).symm
      | false => exact hnone
    | dropLocker => rfl
    | _ => exact hl

theorem Proc.Ordered.begin (persistToStorage : Bool) (hjob : job.isTask = false) (p : Nat) :
    (Proc.begin persistToStorage job none).Ordered p where
  safe := job.load_safe persistToStorage
  coherent := by
    cases job with
    | task => cases hjob
    | _ => exact ⟨nofun, nofun⟩
  locker := by
    cases job with
    | task => cases hjob
    | _ => rfl

theorem Proc.Ordered.beginTask (persistToStorage : Bool) (t : StoreTask) (parent c : Nat) :
    (Proc.begin persistToStorage (.task t parent)
      (if t.captures then some parent else none)).Ordered c where
  safe := Job.load_safe persistToStorage (.task t parent)
  coherent := by
    match t with
    | .loadObs _ _ => exact ⟨fun _ => Or.inr rfl, nofun⟩
    | .writeFile _ _ => exact ⟨fun _ => Or.inl rfl, nofun⟩
  locker := by
    match t with
    | .loadObs _ _ => rfl
    | .writeFile _ _ => rfl

/-- A process submits one task at most. -/
structure Shape (procs : List Proc) : Prop where
  ordered : ∀ (p : Nat) (proc : Proc), procs[p]? = some proc → proc.Ordered p
  parent : ∀ (c : Nat) (proc : Proc) t q, procs[c]? = some proc → proc.job = .task t q →
    ∃ proc' : Proc, procs[q]? = some proc' ∧ proc'.phase.submitted = true ∧
      proc'.job.isTask = false
  unique : ∀ (c c' : Nat) (proc proc' : Proc) t t' q, procs[c]? = some proc →
    procs[c']? = some proc' → proc.job = .task t q → proc'.job = .task t' q → c = c'

section Lists

variable {procs : List Proc} {p j : Nat} {proc proc' a : Proc}

theorem getElem?_set_iff (hp : procs[p]? = some proc) :
    (procs.set p proc')[j]? = some a ↔ j = p ∧ a = proc' ∨ j ≠ p ∧ procs[j]? = some a := by
  rw [List.getElem?_set]
  grind

theorem getElem?_append_iff :
    (procs ++ [proc'])[j]? = some a ↔ procs[j]? = some a ∨ j = procs.length ∧ a = proc' := by
  rw [List.getElem?_append]
  grind

end Lists

theorem submitted_after {f : Phase} {o : StoreOp} {r : o.Res} (h : f.submitted = true) :
    (f.after o r).submitted = true := by
  unfold after
  split
  all_goals first | exact h | rfl

section Shapes

variable {procs : List Proc} {p : Nat} {proc proc' : Proc}

theorem Shape.set {o : StoreOp} {k : o.Res → StoreProg Int} (h : Shape procs)
    (hp : procs[p]? = some proc) (hprog : proc.prog = .op o k) (v : o.Res) :
    Shape (procs.set p (proc.resume p o v k)) := by
  have hord := (h.ordered p proc hp).resume hprog v
  have hjob : (proc.resume p o v k).job = proc.job := rfl
  have hsub : proc.phase.submitted = true → (proc.resume p o v k).phase.submitted = true :=
    submitted_after
  obtain ⟨h1, h2, h3⟩ := h
  constructor <;> simp only [getElem?_set_iff hp] <;> grind

theorem Shape.begin (h : Shape procs) (hnew : proc'.Ordered procs.length)
    (hjob : proc'.job.isTask = false) : Shape (procs ++ [proc']) := by
  have hne : ∀ t q, proc'.job ≠ .task t q := by
    intro t q heq
    rw [heq] at hjob
    cases hjob
  obtain ⟨h1, h2, h3⟩ := h
  constructor <;> simp only [getElem?_append_iff] <;> grind

/-- **A submit**: the process goes on and its task begins. -/
theorem Shape.submit {t : StoreTask} {k : Unit → StoreProg Int} (h : Shape procs)
    (hp : procs[p]? = some proc) (hprog : proc.prog = .op (.submit t) k)
    (hjob' : proc'.job = .task t p) (hnew : proc'.Ordered procs.length) :
    Shape ((procs ++ [proc']).set p (proc.resume p (.submit t) () k)) := by
  obtain ⟨-, hphase, htask⟩ := (h.ordered p proc hp).loadOk hprog
  have hchild : ∀ (c : Nat) (a : Proc) u, procs[c]? = some a → a.job ≠ .task u p := by
    -- a task of this process would have been submitted before
    intro c a u ha hjob
    obtain ⟨pp, hpp, hsub, -⟩ := h.parent c a u p ha hjob
    obtain rfl : proc = pp := Option.some.inj (hp.symm.trans hpp)
    rw [Proc.phase, hphase] at hsub
    cases hsub
  have hord := (h.ordered p proc hp).resume hprog ()
  have hjob : (proc.resume p (.submit t) () k).job = proc.job := rfl
  have hne : ∀ u q, proc.job ≠ .task u q := by
    intro u q heq
    rw [heq] at htask
    cases htask
  constructor <;>
    simp only [getElem?_set_iff (getElem?_append_iff.2 (.inl hp)), getElem?_append_iff]
  case parent =>
    rintro c a u q (⟨rfl, rfl⟩ | ⟨-, ha | ⟨rfl, rfl⟩⟩) hjob
    · exact absurd hjob (hne u q)
    · obtain ⟨pp, hpp, hsub, hpar⟩ := h.parent c a u q ha hjob
      exact ⟨pp, .inr ⟨fun heq => hchild c a u ha (heq ▸ hjob), .inl hpp⟩, hsub, hpar⟩
    · cases hjob'.symm.trans hjob
      exact ⟨_, .inl ⟨rfl, rfl⟩, rfl, htask⟩
  case ordered =>
    have hold := h.ordered
    grind
  case unique =>
    have hold := h.unique
    rintro c c' a a' u u' q (⟨rfl, rfl⟩ | ⟨-, ha | ⟨rfl, rfl⟩⟩) (⟨rfl, rfl⟩ | ⟨-, ha' | ⟨rfl, rfl⟩⟩)
    all_goals grind

end Shapes

/-! ## 2. The locks -/

/-- The locks next to the processes. -/
structure Guard (locks : LockSys Nat) (procs : List Proc) : Prop where
  inv : locks.Inv
  held : ∀ (p : Nat) (proc : Proc) q, procs[p]? = some proc → proc.locker = some q →
    ⟨q, proc.job.key, .x⟩ ∈ locks.held
  /-- Who sleeps is about to lock. -/
  waiting : ∀ w ∈ locks.waiters, w.mode = .x ∧ ∃ (proc : Proc) (wait : Bool)
    (k : Bool → StoreProg Int), procs[w.thread]? = some proc ∧
      proc.prog = .op (.lockX w.inodeId wait) k
  /-- Who is loading has the lock, or its parent has. -/
  cover : ∀ (p : Nat) (proc : Proc), procs[p]? = some proc → proc.phase.loading = true →
    ⟨proc.owner p, proc.job.key, .x⟩ ∈ locks.held

structure LoadInv (s : Node) : Prop where
  shape : Shape s.procs
  guard : Guard s.locks s.procs

/-- A task of process `p` is loading without a copy of its locker. -/
def Proc.LoadsFor (p : Nat) (proc : Proc) : Prop :=
  proc.job.uncovered = true ∧ proc.owner p = p ∧ proc.phase.loading = true

def HoldsOnNext (s : Node) (p : Nat) : StoreProg Int → Prop
  | .op (.dropLocker _) _ => ∀ proc ∈ s.procs, ¬ proc.LoadsFor p
  | _ => True

/-- **The condition under which loads are protected**: nobody lets go of a locker while a task of
his is loading that has no copy of it. -/
def HoldsOn (s : Node) : NodeEvent → Prop
  | .run p _ => ∀ proc ∈ s.procs[p]?, HoldsOnNext s p proc.prog
  | _ => True

instance (p : Nat) (proc : Proc) : Decidable (proc.LoadsFor p) :=
  inferInstanceAs (Decidable (_ ∧ _ ∧ _))

instance (s : Node) (p : Nat) : ∀ prog, Decidable (HoldsOnNext s p prog)
  | .op (.dropLocker _) _ => inferInstanceAs (Decidable (∀ proc ∈ s.procs, ¬ proc.LoadsFor p))
  | .op (.find _ _) _ | .op (.insertAndUpdate _ _ _) _ | .op (.unpin _) _
  | .op (.deleteOldCacheWithNoPin _) _ | .op (.delete _) _ | .op (.reserve _) _ | .op (.evict _) _
  | .op (.freePreAllocSpace _) _ | .op (.lockX _ _) _ | .op (.openLocal _) _
  | .op (.openLoading _) _ | .op .close _ | .op .pread _ | .op .pwrite _ | .op .remove _
  | .op .readObject _ | .op .deleteObject _ | .op (.submit _) _ | .ret _ | .fail _ => isTrue trivial

instance (s : Node) : ∀ e, Decidable (HoldsOn s e)
  | .run p _ => inferInstanceAs (Decidable (∀ proc ∈ s.procs[p]?, HoldsOnNext s p proc.prog))
  | .begin _ | .cleanup _ _ _ | .update _ _ | .add _ _ => isTrue trivial

open LockSys Node

section Guard

variable {persistToStorage : Bool} {s s' : Node} {p : Nat} {proc : Proc} {x : Outcome}
  {locks locks' : LockSys Nat} {procs : List Proc}

variable {o : StoreOp} {k : Bool → StoreProg Int} {key : InodeId} {wait : Bool} {j : Nat}
  {a proc' : Proc}

/-- Who is loading after such an operation has been loading before, or has just opened the file
under its lock. -/
theorem loading_before {job : Job} {h : List StoreEntry} {v : o.Res} (ho : Node.Plain o = true)
    (hok : LoadOk job h o) (hl : (phase job (⟨o, v⟩ :: h)).loading = true) :
    (phase job h).locked = true ∨ (phase job h).loading = true := by
  cases o with
  | lockX | dropLocker | submit => cases ho
  | openLoading key => exact .inl (by rw [hok.2])
  | insertAndUpdate | freePreAllocSpace => cases hl
  | _ => exact .inr hl

/-- Who does something else than lock does not sleep. -/
theorem Guard.awake {k : o.Res → StoreProg Int} (g : Guard locks procs) (hp : procs[p]? = some proc)
    (hprog : proc.prog = .op o k) (ho : ∀ key wait, o ≠ .lockX key wait) :
    ∀ w ∈ locks.waiters, w.thread ≠ p := by
  rintro w hw rfl
  obtain ⟨-, b, wait, k', hb, hbprog⟩ := g.waiting w hw
  cases hp.symm.trans hb
  cases hprog.symm.trans hbprog
  exact ho _ _ rfl

theorem Guard.plain {k : o.Res → StoreProg Int} (g : Guard locks procs) (hsh : Shape procs)
    (hp : procs[p]? = some proc) (hprog : proc.prog = .op o k) (ho : Node.Plain o = true)
    (v : o.Res) : Guard locks (procs.set p (proc.resume p o v k)) := by
  have hord := hsh.ordered p proc hp
  have hlocker : (proc.resume p o v k).locker = proc.locker := by
    change lockerAfter p proc.locker o v = proc.locker
    unfold lockerAfter
    split
    · cases ho
    · cases ho
    · rfl
  have hcover : (proc.resume p o v k).phase.loading = true →
      ⟨proc.owner p, proc.job.key, .x⟩ ∈ locks.held := by
    intro hload
    rcases loading_before ho (hord.loadOk hprog) hload with hlocked | hbefore
    · exact g.held _ proc _ hp (by rw [hord.locker, Proc.phase, hlocked, if_pos rfl])
    · exact g.cover _ proc hp hbefore
  have hawake := g.awake hp hprog (by rintro _ _ rfl; cases ho)
  refine ⟨g.inv, ?held, ?waiting, ?cover⟩ <;> simp only [getElem?_set_iff hp]
  case held =>
    have hheld := g.held
    rintro j a q (⟨rfl, rfl⟩ | ⟨-, ha⟩) hq
    · exact hheld j proc q hp (hlocker ▸ hq)
    · exact hheld j a q ha hq
  case waiting =>
    intro w hw
    obtain ⟨hx, b, wait, k', hb, hbprog⟩ := g.waiting w hw
    exact ⟨hx, b, wait, k', .inr ⟨hawake w hw, hb⟩, hbprog⟩
  case cover =>
    rintro j a (⟨rfl, rfl⟩ | ⟨-, ha⟩) hload
    · exact hcover hload
    · exact g.cover j a ha hload

/-- What a call of the lock changes. -/
theorem lockX_cases {r : Option Bool} (g : Guard s.locks s.procs) (hp : s.procs[p]? = some proc)
    (hprog : proc.prog = .op (.lockX key wait) k) (hlock : s.lockX p key wait = some (s', r)) :
    s'.procs = s.procs ∧ s'.locks.Inv ∧ (∀ h ∈ s.locks.held, h ∈ s'.locks.held) ∧
      (∀ w ∈ s'.locks.waiters, w ∈ s.locks.waiters ∨
        w.thread = p ∧ w.inodeId = key ∧ w.mode = .x) ∧
      (∀ v, r = some v → ∀ w ∈ s'.locks.waiters, w.thread ≠ p) ∧
      (r = some true → ⟨p, key, .x⟩ ∈ s'.locks.held) := by
  have hawake : ∀ l : LockSys Nat, ¬ (l.waiterOf p).isSome → ∀ w ∈ l.waiters, w.thread ≠ p := by
    intro l hnone w hw hthread
    apply hnone
    rw [waiterOf, List.find?_isSome]
    exact ⟨w, hw, by simpa using hthread⟩
  simp only [lockX] at hlock
  split at hlock
  · rename_i w hw
    obtain ⟨locks, hstep, heq⟩ := Option.map_eq_some_iff.mp hlock
    cases heq
    obtain ⟨hmem, hthread⟩ := waiterOf_eq_some hw
    -- the sleeper is the one that went to sleep in this operation
    have hkey : w.inodeId = key ∧ w.mode = .x := by
      obtain ⟨hx, b, wait', k', hb, hbprog⟩ := g.waiting w hmem
      rw [hthread, hp] at hb
      cases hb
      cases hprog.symm.trans hbprog
      exact ⟨rfl, hx⟩
    refine ⟨rfl, inv_step g.inv hstep, ?_⟩
    rcases step_wake hw hstep with ⟨hheld, hwait⟩ | ⟨hheld, hwait⟩
    · have hasleep : (locks.waiterOf p).isSome := by
        rw [waiterOf, hwait, ← waiterOf, hw]
        rfl
      grind
    · grind [List.mem_of_mem_erase]
  · obtain ⟨locks, hstep, heq⟩ := Option.map_eq_some_iff.mp hlock
    cases heq
    refine ⟨rfl, inv_step g.inv hstep, ?_⟩
    have := step_get hstep
    grind

/-- A call that sleeps. -/
theorem Guard.asleep (g : Guard s.locks s.procs) (hp : s.procs[p]? = some proc)
    (hprog : proc.prog = .op (.lockX key wait) k) (hlock : s.lockX p key wait = some (s', none)) :
    Guard s'.locks s'.procs := by
  obtain ⟨hprocs, hinv, hheld, hwait, -, -⟩ := lockX_cases g hp hprog hlock
  rw [hprocs]
  refine ⟨hinv, ?_, ?_, ?_⟩
  · intro j a q ha hq
    exact hheld _ (g.held j a q ha hq)
  · intro w hw
    rcases hwait w hw with hold | ⟨hthread, rfl, hx⟩
    · exact g.waiting w hold
    · exact ⟨hx, proc, wait, k, hthread ▸ hp, hprog⟩
  · intro j a ha hload
    exact hheld _ (g.cover j a ha hload)

/-- A call that returns. -/
theorem Guard.locked {v : Bool} (g : Guard s.locks s.procs) (hsh : Shape s.procs)
    (hp : s.procs[p]? = some proc) (hprog : proc.prog = .op (.lockX key wait) k)
    (hlock : s.lockX p key wait = some (s', some v)) :
    Guard s'.locks (s.procs.set p (proc.resume p (.lockX key wait) v k)) := by
  obtain ⟨-, hinv, hheld, hwait, hgone, htrue⟩ := lockX_cases g hp hprog hlock
  obtain ⟨hkey, hphase, -⟩ := (hsh.ordered p proc hp).loadOk hprog
  refine ⟨hinv, ?held, ?waiting, ?cover⟩ <;> simp only [getElem?_set_iff hp]
  case held =>
    rintro j a q (⟨rfl, rfl⟩ | ⟨-, ha⟩) hq
    · cases v with
      | true =>
        cases hq
        exact hkey ▸ htrue rfl
      | false => exact hheld _ (g.held _ proc q hp hq)
    · exact hheld _ (g.held j a q ha hq)
  case waiting =>
    intro w hw
    have hne := hgone v rfl w hw
    obtain ⟨hx, b, wait', k', hb, hbprog⟩ :=
      g.waiting w ((hwait w hw).resolve_right fun hnew => hne hnew.1)
    exact ⟨hx, b, wait', k', .inr ⟨hne, hb⟩, hbprog⟩
  case cover =>
    rintro j a (⟨rfl, rfl⟩ | ⟨-, ha⟩) hload
    · -- it has not begun to load
      change ((Store.phase proc.job proc.hist).after (.lockX key wait) v).loading = true at hload
      rw [hphase] at hload
      cases hload
    · exact hheld _ (g.cover j a ha hload)

theorem not_shared {q : Nat} (h : ¬ s.shared p q = true) (hj : j ≠ p) (ha : s.procs[j]? = some a) :
    a.locker ≠ some q := by
  intro hq
  apply h
  rw [shared, List.any_eq_true]
  exact ⟨a, List.mem_eraseIdx_iff_getElem?.mpr ⟨j, hj, ha⟩, by simpa using hq⟩

/-- Nobody else is loading under the locker that goes. -/
theorem cover_ne {k : Unit → StoreProg Int} (hsh : Shape s.procs) (hp : s.procs[p]? = some proc)
    (hprog : proc.prog = .op (.dropLocker key) k) (hc : HoldsOnNext s p proc.prog)
    (hshared : ¬ s.shared p (proc.owner p) = true) (hj : j ≠ p) (ha : s.procs[j]? = some a)
    (hload : a.phase.loading = true) : a.owner j ≠ proc.owner p := by
  intro howner
  have hord := hsh.ordered j a ha
  rcases hord.coherent.locked hload with hlocked | huncov
  · have hsome := hord.locker
    rw [hlocked, if_pos rfl, howner] at hsome
    exact not_shared hshared hj ha hsome
  · have hta : a.job.isTask = true := by
      cases hjob : a.job <;> simp_all [Job.uncovered, Job.isTask]
    obtain ⟨t, parent, hjob, hown⟩ := owner_of_task hta
    obtain rfl : parent = proc.owner p := (hown j).symm.trans howner
    cases htp : proc.job.isTask with
    | true =>
      -- two tasks of one parent are the same
      obtain ⟨t', parent', hjob', hown'⟩ := owner_of_task htp
      exact hj (hsh.unique j p a proc t t' _ ha hp hjob (by rw [hjob', hown' p]))
    | false =>
      rw [hprog] at hc
      have hself : proc.owner p = p := owner_of_not_task htp p
      exact hc a (List.mem_of_getElem? ha) ⟨huncov, (hown p).trans hself, hload⟩

/-- A copy of a locker goes. -/
theorem Guard.drop {k : Unit → StoreProg Int} (g : Guard s.locks s.procs) (hsh : Shape s.procs)
    (hp : s.procs[p]? = some proc) (hprog : proc.prog = .op (.dropLocker key) k)
    (hc : HoldsOnNext s p proc.prog) (hdrop : s.dropLocker p proc.locker key = some s') :
    Guard s'.locks (s.procs.set p (proc.resume p (.dropLocker key) () k)) := by
  have hord := hsh.ordered p proc hp
  obtain ⟨hkey, hlocked, hidle⟩ := hord.loadOk hprog
  have hlocker : proc.locker = some (proc.owner p) := by
    rw [hord.locker, Proc.phase, hlocked, if_pos rfl]
  have hidle' : (proc.resume p (.dropLocker key) () k).phase.loading = false := hidle
  rw [hlocker] at hdrop
  simp only [dropLocker] at hdrop
  -- the lock stays for those who have another copy, and for the lockers of the others
  have hlocks : s'.locks.Inv ∧ s'.locks.waiters = s.locks.waiters ∧
      ∀ h ∈ s.locks.held, s.shared p (proc.owner p) = true ∨ h.thread ≠ proc.owner p →
        h ∈ s'.locks.held := by
    split at hdrop
    · cases hdrop
      exact ⟨g.inv, rfl, fun h hh _ => hh⟩
    · rename_i hshared
      obtain ⟨locks, hstep, rfl⟩ := Option.map_eq_some_iff.mp hdrop
      obtain ⟨hheld, hwait⟩ := step_release hstep
      refine ⟨inv_step g.inv hstep, hwait, fun h hh hor => ?_⟩
      rw [hheld]
      refine (List.mem_erase_of_ne ?_).mpr hh
      rintro rfl
      exact hor.elim hshared fun hne => hne rfl
  obtain ⟨hinv, hwait, hkeep⟩ := hlocks
  refine ⟨hinv, ?held, ?waiting, ?cover⟩ <;> simp only [getElem?_set_iff hp]
  case held =>
    rintro j a q (⟨rfl, rfl⟩ | ⟨hj, ha⟩) hq
    · cases hq
    · refine hkeep _ (g.held j a q ha hq) (or_iff_not_imp_left.2 fun hshared => ?_)
      rintro rfl
      exact not_shared hshared hj ha hq
  case waiting =>
    intro w hw
    rw [hwait] at hw
    obtain ⟨hx, b, wait, k', hb, hbprog⟩ := g.waiting w hw
    exact ⟨hx, b, wait, k', .inr ⟨g.awake hp hprog (by simp) w hw, hb⟩, hbprog⟩
  case cover =>
    rintro j a (⟨rfl, rfl⟩ | ⟨hj, ha⟩) hload
    · rw [hidle'] at hload
      cases hload
    · refine hkeep _ (g.cover j a ha hload) (or_iff_not_imp_left.2 fun hshared => ?_)
      exact cover_ne hsh hp hprog hc hshared hj ha hload

/-- A process leaves its file to a task. -/
theorem Guard.submit {k : Unit → StoreProg Int} {t : StoreTask} (g : Guard locks procs)
    (hsh : Shape procs) (hp : procs[p]? = some proc) (hprog : proc.prog = .op (.submit t) k)
    (hjob' : proc'.job = .task t p) (hlocker' : ∀ q, proc'.locker = some q → proc.locker = some q) :
    Guard locks ((procs ++ [proc']).set p (proc.resume p (.submit t) () k)) := by
  have hord := hsh.ordered p proc hp
  obtain ⟨hkey, hphase, htask⟩ := hord.loadOk hprog
  have hlocker : proc.locker = some p := by
    rw [hord.locker, Proc.phase, hphase, if_pos rfl, owner_of_not_task htask]
  have hhold : ⟨p, proc.job.key, .x⟩ ∈ locks.held := g.held p proc p hp hlocker
  have hkey' : proc'.job.key = proc.job.key := by
    rw [hjob']
    exact hkey.1
  refine ⟨g.inv, ?held, ?waiting, ?cover⟩ <;>
    simp only [getElem?_set_iff (getElem?_append_iff.2 (.inl hp)), getElem?_append_iff]
  case held =>
    rintro j a q (⟨rfl, rfl⟩ | ⟨-, ha | ⟨rfl, rfl⟩⟩) hq
    · exact g.held _ proc q hp hq
    · exact g.held j a q ha hq
    · cases hlocker.symm.trans (hlocker' q hq)
      exact hkey' ▸ hhold
  case waiting =>
    intro w hw
    obtain ⟨hx, b, wait, k', hb, hbprog⟩ := g.waiting w hw
    exact ⟨hx, b, wait, k', .inr ⟨g.awake hp hprog (by simp) w hw, .inl hb⟩, hbprog⟩
  case cover =>
    rintro j a (⟨rfl, rfl⟩ | ⟨-, ha | ⟨rfl, rfl⟩⟩) hload
    · cases hload
    · exact g.cover j a ha hload
    · rw [hkey', Proc.owner, hjob']
      exact hhold

theorem Guard.begin (g : Guard locks procs) (hlocker : proc'.locker = none)
    (hidle : proc'.phase.loading = false) : Guard locks (procs ++ [proc']) := by
  obtain ⟨hinv, h2, h3, h4⟩ := g
  refine ⟨hinv, ?_, ?_, ?_⟩ <;> simp only [getElem?_append_iff] <;> grind

end Guard

/-! ## 3. Steps -/

section Step

variable {persistToStorage : Bool} {s s' : Node} {p : Nat} {x : Outcome}

/-- **A step of a process.** -/
theorem LoadInv.run (hi : LoadInv s) (hc : HoldsOn s (.run p x))
    (hrun : s.run persistToStorage p x = some s') : LoadInv s' := by
  obtain ⟨proc, o, k, hp, hprog, s₁, r, hact, hr⟩ := run_cases hrun
  have hnext : HoldsOnNext s p proc.prog := hc proc hp
  obtain ⟨-, hprocs, -⟩ := act_frame hact
  rcases hr with ⟨rfl, rfl⟩ | ⟨v, rfl, rfl⟩
  · obtain ⟨key, wait, rfl⟩ := act_waits hact
    have hlock : s.lockX p key wait = some (s', none) := hact
    have hsame := (lockX_cases hi.guard hp hprog hlock).1
    exact ⟨hsame ▸ hi.shape, hi.guard.asleep hp hprog hlock⟩
  · cases o with
    | lockX key wait =>
      have hlock : s.lockX p key wait = some (s₁, some v) := hact
      have hsame := (lockX_cases hi.guard hp hprog hlock).1
      constructor <;> simp only [resume, hsame]
      · exact hi.shape.set hp hprog v
      · exact hi.guard.locked hi.shape hp hprog hlock
    | dropLocker key =>
      obtain ⟨s₂, hdrop, ⟨⟩⟩ := Option.map_eq_some_iff.mp hact
      have hsame : s₁.procs = s.procs := hprocs.resolve_right (by rintro ⟨t, ⟨⟩, -⟩)
      constructor <;> simp only [resume, hsame]
      · exact hi.shape.set hp hprog v
      · exact hi.guard.drop hi.shape hp hprog hnext hdrop
    | submit t =>
      cases hact
      obtain ⟨-, hphase, htask⟩ := (hi.shape.ordered p proc hp).loadOk hprog
      have hlocker : proc.locker = some p := by
        rw [(hi.shape.ordered p proc hp).locker, Proc.phase, hphase, if_pos rfl,
          owner_of_not_task htask]
      refine ⟨?_, ?_⟩
      · refine hi.shape.submit hp hprog rfl ?_
        rw [hlocker]
        exact Proc.Ordered.beginTask persistToStorage t p _
      · refine hi.guard.submit hi.shape hp hprog rfl fun q hq => ?_
        change (if t.captures then proc.locker else none) = some q at hq
        split at hq
        · exact hq
        · cases hq
    | _ =>
      obtain ⟨hsame, hlocks⟩ := act_plain hact rfl
      constructor <;> simp only [resume, hsame, hlocks]
      · exact hi.shape.set hp hprog v
      · exact hi.guard.plain hi.shape hp hprog rfl v

theorem LoadInv.step (hi : LoadInv s) {e : NodeEvent} (hc : HoldsOn s e)
    (hs : s.step persistToStorage e = some s') : LoadInv s' := by
  match e, hc, hs with
  | .run p x, hc, hs => exact hi.run hc hs
  | .begin job, _, hs =>
    simp only [Node.step] at hs
    split at hs
    · cases hs
    · rename_i hjob
      have hjob : job.isTask = false := by simpa using hjob
      have hnew := Proc.Ordered.begin persistToStorage hjob s.procs.length
      cases hs
      refine ⟨hi.shape.begin hnew hjob, hi.guard.begin rfl ?_⟩
      cases job with
      | task => cases hjob
      | _ => rfl
  | .cleanup _ _ _, _, hs | .update _ _, _, hs | .add _ _, _, hs =>
    cases hs
    exact ⟨hi.shape, hi.guard⟩

end Step

/-! ## 4. Loads are exclusive -/

/-- The process is filling the cache file of the inode. -/
def Proc.Loads (key : InodeId) (proc : Proc) : Prop :=
  proc.job.key = key ∧ proc.phase.loading = true

structure LoadsExclusive (s : Node) : Prop where
  /-- There is one loader of an inode at most. -/
  one : ∀ (key : InodeId) (i j : Nat) (a b : Proc), s.procs[i]? = some a → s.procs[j]? = some b →
    a.Loads key → b.Loads key → i = j
  /-- It works under the lock. -/
  locked : ∀ (key : InodeId) (i : Nat) (a : Proc), s.procs[i]? = some a → a.Loads key →
    ⟨a.owner i, key, .x⟩ ∈ s.locks.held
  /-- Who sees that the inode is not locked does not see a file that is being loaded. -/
  free : ∀ key, s.locks.lock.testLocked key .x = false → ∀ a ∈ s.procs, ¬ a.Loads key

/-- Two loaders under one locker are the same. -/
theorem Shape.loader_unique {procs : List Proc} (h : Shape procs) {i j : Nat} {a b : Proc}
    (ha : procs[i]? = some a) (hb : procs[j]? = some b) (hla : a.phase.loading = true)
    (hlb : b.phase.loading = true) (howner : a.owner i = b.owner j) : i = j := by
  -- a parent that has submitted its task is not loading itself
  have hparent : ∀ {c q : Nat} {a b : Proc} {t : StoreTask}, procs[c]? = some a →
      procs[q]? = some b → a.job = .task t q → b.phase.loading = true → False := by
    intro c q a b t ha hb hjob hl
    obtain ⟨b', hb', hsub, -⟩ := h.parent c a t q ha hjob
    obtain rfl : b = b' := Option.some.inj (hb.symm.trans hb')
    rw [(h.ordered q b hb).coherent.submitted hsub] at hl
    cases hl
  have hunique := h.unique
  cases hta : a.job.isTask <;> cases htb : b.job.isTask <;>
    grind [owner_of_task, owner_of_not_task]

theorem LoadInv.loadsExclusive {s : Node} (hi : LoadInv s) : LoadsExclusive s := by
  have hexact := hi.guard.inv.exact
  have hlocked : ∀ (key : InodeId) (i : Nat) (a : Proc), s.procs[i]? = some a → a.Loads key →
      ⟨a.owner i, key, .x⟩ ∈ s.locks.held := by
    rintro _ i a ha ⟨rfl, hl⟩
    exact hi.guard.cover i a ha hl
  refine ⟨?_, hlocked, ?_⟩
  · intro key i j a b ha hb hla hlb
    refine hi.shape.loader_unique ha hb hla.2 hlb.2 ?_
    -- both locks are on the list of locks of the inode, which has one element
    have hone := hexact.exclusive _ (hlocked key i a ha hla) rfl
    have hmem : (⟨b.owner j, key, .x⟩ : Hold Nat) ∈
        s.locks.held.filter fun h' => h'.inodeId = key :=
      List.mem_filter.mpr ⟨hlocked key j b hb hlb, by simp⟩
    rw [hone, List.mem_singleton] at hmem
    exact (congrArg Hold.thread hmem).symm
  · intro key hfree a ha hl
    obtain ⟨i, hi'⟩ := List.mem_iff_getElem?.mp ha
    have hentry := (hexact.entry key).mpr (Or.inl ⟨_, hlocked key i a hi' hl, rfl⟩)
    obtain ⟨e, he⟩ := Option.isSome_iff_exists.mp hentry
    simp [FileLock.testLocked, he] at hfree

theorem loadInv_start (c : DiskCache) (reservedCap : BitVec 64) :
    LoadInv (Node.start c reservedCap) := by
  have hnone : ∀ (p : Nat) (proc : Proc), ([] : List Proc)[p]? ≠ some proc := by simp
  constructor
  · exact ⟨fun p proc h => absurd h (hnone p proc), fun c proc _ _ h => absurd h (hnone c proc),
      fun c _ proc _ _ _ _ h => absurd h (hnone c proc)⟩
  · exact ⟨inv_init, fun p proc _ h => absurd h (hnone p proc),
      fun w hw => absurd hw List.not_mem_nil, fun p proc h => absurd h (hnone p proc)⟩

/-- **A cache file is loaded by one at a time, under the lock of its inode**, in every state that
a node comes to without letting go of a locker too early. -/
theorem loads_exclusive {persistToStorage : Bool} {c : DiskCache} {reservedCap : BitVec 64}
    {s : Node} (hrun : Run (Node.step persistToStorage) HoldsOn (Node.start c reservedCap) s) :
    LoadsExclusive s :=
  (hrun.invariant (loadInv_start c reservedCap) fun _ _ _ hi hc hs => hi.step hc hs).loadsExclusive


instance (key : InodeId) (proc : Proc) : Decidable (proc.Loads key) :=
  inferInstanceAs (Decidable (_ ∧ _))

/-- A small file that was read from the storage is written to the cache by a task, under the lock; a
second reader comes too late for the cache and is refused the lock. -/
theorem loads_exclusive_written :
    ∃ s, Run (Node.step true) HoldsOn (Node.start (.start false 1000) 0) s ∧
      s.locks.held = [⟨0, 5, .x⟩] ∧ (∃ a, s.procs[1]? = some a ∧ a.Loads 5) ∧
      LoadsExclusive s := by
  have hrun : ∃ s, exec (fun s e => if HoldsOn s e then step true s e else none)
      (start (.start false 1000) 0)
      (.begin (.readSmallFiles ⟨5, 0, 10, 10, false, false⟩) ::
        List.replicate 8 (.run 0 quiet) ++
        .begin (.readSmallFiles ⟨5, 0, 10, 10, false, false⟩) ::
        List.replicate 3 (.run 2 quiet)) = some s ∧
      s.locks.held = [⟨0, 5, .x⟩] ∧ ∃ a, s.procs[1]? = some a ∧ a.Loads 5 :=
    ⟨_, rfl, by decide, _, rfl, by decide⟩
  obtain ⟨s, hexec, hheld, hload⟩ := hrun
  have hmeet := Run.of_exec_if _ hexec
  exact ⟨s, hmeet, hheld, hload, loads_exclusive hmeet⟩

/-- Two that open the same file for reading: the first leaves the download to a task and returns,
which releases the lock.  The second gets the lock and opens the same cache file, while the task
is still writing to it. -/
theorem loaded_twice : ∃ s, Reach (Node.step true) (Node.start (.start false 1000) 0) s ∧
      (∃ a, s.procs[1]? = some a ∧ a.Loads 5) ∧ (∃ b, s.procs[2]? = some b ∧ b.Loads 5) ∧
      ¬ LoadsExclusive s := by
  have hrun : ∃ s, exec (step true) (start (.start false 1000) 0)
      (.begin (.file ⟨5, 0, 10, 10, false, false⟩ [] 10) :: List.replicate 7 (.run 0 quiet) ++
        .begin (.file ⟨5, 0, 10, 10, false, false⟩ [] 10) :: List.replicate 5 (.run 2 quiet)) =
        some s ∧
      (∃ a, s.procs[1]? = some a ∧ a.Loads 5) ∧ ∃ b, s.procs[2]? = some b ∧ b.Loads 5 :=
    ⟨_, rfl, ⟨_, rfl, by decide⟩, _, rfl, by decide⟩
  obtain ⟨s, hexec, ⟨a, ha, hla⟩, b, hb, hlb⟩ := hrun
  refine ⟨s, .of_exec _ hexec, ⟨a, ha, hla⟩, ⟨b, hb, hlb⟩, fun h => ?_⟩
  cases h.one 5 1 2 a b ha hb hla hlb

end FalconFS.Store
