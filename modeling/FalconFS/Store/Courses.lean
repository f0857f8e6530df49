/-
# The courses of the requests

What a request has done so far says where it stands: whether it has its locker, whether it is
loading, the space it has reserved, the pins it has taken.  Whatever the results of its operations
are, it locks, reserves, opens, loads, submits and lets go in one order (`LoadOk`), and it takes its
pins one at a time and gives them back (`PinOk`), unless it has met what it should not meet
(`trouble`).

Both are shown in one walk through the programs (`Job.course`).  A `Course` is what the walk keeps
in mind; an operation changes it by `Course.after`.
-/
import FalconFS.Store.Node

namespace FalconFS.Store

/-! ## 1. Where a process is -/

structure Phase where
  /-- It has its locker. -/
  locked : Bool
  /-- It is between opening the file and the end of `InsertAndUpdate`. -/
  loading : Bool
  /-- It has left the file to a task. -/
  submitted : Bool
  deriving DecidableEq

def Phase.after (f : Phase) : (o : StoreOp) → o.Res → Phase
  | .lockX _ _, (r : Bool) => { f with locked := r }
  | .dropLocker _, _ => { f with locked := false }
  | .openLoading _, (r : Option Errno) => { f with loading := r.isNone }
  | .insertAndUpdate _ _ _, _ => { f with loading := false }
  | .freePreAllocSpace _, _ => { f with loading := false }
  | .submit _, _ => { f with loading := false, submitted := true }
  | _, _ => f

/-- A task may start with a copy of a locker. -/
def Job.startsLocked : Job → Bool
  | task t _ => t.captures
  | _ => false

def phase (job : Job) : List StoreEntry → Phase
  | [] => ⟨job.startsLocked, false, false⟩
  | ⟨o, r⟩ :: h => (phase job h).after o r

/-- No locker, no file. -/
def Phase.Idle (f : Phase) : Prop := f.locked = false ∧ f.loading = false

/-- What a process has in hand. -/
structure Hand where
  /-- The space that it has reserved. -/
  reserved : BitVec 64
  /-- It has opened the file of its inode, and has not removed it or left it to a task. -/
  opened : Bool

def Hand.after (a : Hand) : (o : StoreOp) → o.Res → Hand
  | .reserve size, (r : Bool) => { a with reserved := if r then size else a.reserved }
  | .freePreAllocSpace _, _ => { a with reserved := 0 }
  | .submit _, _ => ⟨0, false⟩
  | .openLocal _, (r : Option Errno) => { a with opened := a.opened || r.isNone }
  | .openLoading _, (r : Option Errno) => { a with opened := a.opened || r.isNone }
  | .remove, _ => { a with opened := false }
  | _, _ => a

/-- A task starts with the space that its parent has reserved. -/
def Job.startsReserved : Job → BitVec 64
  | task t _ => t.size
  | _ => 0

def hand (job : Job) : List StoreEntry → Hand
  | [] => ⟨job.startsReserved, false⟩
  | ⟨o, r⟩ :: h => (hand job h).after o r

variable (job : Job) (h : List StoreEntry)

/-- The order in which a process locks, reserves, opens, loads, submits and lets go. -/
def LoadOk : StoreOp → Prop
  | .lockX key _ => key = job.key ∧ phase job h = ⟨false, false, false⟩ ∧ job.isTask = false
  | .reserve _ => (hand job h).reserved = 0
  | .openLocal key => key = job.key
  | .openLoading key => key = job.key ∧ phase job h = ⟨true, false, false⟩
  | .insertAndUpdate key _ _ => key = job.key ∧ (hand job h).opened = true
  | .freePreAllocSpace size => (hand job h).reserved = size
  | .submit t => (t.key = job.key ∧ hand job h = ⟨t.size, true⟩) ∧
      phase job h = ⟨true, true, false⟩ ∧ job.isTask = false
  | .dropLocker key => key = job.key ∧ (phase job h).locked = true ∧ (phase job h).loading = false
  | _ => True

/-- Nothing is left to give back. -/
def Settled : Prop :=
  (phase job h).Idle ∧ (hand job h).reserved = 0

def LoadEnd {α : Type} (job : Job) (h : List StoreEntry) (_ : α) : Prop := Settled job h

/-! ## 2. The pins of a process -/

/-- Pins taken and not yet given back, after one more operation. -/
def pinsAfter (n : Nat) : (o : StoreOp) → o.Res → Nat
  | .find _ needPin, (r : Bool) => if needPin && r then n + 1 else n
  | .insertAndUpdate _ _ needPin, _ => if needPin then n + 1 else n
  | .unpin _, _ => n - 1
  | _, _ => n

/-- Pins taken and not yet given back. -/
def pins : List StoreEntry → Nat
  | [] => 0
  | ⟨o, r⟩ :: h => pinsAfter (pins h) o r

/-- The process has asked for the lock of a download. -/
def downloads (h : List StoreEntry) : Bool :=
  h.any fun e =>
    match e.1 with
    | .lockX _ _ => true
    | _ => false

/-- The jobs that give back a pin, taken in a download or outside of it. -/
def Job.givesBack : Job → (download : Bool) → Bool
  | readSmallFiles _, download => !download
  | readSmallFilesForBrpc _ _ _ _, download => !download
  | readSwitched _, _ => false
  | _, _ => true

/-- What a process should not meet: a pin that it does not give back, and a lock for which it
waits but that it does not get. -/
def trouble : (o : StoreOp) → o.Res → Bool
  | .find _ needPin, (r : Bool) => needPin && r && !job.givesBack (downloads h)
  | .insertAndUpdate _ _ needPin, _ => needPin && !job.givesBack (downloads h)
  | .openLocal _, (r : Option Errno) => downloads h && r.isSome
  | .lockX _ wait, (r : Bool) => wait && !r
  | _, _ => false

def troubled (job : Job) : List StoreEntry → Bool
  | [] => false
  | ⟨o, r⟩ :: h => troubled job h || trouble job h o r

/-- Pins are taken one at a time and given back once, of the item of the job. -/
def PinOk : StoreOp → Prop
  | .find key true => troubled job h = true ∨ key = job.key ∧ pins h = 0
  | .insertAndUpdate key _ true => troubled job h = true ∨ key = job.key ∧ pins h = 0
  | .unpin key => troubled job h = true ∨ key = job.key ∧ pins h = 1
  | _ => True

/-- In the end all pins are given back. -/
def PinEnd (_ : Int) : Prop :=
  troubled job h = true ∨ pins h = 0

/-! ## 3. One operation -/

/-- Where a process stands, as long as there is no trouble. -/
structure Course where
  phase : Phase
  reserved : BitVec 64
  pins : Nat

def Course.after (c : Course) (o : StoreOp) (r : o.Res) : Course :=
  ⟨c.phase.after o r, ((⟨c.reserved, false⟩ : Hand).after o r).reserved, pinsAfter c.pins o r⟩

/-- The pins are `n`, unless there was trouble. -/
def PinsAre (n : Nat) : Prop := troubled job h = true ∨ pins h = n

structure At (job : Job) (h : List StoreEntry) (c : Course) : Prop where
  phase : phase job h = c.phase
  reserved : (hand job h).reserved = c.reserved
  pins : PinsAre job h c.pins

def StepOk (o : StoreOp) : Prop := LoadOk job h o ∧ PinOk job h o

/-- Nothing is left to give back. -/
def Ended : Prop := ∃ s, At job h ⟨⟨false, false, s⟩, 0, 0⟩

/-- The pin of a download for which the process waits. -/
def kept (isSync : Bool) (ret : Int) : Nat := if isSync ∧ ret = 0 then 1 else 0

/-- How a load ends. -/
def LoadedEnd (job : Job) (locked isSync : Bool) (h : List StoreEntry) (ret : Int) : Prop :=
  (∃ s, At job h ⟨⟨locked, false, s⟩, 0, kept isSync ret⟩) ∧
    (kept isSync ret = 1 → troubled job h = true ∨ job.givesBack true = true)

/-- How `OpenFile` ends: the file is pinned if and only if it is open. -/
def OpenedEnd (r : Int × Bool) : Prop :=
  (∃ s, At job h ⟨⟨false, false, s⟩, 0, if r.2 then 1 else 0⟩) ∧
    (r.2 = true → (hand job h).opened = true ∧
      (troubled job h = true ∨ ∃ download, job.givesBack download = true))

/-- The operations to come are in their places, and what the program returns meets `Q`. -/
abbrev Keeps {α : Type} (job : Job) (Q : List StoreEntry → α → Prop) (h : List StoreEntry)
    (p : StoreProg α) : Prop :=
  Prog.Safe (StepOk job) Q h p

/-- Whatever it returns, nothing is left to give back. -/
abbrev Ends {α : Type} (job : Job) (h : List StoreEntry) (p : StoreProg α) : Prop :=
  Keeps job (fun h' _ => Ended job h') h p

section Programs

variable {job : Job} {h h' : List StoreEntry} {α : Type} {key : InodeId} {size : BitVec 64}
  {o : StoreOp} {r : o.Res} {c : Course} {locked isSync s : Bool} {ret : Int}

theorem troubled_cons {e : StoreEntry} (ht : troubled job h = true) :
    troubled job (e :: h) = true := by
  rw [troubled, ht, Bool.true_or]

theorem At.step (hs : At job h c) : At job (⟨o, r⟩ :: h) (c.after o r) := by
  obtain ⟨hf, ha, hn⟩ := hs
  refine ⟨congrArg (·.after o r) hf, ?_, ?_⟩
  swap
  · exact hn.imp troubled_cons fun hn => congrArg (pinsAfter · o r) hn
  rw [Course.after, ← ha]
  cases o <;> rfl

theorem At.miss {needPin : Bool} (hs : At job h c) :
    At job (⟨.find key needPin, false⟩ :: h) c := by
  cases needPin <;> exact hs.step

theorem PinsAre.find (hn : PinsAre job h 0) (hkey : key = job.key) (needPin : Bool) :
    PinOk job h (.find key needPin) := by
  cases needPin
  · trivial
  · exact hn.imp_right fun hp => ⟨hkey, hp⟩

theorem PinsAre.insert (hn : PinsAre job h 0) (hkey : key = job.key) (needPin : Bool) :
    PinOk job h (.insertAndUpdate key size needPin) := by
  cases needPin
  · trivial
  · exact hn.imp_right fun hp => ⟨hkey, hp⟩

theorem PinsAre.unpin (hn : PinsAre job h 1) (hkey : key = job.key) : PinOk job h (.unpin key) :=
  hn.imp_right fun hp => ⟨hkey, hp⟩

/-- A pin is given back, or taken with trouble. -/
theorem gives_of_pin {download : Bool} (hdown : downloads h = download)
    (ht : trouble job h o r = !job.givesBack (downloads h)) :
    troubled job (⟨o, r⟩ :: h) = true ∨ job.givesBack download = true := by
  subst hdown
  cases hg : job.givesBack (downloads h) with
  | true => exact .inr rfl
  | false => exact .inl (by simp [troubled, ht, hg])

theorem downloads_suffix (hsuf : h <:+ h') (hdown : downloads h = true) : downloads h' = true := by
  obtain ⟨pre, rfl⟩ := hsuf
  rw [downloads] at hdown
  simp [downloads, hdown]

theorem LoadedEnd.failed (hs : At job h ⟨⟨locked, false, s⟩, 0, 0⟩) (hret : ret ≠ 0) :
    LoadedEnd job locked isSync h ret := by
  have hkept : kept isSync ret = 0 := if_neg fun hand => hret hand.2
  rw [LoadedEnd, hkept]
  exact ⟨⟨s, hs⟩, nofun⟩

/-- The pin of a download that nobody gives back is trouble. -/
theorem LoadedEnd.small (hjob : job.givesBack true = false) (he : LoadedEnd job false true h ret) :
    Ended job h := by
  obtain ⟨⟨s, hs⟩, hgive⟩ := he
  refine ⟨s, hs.phase, hs.reserved, ?_⟩
  by_cases hret : kept true ret = 1
  · exact .inl ((hgive hret).resolve_right (by simp [hjob]))
  · have hzero : kept true ret = 0 := if_neg fun hand => hret (if_pos hand)
    exact hzero ▸ hs.pins

/-! ## 4. Loading -/

open StoreProg

/-- Space is reserved, or it is not. -/
theorem course_preAllocSpace {f : Phase} {n : Nat} (hs : At job h ⟨f, 0, n⟩) :
    Keeps job (fun h' ok => At job h' ⟨f, if ok then size else 0, n⟩) h
      (preAllocSpace size) := by
  have hretry : ∀ (k : Nat) (h' : List StoreEntry), At job h' ⟨f, 0, n⟩ →
      Keeps job (fun h' ok => At job h' ⟨f, if ok then size else 0, n⟩) h'
        (preAllocRetry size k) := by
    intro k
    induction k with
    | zero => exact fun h' hs => hs
    | succ k ih =>
      intro h' hs
      refine ⟨⟨trivial, trivial⟩, fun _ => ⟨⟨hs.reserved, trivial⟩, fun ok => ?_⟩⟩
      match ok with
      | true => exact hs.step.step
      | false => exact ih _ hs.step.step
  refine ⟨⟨hs.reserved, trivial⟩, fun ok => ?_⟩
  match ok with
  | true => exact hs.step
  | false => exact hretry 3 _ hs.step

/-- `loadObs` ends the loading, whatever comes of it. -/
theorem course_loadObs (hkey : key = job.key) (hopen : (hand job h).opened = true)
    (hs : At job h ⟨⟨locked, true, s⟩, size, 0⟩) (hdown : isSync = true → downloads h = true) :
    Keeps job (LoadedEnd job locked isSync) h (loadObs key size isSync) := by
  refine ⟨⟨trivial, trivial⟩, fun ok => ⟨⟨trivial, trivial⟩, fun _ => ?_⟩⟩
  have hs : At job (⟨.close, ()⟩ :: ⟨.readObject, ok⟩ :: h) ⟨⟨locked, true, s⟩, size, 0⟩ :=
    hs.step.step
  have hdown : isSync = true → downloads (⟨.close, ()⟩ :: ⟨.readObject, ok⟩ :: h) = true := hdown
  match ok, hs, hdown with
  | true, hs, hdown =>
    refine ⟨⟨⟨hkey, hopen⟩, hs.pins.insert hkey isSync⟩, fun _ =>
      ⟨⟨hs.step.reserved, trivial⟩, fun _ => ?_⟩⟩
    match isSync, hdown with
    | true, hdown =>
      exact ⟨⟨s, hs.step.step⟩, fun _ => (gives_of_pin (hdown rfl) rfl).imp_left troubled_cons⟩
    | false, _ => exact ⟨⟨s, hs.step.step⟩, nofun⟩
  | false, hs, _ =>
    exact ⟨⟨trivial, trivial⟩, fun _ => ⟨⟨hs.step.reserved, trivial⟩, fun _ =>
      .failed hs.step.step (by decide)⟩⟩

theorem course_writeFile (hkey : key = job.key) (hopen : (hand job h).opened = true)
    (hs : At job h ⟨⟨true, true, s⟩, size, 0⟩) : Ends job h (writeFile key size) := by
  refine ⟨⟨trivial, trivial⟩, fun ok => ⟨⟨trivial, trivial⟩, fun _ => ?_⟩⟩
  have hs : At job (⟨.close, ()⟩ :: ⟨.pwrite, ok⟩ :: h) ⟨⟨true, true, s⟩, size, 0⟩ := hs.step.step
  have hlocked := congrArg Phase.locked hs.phase
  match ok, hs with
  | true, hs =>
    exact ⟨⟨⟨hkey, hopen⟩, trivial⟩, fun _ => ⟨⟨hs.step.reserved, trivial⟩, fun _ =>
      ⟨⟨⟨hkey, hlocked, rfl⟩, trivial⟩, fun _ => ⟨s, hs.step.step.step⟩⟩⟩⟩
  | false, hs =>
    exact ⟨⟨hs.reserved, trivial⟩, fun _ => ⟨⟨⟨hkey, hlocked, rfl⟩, trivial⟩, fun _ =>
      ⟨s, hs.step.step⟩⟩⟩

/-- The part of a load that the two functions below share: space and the file. -/
theorem course_open {p : StoreProg Int} (hkey : key = job.key)
    (hs : At job h ⟨⟨true, false, false⟩, 0, 0⟩) (hdown : downloads h = true)
    (hp : ∀ h, At job h ⟨⟨true, true, false⟩, size, 0⟩ → hand job h = ⟨size, true⟩ →
      downloads h = true → Keeps job (LoadedEnd job true isSync) h p) :
    Keeps job (LoadedEnd job true isSync) h
      (do
        if ← preAllocSpace size then
          match ← openLoading key with
          | some err => do
            freePreAllocSpace size
            pure (-err.num)
          | none => p
        else pure (-enospc)) := by
  refine (course_preAllocSpace hs).seq fun h₁ ok hsuf hs => ?_
  have hdown := downloads_suffix hsuf hdown
  match ok, hs with
  | false, hs => exact .failed hs (by decide)
  | true, hs =>
    refine ⟨⟨⟨hkey, hs.phase⟩, trivial⟩, fun err => ?_⟩
    match err with
    | some err =>
      have hneg : -(err.num : Int) ≠ 0 := by
        have := err.pos
        omega
      exact ⟨⟨hs.step.reserved, trivial⟩, fun _ => .failed hs.step.step hneg⟩
    | none =>
      have hsize : (hand job h₁).reserved = size := hs.reserved
      exact hp _ hs.step (by simp [hand, Hand.after, hsize]) hdown

/-- A file is left to a task. -/
theorem course_submit {t : StoreTask} (hjob : job.isTask = false) (hkey : t.key = job.key)
    (hs : At job h ⟨⟨true, true, false⟩, t.size, 0⟩) (hhand : hand job h = ⟨t.size, true⟩) :
    Keeps job (LoadedEnd job true false) h (do
      submit t
      pure (0 : Int)) :=
  ⟨⟨⟨⟨hkey, hhand⟩, hs.phase, hjob⟩, trivial⟩, fun _ => ⟨⟨true, hs.step⟩, nofun⟩⟩

theorem course_downLoadLocked (hjob : job.isTask = false) (hkey : key = job.key)
    (hs : At job h ⟨⟨true, false, false⟩, 0, 0⟩) (hdown : downloads h = true) :
    Keeps job (LoadedEnd job true isSync) h (downLoadLocked key size isSync) := by
  refine ⟨⟨trivial, hs.pins.find hkey isSync⟩, fun hit => ?_⟩
  match hit, isSync with
  | true, true => exact ⟨⟨false, hs.step⟩, fun _ => gives_of_pin hdown rfl⟩
  | true, false => exact ⟨⟨false, hs.step⟩, nofun⟩
  | false, true =>
    refine course_open hkey hs.miss hdown fun h' hs hhand hdown => ?_
    exact course_loadObs hkey (by rw [hhand]) hs fun _ => hdown
  | false, false =>
    refine course_open hkey hs.miss hdown fun h' hs hhand _ => ?_
    exact course_submit (t := .loadObs key size) hjob hkey hs hhand

theorem course_writeLocked (hjob : job.isTask = false) (hkey : key = job.key)
    (hs : At job h ⟨⟨true, false, false⟩, 0, 0⟩) (hdown : downloads h = true) :
    Keeps job (LoadedEnd job true false) h (writeLocked key size) := by
  refine ⟨⟨trivial, trivial⟩, fun hit => ?_⟩
  match hit with
  | true => exact ⟨⟨false, hs.step⟩, nofun⟩
  | false =>
    refine course_open hkey hs.miss hdown fun h' hs hhand _ => ?_
    exact course_submit (t := .writeFile key size) hjob hkey hs hhand

/-- Before the first lock. -/
abbrev Starts (job : Job) (h : List StoreEntry) : Prop := At job h ⟨⟨false, false, false⟩, 0, 0⟩

/-- A locker is made, something is done under it, and it goes. -/
theorem course_locked {p : StoreProg Int} (hjob : job.isTask = false) (hkey : key = job.key)
    (hs : Starts job h)
    (hp : ∀ h, At job h ⟨⟨true, false, false⟩, 0, 0⟩ → downloads h = true →
      Keeps job (LoadedEnd job true isSync) h p) :
    Keeps job (fun h' ret => downloads h' = true ∧ LoadedEnd job false isSync h' ret) h
      (do
        if ← lockX key isSync then do
          let ret ← p
          dropLocker key
          pure ret
        else pure 0) := by
  refine ⟨⟨⟨hkey, hs.phase, hjob⟩, trivial⟩, fun ok => ?_⟩
  match ok with
  | false =>
    refine ⟨rfl, ?_⟩
    match isSync with
    | true =>
      have ht : troubled job (⟨.lockX key true, false⟩ :: h) = true := Bool.or_true _
      exact ⟨⟨false, hs.step.phase, hs.step.reserved, .inl ht⟩, fun _ => .inl ht⟩
    | false => exact ⟨⟨false, hs.step⟩, nofun⟩
  | true =>
    refine (hp _ hs.step rfl).seq fun h' ret hsuf hend => ?_
    have hdown : downloads h' = true := downloads_suffix hsuf rfl
    obtain ⟨⟨s, hs⟩, hgive⟩ := hend
    have hdrop : LoadOk job h' (.dropLocker key) :=
      ⟨hkey, congrArg Phase.locked hs.phase, congrArg Phase.loading hs.phase⟩
    exact ⟨⟨hdrop, trivial⟩, fun _ => ⟨hdown, ⟨s, hs.step⟩, fun hk =>
      (hgive hk).imp_left troubled_cons⟩⟩

theorem course_downLoad (hjob : job.isTask = false) (hkey : key = job.key) (hs : Starts job h) :
    Keeps job (fun h' ret => downloads h' = true ∧ LoadedEnd job false isSync h' ret) h
      (downLoad key size isSync) :=
  course_locked hjob hkey hs fun _ hs hdown => course_downLoadLocked hjob hkey hs hdown

/-! ## 5. Files that are opened and closed -/

/-- The file is new, or there after a download, and pinned. -/
theorem course_openAndInsert (inst : OpenInstance) (hkey : inst.inodeId = job.key)
    (hnew : inst.originalSize = 0 ∨ creates inst.oflags → Starts job h)
    (hold : ¬ (inst.originalSize = 0 ∨ creates inst.oflags) →
      downloads h = true ∧ LoadedEnd job false true h 0) :
    Keeps job (OpenedEnd job) h (openAndInsert inst) := by
  refine ⟨⟨hkey, trivial⟩, fun err => ?_⟩
  by_cases hins : inst.originalSize = 0 ∨ creates inst.oflags
  · have hs := hnew hins
    match err with
    | some _ => exact ⟨⟨false, hs.step⟩, nofun⟩
    | none =>
      simp only [if_pos hins]
      refine ⟨⟨⟨hkey, Bool.or_true _⟩, hs.step.pins.insert hkey true⟩, fun _ =>
        ⟨⟨false, hs.step.step⟩, fun _ => ⟨Bool.or_true _, ?_⟩⟩⟩
      exact (gives_of_pin rfl rfl).imp_right fun hg => ⟨_, hg⟩
  · obtain ⟨hdown, ⟨s, hs⟩, hgive⟩ := hold hins
    match err with
    | some err =>
      have ht : troubled job (⟨.openLocal inst.inodeId, some err⟩ :: h) = true := by
        simp [troubled, trouble, hdown]
      exact ⟨⟨s, hs.step.phase, hs.step.reserved, .inl ht⟩, nofun⟩
    | none =>
      simp only [if_neg hins]
      refine ⟨⟨s, hs.step⟩, fun _ => ⟨Bool.or_true _, ?_⟩⟩
      exact (hgive rfl).imp troubled_cons fun hg => ⟨_, hg⟩

theorem course_nodeFail {Q : List StoreEntry → α → Prop} {p : StoreProg α} (nodeFail : Bool)
    (hs : Starts job h) (hp : ∀ h', Starts job h' → Keeps job Q h' p) :
    Keeps job Q h (do
      if nodeFail then deleteOldCacheWithNoPin key
      p) := by
  match nodeFail with
  | true => exact ⟨⟨trivial, trivial⟩, fun _ => hp _ hs.step⟩
  | false => exact hp h hs

section

variable (persistToStorage : Bool) (inst : OpenInstance) (hjob : job.isTask = false)
  (hkey : inst.inodeId = job.key) (hs : Starts job h)

include hjob hkey hs

theorem course_openForWriting :
    Keeps job (OpenedEnd job) h (openForWriting persistToStorage inst) := by
  have hpos : 0 < inst.originalSize ↔ inst.originalSize ≠ 0 := by bv_omega
  have hiff : ¬ creates inst.oflags ∧ 0 < inst.originalSize ↔
      ¬ (inst.originalSize = 0 ∨ creates inst.oflags) := by rw [not_or, and_comm, hpos]
  unfold openForWriting
  split
  · rename_i hload
    split
    · refine (course_downLoad hjob hkey hs).seq fun h' ret _ hend => ?_
      split
      · rename_i hret
        subst hret
        exact course_openAndInsert inst hkey (fun hnew => absurd hnew (hiff.mp hload)) fun _ => hend
      · rename_i hret
        obtain ⟨-, ⟨s, hs⟩, -⟩ := hend
        rw [kept, if_neg fun hand => hret hand.2] at hs
        exact ⟨⟨s, hs⟩, nofun⟩
    · exact ⟨⟨false, hs⟩, nofun⟩
  · rename_i hload
    exact course_openAndInsert inst hkey (fun _ => hs) fun hold => absurd (hiff.mpr hold) hload

theorem course_openHere : Keeps job (OpenedEnd job) h (openHere persistToStorage inst) := by
  refine ⟨⟨trivial, hs.pins.find hkey true⟩, fun hit => ?_⟩
  match hit with
  | true =>
    have hgive : troubled job (⟨.find inst.inodeId true, true⟩ :: h) = true ∨
        job.givesBack (downloads h) = true := gives_of_pin rfl rfl
    have hs : At job (⟨.find inst.inodeId true, true⟩ :: h) ⟨⟨false, false, false⟩, 0, 1⟩ := hs.step
    refine ⟨⟨hkey, trivial⟩, fun err => ?_⟩
    match err with
    | some _ => exact ⟨⟨trivial, hs.step.pins.unpin hkey⟩, fun _ => ⟨⟨false, hs.step.step⟩, nofun⟩⟩
    | none =>
      refine ⟨⟨false, hs.step⟩, fun _ => ⟨Bool.or_true _, ?_⟩⟩
      exact hgive.imp troubled_cons fun hg => ⟨_, hg⟩
  | false =>
    by_cases hw : mayWrite inst.oflags = true
    · simp only [hw, if_true]
      exact course_openForWriting persistToStorage inst hjob hkey hs.miss
    · simp only [hw]
      match persistToStorage with
      | false => exact ⟨⟨false, hs.miss⟩, nofun⟩
      | true => exact (course_downLoad hjob hkey hs.miss).seq fun _ _ _ hend => ⟨hend.2.1, nofun⟩

theorem course_openFile : Keeps job (OpenedEnd job) h (openFile persistToStorage inst) :=
  course_nodeFail inst.nodeFail hs fun _ hs => course_openHere persistToStorage inst hjob hkey hs

end

/-- The file is flushed, closed and not pinned any more. -/
theorem course_close (flushes : List (BitVec 64)) (isFlushed : Bool) (hkey : key = job.key)
    (hs : At job h ⟨⟨false, false, s⟩, 0, 1⟩) (hopen : (hand job h).opened = true) :
    Ends job h (do
      flushes.forM (flush key)
      closeTmpFiles key isFlushed size
      pure ret) := by
  refine (Prog.safe_forM
    (fun _ h => At job h ⟨⟨false, false, s⟩, 0, 1⟩ ∧ (hand job h).opened = true)
    ?_ flushes h ⟨hs, hopen⟩).seq fun h' _ _ hs => ?_
  · intro size _ h hs
    exact ⟨⟨⟨hkey, hs.2⟩, trivial⟩, fun _ => ⟨hs.1.step, hs.2⟩⟩
  · match isFlushed with
    | true =>
      exact ⟨⟨trivial, trivial⟩, fun _ => ⟨⟨trivial, hs.1.step.pins.unpin hkey⟩, fun _ =>
        ⟨s, hs.1.step.step⟩⟩⟩
    | false =>
      exact ⟨⟨⟨hkey, hs.2⟩, trivial⟩, fun _ => ⟨⟨trivial, trivial⟩, fun _ =>
        ⟨⟨trivial, hs.1.step.step.pins.unpin hkey⟩, fun _ => ⟨s, hs.1.step.step.step⟩⟩⟩⟩

theorem course_fileLife (persistToStorage : Bool) (inst : OpenInstance) (flushes : List (BitVec 64))
    (hjob : job.isTask = false) (hkey : inst.inodeId = job.key) (hs : Starts job h) :
    Ends job h (fileLife persistToStorage inst flushes size) := by
  refine (course_openFile persistToStorage inst hjob hkey hs).seq fun h' r _ hend => ?_
  obtain ⟨ret, opened⟩ := r
  obtain ⟨⟨s, hs⟩, hopen⟩ := hend
  match opened, hs, hopen with
  | false, hs, _ => exact ⟨s, hs⟩
  | true, hs, hopen => exact course_close flushes (!flushes.isEmpty) hkey hs (hopen rfl).1

/-! ## 6. Small files -/

theorem course_readCached (hkey : key = job.key) (hs : At job h ⟨⟨false, false, s⟩, 0, 1⟩) :
    Ends job h (readCached key) := by
  have hend : ∀ (h : List StoreEntry) (ret : Int), At job h ⟨⟨false, false, s⟩, 0, 1⟩ →
      Ends job h (closeAndUnpin key ret) :=
    fun h ret hs => ⟨⟨trivial, trivial⟩, fun _ => ⟨⟨trivial, hs.step.pins.unpin hkey⟩, fun _ =>
      ⟨s, hs.step.step⟩⟩⟩
  refine ⟨⟨hkey, trivial⟩, fun err => ?_⟩
  match err with
  | some _ => exact ⟨⟨trivial, hs.step.pins.unpin hkey⟩, fun _ => ⟨s, hs.step.step⟩⟩
  | none =>
    refine ⟨⟨trivial, trivial⟩, fun short => ?_⟩
    match short with
    | none => exact hend _ 0 hs.step.step
    | some err =>
      change Prog.Safe _ _ _ (if err = eagain then _ else closeAndUnpin key (-(err : Int)))
      split
      · refine ⟨⟨trivial, trivial⟩, fun short => ?_⟩
        match short with
        | none => exact hend _ 0 hs.step.step.step
        | some _ => exact hend _ _ hs.step.step.step
      · exact hend _ _ hs.step.step

/-- A small file, in the cache or not. -/
theorem course_read {p : StoreProg Int} (hkey : key = job.key) (hs : Starts job h)
    (hp : ∀ h', Starts job h' → Ends job h' p) :
    Ends job h (do
      if ← find key true then readCached key else p) := by
  refine ⟨⟨trivial, hs.pins.find hkey true⟩, fun hit => ?_⟩
  match hit with
  | true => exact course_readCached hkey hs.step
  | false => exact hp _ hs.miss

theorem course_readHere (persistToStorage : Bool) (inst : OpenInstance) (hjob : job.isTask = false)
    (hgive : job.givesBack true = false) (hkey : inst.inodeId = job.key) (hs : Starts job h) :
    Ends job h (readHere persistToStorage inst) := by
  refine course_read hkey hs fun h' hs => ?_
  split
  · exact ⟨false, hs⟩
  · split
    · exact (course_downLoad hjob hkey hs).mono fun _ _ _ hend => hend.2.small hgive
    · split
      · exact (course_downLoad hjob hkey hs).seq fun _ _ _ hend => hend.2.1
      · refine ⟨⟨trivial, trivial⟩, fun ok => ?_⟩
        match ok with
        | true =>
          exact (course_locked hjob hkey hs.step fun _ hs hdown =>
            course_writeLocked hjob hkey hs hdown).mono fun _ _ _ hend => hend.2.1
        | false => exact ⟨false, hs.step⟩

theorem course_readHereForBrpc (persistToStorage : Bool) (oflags : BitVec 32)
    (hjob : job.isTask = false) (hgive : job.givesBack true = false) (hkey : key = job.key)
    (hs : Starts job h) : Ends job h
      (readHereForBrpc persistToStorage key size oflags) := by
  refine course_read hkey hs fun h' hs => ?_
  split
  · exact ⟨false, hs⟩
  · split
    · exact (course_downLoad hjob hkey hs).mono fun _ _ _ hend => hend.2.small hgive
    · exact (course_downLoad hjob hkey hs).seq fun _ _ _ hend => hend.2.1

/-- Nobody gives back the pin of a file that is opened so. -/
theorem course_readSwitched (persistToStorage : Bool) (inst : OpenInstance)
    (hjob : job.isTask = false) (hgive : ∀ download, job.givesBack download = false)
    (hkey : inst.inodeId = job.key) (hs : Starts job h) :
    Ends job h (readSwitched persistToStorage inst) := by
  refine (course_openFile persistToStorage { inst with nodeFail := true } hjob hkey hs).seq
    fun h' r _ hend => ?_
  obtain ⟨ret, opened⟩ := r
  obtain ⟨⟨s, hs⟩, hopen⟩ := hend
  match opened, hs, hopen with
  | false, hs, _ => exact ⟨s, hs⟩
  | true, hs, hopen =>
    refine ⟨s, hs.phase, hs.reserved, .inl ((hopen rfl).2.resolve_right ?_)⟩
    rintro ⟨download, hback⟩
    rw [hgive download] at hback
    cases hback

theorem course_deleteFiles (persistToStorage : Bool) (hs : Starts job h) :
    Ends job h (deleteFiles persistToStorage key) := by
  have hend : ∀ (h : List StoreEntry) (ret : Int), Starts job h →
      Ends job h (if ret = 0 ∧ persistToStorage then do
        if ← deleteObject then pure 0 else pure (-eio)
        else pure ret) := by
    intro h ret hs
    split
    · refine ⟨⟨trivial, trivial⟩, fun ok => ?_⟩
      match ok with
      | true | false => exact ⟨false, hs.step⟩
    · exact ⟨false, hs⟩
  refine ⟨⟨trivial, trivial⟩, fun hit => ?_⟩
  match hit, persistToStorage, hend with
  | true, _, hend => exact ⟨⟨trivial, trivial⟩, fun ret => hend _ ret hs.step.step⟩
  | false, true, hend => exact hend _ 0 hs.step
  | false, false, hend => exact hend _ (-enoent) hs.step

end Programs

/-- **Every job keeps to its course**, whatever the results of its operations. -/
theorem Job.course (persistToStorage : Bool) (job : Job) :
    Ends job job.hist (job.prog persistToStorage) := by
  have hstarts : ∀ job : Job, job.isTask = false → Starts job job.hist := by
    intro job hjob
    cases job with
    | task => cases hjob
    | _ => exact ⟨rfl, rfl, .inr rfl⟩
  match job with
  | .file inst flushes size =>
    exact course_fileLife persistToStorage inst flushes rfl rfl (hstarts _ rfl)
  | .readSmallFiles inst =>
    exact course_nodeFail inst.nodeFail (hstarts _ rfl) fun _ hs =>
      course_readHere persistToStorage inst rfl rfl rfl hs
  | .readSmallFilesForBrpc key size oflags nodeFail =>
    exact course_nodeFail nodeFail (hstarts _ rfl) fun _ hs =>
      course_readHereForBrpc persistToStorage oflags rfl rfl rfl hs
  | .readSwitched inst =>
    exact course_readSwitched persistToStorage inst rfl (fun _ => rfl) rfl (hstarts _ rfl)
  | .deleteFiles key => exact course_deleteFiles persistToStorage (hstarts _ rfl)
  | .task (.loadObs key size) parent =>
    have hs : At (.task (.loadObs key size) parent) [⟨.openLoading key, none⟩]
        ⟨⟨false, true, false⟩, size, 0⟩ := ⟨rfl, rfl, .inr rfl⟩
    exact (course_loadObs rfl rfl hs (fun hsync => by cases hsync)).mono fun _ _ _ hend => hend.1
  | .task (.writeFile key size) parent =>
    have hs : At (.task (.writeFile key size) parent) [⟨.openLoading key, none⟩]
        ⟨⟨true, true, false⟩, size, 0⟩ := ⟨rfl, rfl, .inr rfl⟩
    exact course_writeFile rfl rfl hs

theorem Ended.settled {job : Job} {h : List StoreEntry} (he : Ended job h) : Settled job h := by
  obtain ⟨s, hs⟩ := he
  rw [Settled, hs.phase, hs.reserved]
  exact ⟨⟨rfl, rfl⟩, rfl⟩

/-- **Every job locks, loads, submits and lets go in this order.** -/
theorem Job.load_safe (persistToStorage : Bool) (job : Job) :
    Prog.Safe (LoadOk job) (LoadEnd job) job.hist (job.prog persistToStorage) :=
  (job.course persistToStorage).weaken (fun _ _ => And.left) fun _ _ => Ended.settled

/-- **Every job takes its pins one at a time and gives them back**, unless it has met trouble. -/
theorem Job.pins_safe (persistToStorage : Bool) (job : Job) :
    Prog.Safe (PinOk job) (PinEnd job) job.hist (job.prog persistToStorage) :=
  (job.course persistToStorage).weaken (fun _ _ => And.right) fun _ _ ⟨_, hs⟩ => hs.pins

end FalconFS.Store
