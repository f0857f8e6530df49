/-
# What a thread of the concurrent queue can do

`Move` lists what one step of a thread does to the shared data, with what the thread has in its
hands before and after: the item it popped and has not passed on, the queue it pushes to, and how
many of its pushes and pops are not counted yet.  `resume_move` is the inversion that every later
proof goes through, instead of the seventeen places a thread can be at.

`Move.follows` is its first use: seen as lanes (`State.lanes`), a step is one action or none.
-/
import FalconFS.Connection.ConcurrentQueue

namespace FalconFS.ConcurrentQueue

open Function Pc State

variable {Thread T : Type}

/-! ## 1. What a thread has in its hands -/

namespace Pc

/-- In a dequeue, under the shared lock. -/
def reading : Pc Thread T → Bool
  | .tryPop .. | .subOne .. | .checkOne .. | .scan .. | .consume .. | .func .. | .subStolen ..
  | .check .. => true
  | _ => false

/-- The item that is out of its queue and not yet the caller's. -/
def held : Pc Thread T → Option (Item Thread T)
  | .subOne _ x | .checkOne _ x | .func _ _ _ x => some x
  | _ => none

/-- The queue the thread pushes to. -/
def target : Pc Thread T → Option (Producer Thread)
  | .pushOne p .. | .countOne p .. | .pushBulk p .. | .countBulk p .. => some p
  | _ => none

variable [DecidableEq Thread]

/-- How many items the thread pushed to `p` and did not add to the counter. -/
def pushes (p : Producer Thread) : Pc Thread T → Nat
  | .countOne q .. => if q = p then 1 else 0
  | .pushBulk q _ _ n | .countBulk q n _ => if q = p then n else 0
  | _ => 0

/-- How many items the thread popped from `p` and did not take off the counter. -/
def pops (p : Producer Thread) : Pc Thread T → Nat
  | .subOne q _ => if q = p then 1 else 0
  | .consume _ q n | .subStolen _ q n => if q = p then n else 0
  | .func _ q n _ => if q = p then n + 1 else 0
  | _ => 0

variable {pc : Pc Thread T} {p : Producer Thread}

theorem pushes_of_target_ne (h : pc.target ≠ some p) : pc.pushes p = 0 := by
  cases pc <;> simp_all [target, pushes]

theorem pushes_none (h : pc.target = none) (p : Producer Thread) :
    pc.pushes p = 0 := pushes_of_target_ne (by rw [h]; nofun)

theorem pushes_other {q : Producer Thread} (h : pc.target = some p) (hne : q ≠ p) :
    pc.pushes q = 0 := pushes_of_target_ne (by rw [h]; simpa using Ne.symm hne)

omit [DecidableEq Thread] in
theorem of_reading {pc : Pc Thread T} (h : pc.reading = true) : pc.target = none := by
  cases pc <;> simp_all [reading, target]

theorem of_not_reading (h : pc.reading = false) : pc.held = none ∧ ∀ p, pc.pops p = 0 := by
  cases pc <;> simp_all [reading, held, pops]

/-- The same hands. -/
structure Alike (pc pc' : Pc Thread T) : Prop where
  reading : pc'.reading = pc.reading
  held : pc'.held = pc.held
  pushes : ∀ p, pc'.pushes p = pc.pushes p
  pops : ∀ p, pc'.pops p = pc.pops p

end Pc

theorem enqueueNext_quiet (rest : List T) (b : Bool) :
    (enqueueNext rest b : Pc Thread T).reading = false ∧
      (enqueueNext rest b : Pc Thread T).target = none := by
  cases rest <;> exact ⟨rfl, rfl⟩

variable [DecidableEq Thread]

theorem pushTo_target (bulk : Bool) (p : Producer Thread) (value : T) (rest : List T) (b : Bool) :
    (pushTo bulk p value rest b).target = some p ∧ (pushTo bulk p value rest b).reading = false ∧
      ∀ q, (pushTo bulk p value rest b).pushes q = 0 := by
  cases bulk
  · exact ⟨rfl, rfl, fun _ => rfl⟩
  · refine ⟨rfl, rfl, fun q => ?_⟩
    simp [pushTo, pushes]

variable {pc' : Pc Thread T} {p : Producer Thread} {memory : Bool}

/-- Two places outside a dequeue at which nothing is pending. -/
theorem Pc.alike_of_quiet {pc : Pc Thread T} (h : pc.reading = false) (h' : pc'.reading = false)
    (hpushes : ∀ p, pc.pushes p = 0) (hpushes' : ∀ p, pc'.pushes p = 0) : pc.Alike pc' where
  reading := h'.trans h.symm
  held := (of_not_reading h').1.trans (of_not_reading h).1.symm
  pushes p := (hpushes' p).trans (hpushes p).symm
  pops p := ((of_not_reading h').2 p).trans ((of_not_reading h).2 p).symm

/-! ## 2. What a step of a thread can do -/

/-- **All that a thread does** at `pc`.  Each constructor says what happens to the shared data and
what the thread has in its hands before and after. -/
inductive Move (s : State Thread T) (t : Thread) (pc : Pc Thread T) : State Thread T → Prop
  /-- A decision, after a look at shared data. -/
  | turn (pc' : Pc Thread T) (needGC : Bool) (alike : pc.Alike pc')
      (target : ∀ p, pc'.target = some p → pc.target = some p ∨ s.producerMap t = some p) :
      Move s t pc { s.goto t pc' with needGC := needGC }
  | register (pc' : Pc Thread T) (free : s.gc.locks = false) (alone : s.readers = [])
      (new : s.producerMap t = none) (alike : pc.Alike pc')
      (target : ∀ p, pc'.target = some p → p = ⟨t, s.life t⟩) :
      Move s t pc ((s.register t).goto t pc')
  | push (pc' : Pc Thread T) (p : Producer Thread) (value : T)
      (target : pc.target = some p) (target' : pc'.target = some p)
      (room : (s.info p).queue.length + 1 < 2 ^ 64)
      (quiet : pc.reading = false) (quiet' : pc'.reading = false)
      (pushes : pc'.pushes p = pc.pushes p + 1) :
      Move s t pc ((s.push p value).goto t pc')
  | count (pc' : Pc Thread T) (p : Producer Thread) (n : Nat)
      (target : pc.target = some p) (target' : pc'.target = none)
      (quiet : pc.reading = false) (quiet' : pc'.reading = false) (pushes : pc.pushes p = n) :
      Move s t pc ((s.count p (fetchAdd (s.info p).approxSize n)).goto t pc')
  | lock (maxCount : Option Nat) (free : s.gc.locks = false)
      (quiet : pc.reading = false) (target : pc.target = none) :
      Move s t pc (s.lockShared t maxCount)
  | pop (pc' : Pc Thread T) (p : Producer Thread) (x : Item Thread T) (queue : List (Item Thread T))
      (front : (s.info p).queue = x :: queue)
      (reading : pc.reading = true) (reading' : pc'.reading = true)
      (held : pc.held = none) (held' : pc'.held = some x)
      (pops : ∀ q, pc'.pops q = pc.pops q + if q = p then 1 else 0) :
      Move s t pc ((s.pop p queue).goto t pc')
  | uncount (pc' : Pc Thread T) (p : Producer Thread) (n : Nat)
      (reading : pc.reading = true) (reading' : pc'.reading = true) (held : pc'.held = pc.held)
      (pops : ∀ q, pc.pops q = if q = p then n else 0) (pops' : ∀ q, pc'.pops q = 0) :
      Move s t pc ((s.count p (fetchSub (s.info p).approxSize n)).goto t pc')
  | handOver (pc' : Pc Thread T) (x : Item Thread T)
      (reading : pc.reading = true) (reading' : pc'.reading = true)
      (held : pc.held = some x) (held' : pc'.held = none) (pops : ∀ q, pc'.pops q = pc.pops q) :
      Move s t pc ((s.handOver t x).goto t pc')
  | leave (r : Returned T) (reading : pc.reading = true) (held : pc.held = none)
      (pops : ∀ q, pc.pops q = 0) :
      Move s t pc (s.leave t r)
  | ret (x : Item Thread T) (r : Returned T) (needGC : Bool) (reading : pc.reading = true)
      (held : pc.held = some x) (pops : ∀ q, pc.pops q = 0) :
      Move s t pc { (s.handOver t x).leave t r with needGC := needGC }

omit [DecidableEq Thread] in
theorem State.hasNode_iff {s : State Thread T} :
    s.hasNode p memory = true ↔ memory = true ∧ (s.info p).queue.length + 1 < 2 ^ 64 := by
  simp [hasNode]

variable {s s' : State Thread T} {t : Thread} {pc : Pc Thread T}

/-- A turn that leaves `needGC` alone. -/
theorem Move.goto (alike : pc.Alike pc')
    (target : ∀ p, pc'.target = some p → pc.target = some p ∨ s.producerMap t = some p) :
    Move s t pc (s.goto t pc') :=
  .turn pc' s.needGC alike target

/-- A turn outside a dequeue, to a place at which nothing is pending. -/
theorem Move.quiet (h : pc.reading = false) (h' : pc'.reading = false)
    (hpushes : ∀ p, pc.pushes p = 0) (target : pc'.target = none) : Move s t pc (s.goto t pc') :=
  .goto (alike_of_quiet h h' hpushes fun p =>
    pushes_of_target_ne (by rw [target]; nofun)) fun p hp => by rw [target] at hp; cases hp

/-- The thread found its queue, or made it. -/
theorem Move.found {bulk : Bool} {value : T} {rest : List T} {b : Bool} (h : pc.reading = false)
    (hpushes : ∀ p, pc.pushes p = 0) (hp : s.producerMap t = some p) :
    Move s t pc (s.goto t (pushTo bulk p value rest b)) := by
  obtain ⟨htarget, hquiet, hpushes'⟩ := pushTo_target bulk p value rest b
  refine .goto (alike_of_quiet h hquiet hpushes hpushes') fun q hq => Or.inr ?_
  rw [← hq, htarget, hp]

/-- **Inversion of a step of a thread.** -/
theorem resume_move (hpc : s.pc t = pc) (h : resume s t memory = some s') : Move s t pc s' := by
  unfold resume at h
  rw [hpc] at h
  cases pc <;> dsimp only at h
  case idle r => cases h
  case find bulk value rest b =>
    (repeat' split at h) <;> cases h
    · exact .found rfl (fun _ => rfl) ‹_›
    · exact .quiet rfl rfl (fun _ => rfl) rfl
  case create bulk value rest b =>
    (repeat' split at h) <;> cases h
    · exact .found rfl (fun _ => rfl) ‹_›
    · rename_i hfree _ hnone
      simp only [Bool.or_eq_true, Bool.not_eq_true', not_or, Bool.not_eq_true,
        Bool.not_eq_false, List.isEmpty_iff] at hfree
      obtain ⟨htarget, hquiet, hpushes⟩ := pushTo_target bulk ⟨t, s.life t⟩ value rest b
      refine .register _ hfree.1 hfree.2 hnone
        (alike_of_quiet rfl hquiet (fun _ => rfl) hpushes) fun q hq => ?_
      rw [htarget] at hq
      exact (Option.some.inj hq).symm
  case pushOne p value rest b =>
    (repeat' split at h) <;> cases h
    · exact .push _ p value rfl rfl (hasNode_iff.mp ‹_›).2 rfl rfl (by simp [pushes])
    · exact .quiet rfl (enqueueNext_quiet rest false).1 (fun _ => rfl)
        (enqueueNext_quiet rest false).2
  case countOne p rest b =>
    cases h
    exact .count _ p 1 rfl (enqueueNext_quiet rest b).2 rfl (enqueueNext_quiet rest b).1
      (by simp [pushes])
  case pushBulk p value rest n =>
    (repeat' split at h) <;> cases h
    · exact .push _ p value rfl rfl (hasNode_iff.mp ‹_›).2 rfl rfl (by simp [pushes])
    · exact .push _ p value rfl rfl (hasNode_iff.mp ‹_›).2 rfl rfl (by simp [pushes])
    · exact .goto ⟨rfl, rfl, fun _ => rfl, fun _ => rfl⟩ fun q hq => Or.inl hq
  case countBulk p n b =>
    cases h
    exact .count _ p n rfl rfl rfl rfl (by simp [pushes])
  case lockShared maxCount =>
    (repeat' split at h) <;> cases h
    · exact .quiet rfl rfl (fun _ => rfl) rfl
    · exact .lock maxCount (Bool.eq_false_iff.mpr ‹_›) rfl rfl
  case tryPop start i =>
    (repeat' split at h) <;> cases h
    · exact .goto ⟨rfl, rfl, fun _ => rfl, fun _ => rfl⟩ nofun
    · exact .pop _ _ _ _ ‹_› rfl rfl rfl rfl fun q => by simp [pops, eq_comm]
    · exact .leave _ rfl rfl fun _ => rfl
  case subOne p x =>
    cases h
    exact .uncount _ p 1 rfl rfl rfl (fun q => by simp [pops, eq_comm]) fun _ => rfl
  case checkOne p x =>
    cases h
    exact .ret x _ _ rfl rfl fun _ => rfl
  case scan b =>
    (repeat' split at h) <;> cases h
    · exact .goto ⟨rfl, rfl, fun _ => rfl, fun q => by simp [pops]⟩ nofun
    · exact .leave _ rfl rfl fun _ => rfl
  case consume b p stolen =>
    (repeat' split at h) <;> cases h
    · exact .goto ⟨rfl, rfl, fun _ => rfl, fun _ => rfl⟩ nofun
    · refine .pop _ p _ _ ‹_› rfl rfl rfl rfl fun q => ?_
      by_cases hq : p = q
      · simp [pops, hq]
      · simp [pops, hq, Ne.symm hq]
    · exact .goto ⟨rfl, rfl, fun _ => rfl, fun _ => rfl⟩ nofun
  case func b p stolen x =>
    cases h
    exact .handOver _ x rfl rfl rfl rfl fun _ => rfl
  case subStolen b p stolen =>
    (repeat' split at h) <;> cases h
    · exact .uncount _ p stolen rfl rfl rfl (fun q => by simp [pops, eq_comm]) fun _ => rfl
    · have hzero : stolen = 0 := by omega
      exact .goto ⟨rfl, rfl, fun _ => rfl, fun q => by simp [pops, hzero]⟩ nofun
  case check b p =>
    cases h
    exact .turn _ _ ⟨rfl, rfl, fun _ => rfl, fun _ => rfl⟩ nofun

/-- A call is a turn. -/
theorem enter_move (traits : Traits) (c : Call T) (hpc : pc.reading = false)
    (hpushes : ∀ p, pc.pushes p = 0) : Move s t pc (s.goto t (enter traits s t c)) := by
  have hquiet : (enter traits s t c).reading = false ∧ (enter traits s t c).target = none := by
    unfold enter
    split
    · exact enqueueNext_quiet _ _
    · exact ⟨rfl, rfl⟩
    · exact ⟨rfl, rfl⟩
    · split <;> exact ⟨rfl, rfl⟩
    · split
      · split <;> exact ⟨rfl, rfl⟩
      · exact ⟨rfl, rfl⟩
  exact .quiet hpc hquiet.1 hpushes hquiet.2

/-! ## 3. The lanes of the queue -/

/-- What is left of the state when the registration, the counters and the locks are forgotten. -/
def State.lanes (s : State Thread T) : Lanes.State (Producer Thread) Thread T where
  sent := s.enqueued
  queue p := (s.info p).queue
  held t := (s.pc t).held
  got := s.dequeued

theorem held_update (pc' : Pc Thread T) :
    (fun t' => (update s.pc t pc' t').held) =
      update (fun t' => (s.pc t').held) t pc'.held :=
  comp_update held s.pc t pc'

theorem queue_update (p : Producer Thread) (i : ProducerInfo Thread T) :
    (fun q => (update s.info p i q).queue) =
      update (fun q => (s.info q).queue) p i.queue :=
  comp_update ProducerInfo.queue s.info p i

theorem lanes_goto (h : pc'.held = (s.pc t).held) : (s.goto t pc').lanes = s.lanes := by
  simp only [lanes, goto, held_update, h]
  rw [update_eq_self t fun t' => (s.pc t').held]

theorem lanes_setInfo {i : ProducerInfo Thread T} (h : i.queue = (s.info p).queue) :
    (s.setInfo p i).lanes = s.lanes := by
  simp only [lanes, setInfo, queue_update, h]
  rw [update_eq_self p fun q => (s.info q).queue]

theorem lanes_count (p : Producer Thread) (n : Nat) : (s.count p n).lanes = s.lanes :=
  lanes_setInfo (i := { s.info p with approxSize := n }) rfl

theorem lanes_leave (r : Returned T) (h : (s.pc t).held = none) : (s.leave t r).lanes = s.lanes :=
  lanes_goto (s := s) (t := t) (h.symm : (idle r : Pc Thread T).held = _)

theorem lanes_lockShared (m : Option Nat) (h : (s.pc t).held = none) :
    (s.lockShared t m).lanes = s.lanes := by
  cases m with
  | none => exact lanes_goto (s := s) (t := t) (h.symm : (tryPop _ 0 : Pc Thread T).held = _)
  | some n => exact lanes_goto (s := s) (t := t) (h.symm : (scan _ : Pc Thread T).held = _)

/-- **Every step does to the lanes what one action does, or nothing.**  The registration replaces
an object that has to be a new one. -/
theorem Move.follows (h : Move s t (s.pc t) s')
    (hborn : s.producerMap t = none → (s.info ⟨t, s.life t⟩).queue = []) :
    Lanes.Follows s.lanes s'.lanes := by
  cases h with
  | turn pc' needGC alike => exact .inl (lanes_goto alike.held)
  | register pc' free alone new alike =>
    refine .inl ?_
    have hinfo : (s.register t).lanes = s.lanes :=
      lanes_setInfo (i := ({} : ProducerInfo Thread T)) (hborn new).symm
    rw [← hinfo]
    exact lanes_goto (s := s.register t) alike.held
  | push pc' p value target target' room quiet quiet' =>
    have hheld : pc'.held = ((s.push p value).pc t).held :=
      (Pc.of_not_reading quiet').1.trans (Pc.of_not_reading quiet).1.symm
    refine .inr ⟨.push p value, ?_⟩
    rw [lanes_goto hheld]
    simp only [Lanes.step, State.lanes, State.push, State.setInfo, queue_update]
  | count pc' p n target target' quiet quiet' =>
    have hheld : pc'.held = (s.pc t).held :=
      (of_not_reading quiet').1.trans (of_not_reading quiet).1.symm
    exact .inl ((lanes_goto (s := s.count p _) hheld).trans (lanes_count p _))
  | lock maxCount free quiet => exact .inl (lanes_lockShared maxCount (Pc.of_not_reading quiet).1)
  | pop pc' p x queue front reading reading' held held' =>
    refine .inr ⟨.pop t p, ?_⟩
    simp only [Lanes.step, State.lanes, held, front, State.goto, State.pop, State.setInfo,
      queue_update, held_update, held']
  | uncount pc' p n reading reading' held =>
    exact .inl ((lanes_goto (s := s.count p _) held).trans (lanes_count p _))
  | handOver pc' x reading reading' held held' =>
    refine .inr ⟨.hand t, ?_⟩
    simp only [Lanes.step, State.lanes, held, State.goto, State.handOver, held_update, held']
  | leave r reading held => exact .inl (lanes_leave r held)
  | ret x r needGC reading held =>
    refine .inr ⟨.hand t, ?_⟩
    simp only [Lanes.step, State.lanes, held, State.leave, State.handOver, held_update]
    rfl

end FalconFS.ConcurrentQueue
