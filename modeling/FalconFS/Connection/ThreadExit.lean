/-
# Threads that leave their queues

`get_or_create_producer_info` registers a thread as a producer of a `ConcurrentQueue`, and a HELPER
should take it off the queue when the thread exits: its destructor calls `on_thread_exit`, unless
the queue has gone and has told the helper so (`MarkAllHelperDestroyed`).

The helper is a `static thread_local` variable.  There is one for each thread, however many queues
of the element type there are, and its callback belongs to the queue that came first.  The other
queues are not told of the exit; and each of them silences the helper when it goes.  Besides, the
destructor looks at the flag before the callback takes any lock, so a queue can go in between.

If every thread produces to one queue only, and no queue goes while a helper is about to call it, a
thread that has exited is registered nowhere (`exited_unregistered`).
-/
import FalconFS.Lib.Machine

namespace FalconFS.ThreadExit

open Function Machine

/-! ## 1. Queues and threads -/

/-- A record of `active_producers_`. -/
structure Producer where
  thread : Nat
  active : Bool

structure Queue where
  alive : Bool
  producerMap : List Nat
  activeProducers : List Producer
  /-- The threads to whose helpers there are weak pointers. -/
  threadHelpers : List Nat

structure ThreadExitHelper where
  /-- The queue of `exitCallback`. -/
  queue : Nat
  queueDestroyed : Bool

inductive Life
  | running
  /-- The destructor of the helper has seen no flag. -/
  | calling (queue : Nat)
  | exited
  deriving DecidableEq

structure Thread where
  life : Life
  exitHelper : Option ThreadExitHelper

structure System where
  queues : Nat → Queue
  threads : Nat → Thread
  /-- A callback was made on a queue that had gone. -/
  misled : Bool

inductive Event
  | enqueue (t q : Nat)
  | exit (t : Nat)
  /-- `empty` says whether the producer has no items left. -/
  | callback (t : Nat) (empty : Bool)
  | destroy (q : Nat)

/-- `on_thread_exit` -/
def Queue.onThreadExit (queue : Queue) (t : Nat) (empty : Bool) : Queue :=
  if t ∈ queue.producerMap then
    { queue with
      activeProducers :=
        if empty then queue.activeProducers.filter (·.thread ≠ t)
        else queue.activeProducers.map fun p => { p with active := p.active && p.thread ≠ t }
      producerMap := queue.producerMap.filter (· ≠ t) }
  else queue

namespace System

def init : System := ⟨fun _ => ⟨true, [], [], []⟩, fun _ => ⟨.running, none⟩, false⟩

/-- `get_or_create_producer_info` -/
def getOrCreateProducerInfo (s : System) (t q : Nat) : System :=
  let queue := s.queues q
  if t ∈ queue.producerMap then s
  else
    { s with
      queues := update s.queues q { queue with
        producerMap := t :: queue.producerMap
        activeProducers := queue.activeProducers ++ [⟨t, true⟩]
        threadHelpers := queue.threadHelpers ++ [t] }
      threads := update s.threads t { s.threads t with
        exitHelper := some ((s.threads t).exitHelper.getD ⟨q, false⟩) } }

/-- `~ConcurrentQueue`.  The weak pointers of threads that are leaving have expired. -/
def destroy (s : System) (q : Nat) : System :=
  { s with
    queues := update s.queues q ⟨false, [], [], []⟩
    threads := fun t =>
      if t ∈ (s.queues q).threadHelpers ∧ (s.threads t).life = .running then
        { s.threads t with exitHelper :=
            (s.threads t).exitHelper.map ({ · with queueDestroyed := true }) }
      else s.threads t }

def setLife (s : System) (t : Nat) (life : Life) : System :=
  { s with threads := update s.threads t { s.threads t with life := life } }

def step (s : System) : Event → Option System
  | .enqueue t q =>
    if (s.threads t).life = .running ∧ (s.queues q).alive = true then
      some (s.getOrCreateProducerInfo t q)
    else none
  | .exit t =>
    if (s.threads t).life = .running then
      match (s.threads t).exitHelper with
      | some ⟨q, false⟩ => some (s.setLife t (.calling q))
      | _ => some (s.setLife t .exited)
    else none
  | .callback t empty =>
    match (s.threads t).life with
    | .calling q =>
      if (s.queues q).alive then
        some { s.setLife t .exited with
          queues := update s.queues q ((s.queues q).onThreadExit t empty) }
      else some { s.setLife t .exited with misled := true }
    | _ => none
  | .destroy q => if (s.queues q).alive then some (s.destroy q) else none

/-- A thread produces to one queue only, and no queue goes that a helper is about to call. -/
def Single (s : System) : Event → Prop
  | .enqueue t q => ∀ h ∈ (s.threads t).exitHelper, h.queue = q
  | .destroy q => ∀ t, (s.threads t).life ≠ .calling q
  | _ => True

end System

/-! ## 2. The invariant -/

/-- How thread `t` and queue `q` stand to each other. -/
structure Ok (q t : Nat) (queue : Queue) (th : Thread) : Prop where
  listed : ⟨t, true⟩ ∈ queue.activeProducers → t ∈ queue.producerMap
  /-- Who is registered has a helper for this queue. -/
  known : t ∈ queue.producerMap →
    (th.life = .running ∧ th.exitHelper = some ⟨q, false⟩) ∨ th.life = .calling q
  helper : t ∈ queue.threadHelpers → ∃ d, th.exitHelper = some ⟨q, d⟩
  told : th.life = .running → th.exitHelper = some ⟨q, false⟩ →
    queue.alive = true ∧ t ∈ queue.threadHelpers
  calling : th.life = .calling q → queue.alive = true
  gone : th.exitHelper = some ⟨q, true⟩ → queue.alive = false

def Inv (s : System) : Prop := s.misled = false ∧ ∀ q t, Ok q t (s.queues q) (s.threads t)

variable {s s' : System} {t t' q : Nat} {queue : Queue}

theorem inv_enqueue (h : Inv s) (hlife : (s.threads t).life = .running)
    (halive : (s.queues q).alive = true) (hone : ∀ x ∈ (s.threads t).exitHelper, x.queue = q) :
    Inv (s.getOrCreateProducerInfo t q) := by
  have hhelper : (s.threads t).exitHelper.getD ⟨q, false⟩ = ⟨q, false⟩ := by
    cases hx : (s.threads t).exitHelper with
    | none => rfl
    | some x =>
      obtain ⟨q', d⟩ := x
      obtain rfl : q' = q := hone _ hx
      cases d with
      | false => rfl
      | true => exact absurd ((h.2 q' t).gone hx) (by simp [halive])
  unfold System.getOrCreateProducerInfo
  simp only [hhelper]
  split
  · exact h
  · refine ⟨h.1, fun q' t' => ?_⟩
    have hok := h.2 q' t'
    simp only [update_apply]
    constructor <;> grind [Ok]

theorem inv_exit (h : Inv s) (hlife : (s.threads t).life = .running)
    (hs : s.step (.exit t) = some s') : Inv s' := by
  simp only [System.step, hlife, if_true] at hs
  split at hs <;> cases hs
  all_goals
    refine ⟨h.1, fun q' t' => ?_⟩
    have hok := h.2 q' t'
    simp only [System.setLife, update_apply]
    constructor <;> grind [Ok]

theorem mem_onThreadExit {empty : Bool} (hmap : t ∈ queue.producerMap)
    (hp : ⟨t', true⟩ ∈ (queue.onThreadExit t empty).activeProducers) :
    t' ≠ t ∧ ⟨t', true⟩ ∈ queue.activeProducers := by
  simp only [Queue.onThreadExit, if_pos hmap] at hp
  cases empty with
  | true => simpa [and_comm] using hp
  | false =>
    obtain ⟨⟨thread, active⟩, hmem, heq⟩ := List.mem_map.mp hp
    simp only [Producer.mk.injEq, Bool.and_eq_true, decide_eq_true_eq] at heq
    obtain ⟨rfl, rfl, hne⟩ := heq
    exact ⟨hne, hmem⟩

theorem inv_callback {empty : Bool} (h : Inv s) (hs : s.step (.callback t empty) = some s') :
    Inv s' := by
  simp only [System.step] at hs
  split at hs
  · rename_i q hcall
    rw [if_pos ((h.2 q t).calling hcall)] at hs
    cases hs
    refine ⟨h.1, fun q' t' => ?_⟩
    have hok := h.2 q' t'
    have hmem := @mem_onThreadExit t t' (s.queues q) empty
    simp only [System.setLife, update_apply]
    constructor <;> grind [Ok, Queue.onThreadExit]
  · cases hs

theorem inv_destroy (h : Inv s) (hc : ∀ t, (s.threads t).life ≠ .calling q) :
    Inv (s.destroy q) := by
  refine ⟨h.1, fun q' t' => ?_⟩
  have hok := h.2 q' t'
  have hok₂ := h.2 q t'
  simp only [System.destroy, update_apply]
  constructor <;> grind [Ok]

theorem inv_step {e : Event} (h : Inv s) (hc : s.Single e) (hs : s.step e = some s') : Inv s' := by
  cases e with
  | enqueue t q =>
    obtain ⟨hg, rfl⟩ := guard_eq_some hs
    exact inv_enqueue h hg.1 hg.2 hc
  | exit t =>
    by_cases hlife : (s.threads t).life = .running
    · exact inv_exit h hlife hs
    · simp [System.step, hlife] at hs
  | callback t empty => exact inv_callback h hs
  | destroy q =>
    obtain ⟨-, rfl⟩ := guard_eq_some hs
    exact inv_destroy h hc

/-- **A thread that has exited is registered nowhere**, and no callback is made on a queue that has
gone. -/
theorem exited_unregistered (h : Run System.step System.Single .init s) :
    s.misled = false ∧ ∀ t q, (s.threads t).life = .exited → (s.queues q).alive = true →
      t ∉ (s.queues q).producerMap ∧ ∀ p ∈ (s.queues q).activeProducers, p.thread = t →
        p.active = false := by
  have hinit : Inv .init := ⟨rfl, fun q t => ⟨nofun, nofun, nofun, nofun, nofun, nofun⟩⟩
  have hinv : Inv s := h.invariant hinit fun _ _ _ h hc hs => inv_step h hc hs
  refine ⟨hinv.1, fun t q hexit _ => ?_⟩
  have hnot : t ∉ (s.queues q).producerMap := by
    intro hmem
    rcases (hinv.2 q t).known hmem with ⟨hrun, -⟩ | hcall
    · cases hexit.symm.trans hrun
    · cases hexit.symm.trans hcall
  refine ⟨hnot, fun p hp ht => ?_⟩
  obtain ⟨thread, active⟩ := p
  subst ht
  cases active with
  | false => rfl
  | true => exact absurd ((hinv.2 q thread).listed hp) hnot

/-- Thread 1 produces to queue 0 and exits. -/
theorem exited_unregistered_one : ∃ s, Run System.step System.Single .init s ∧
    (s.threads 1).life = .exited ∧ 1 ∉ (s.queues 0).producerMap := by
  obtain ⟨s, hrun, hexit, halive⟩ : ∃ s, Run System.step System.Single .init s ∧
      (s.threads 1).life = .exited ∧ (s.queues 0).alive = true := by
    refine ⟨_, Run.of_exec_meet [.enqueue 1 0, .exit 1, .callback 1 true] rfl ?_, rfl, rfl⟩
    exact ⟨nofun, fun _ _ => ⟨trivial, fun _ _ => ⟨trivial, fun _ _ => trivial⟩⟩⟩
  exact ⟨s, hrun, hexit, ((exited_unregistered hrun).2 1 0 hexit halive).1⟩

/-- A second queue is not told; and a queue that goes at the wrong moment is called. -/
theorem exit_goes_wrong :
    (∃ s, Reach System.step .init s ∧ (s.threads 1).life = .exited ∧ (s.queues 2).alive = true ∧
      1 ∈ (s.queues 2).producerMap) ∧ ∃ s, Reach System.step .init s ∧ s.misled = true :=
  ⟨⟨_, Run.of_exec [.enqueue 1 0, .enqueue 1 2, .exit 1, .callback 1 true] rfl, rfl, rfl,
    by decide⟩, _, Run.of_exec [.enqueue 1 0, .exit 1, .destroy 0, .callback 1 true] rfl, rfl⟩

end FalconFS.ThreadExit
