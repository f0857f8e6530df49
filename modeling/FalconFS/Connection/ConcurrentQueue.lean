/-
# The concurrent queue of the connection pool

`falcon_concurrent_queue.h`: every producer thread has a lock-free queue of its own, which is
registered when the thread enqueues for the first time; consumers hold `producers_mutex_` shared
and go round the registered queues; a producer that exits takes its queue off the list when its
counter `approx_size` is zero and marks it inactive otherwise, and the garbage collector takes
inactive queues with counter zero off the list later.

The machine here takes every interleaving.  One event is one access to what threads share: one
`push` or `pop` of a lock-free queue (which is taken to be linearizable, so that an operation
happens at one moment), one `fetch_add` or `fetch_sub`, one acquisition of the mutex, one entry that
the collector looks at.  Only what runs under the exclusive lock and cannot be seen half done is one
event: the registration of a producer and its exit.

* A `ProducerInfo` is named by the thread that made it.  Thread ids are used again, so that a thread
  is an id and a number.  `Inv.unborn` says that a new thread finds no object of its name.
* `enqueued` and `dequeued` record what was pushed and what was handed to callers, in this order;
  no step reads them, but an item gets its place in `enqueued` as its name.
* The collector's loop is `for (it = begin; it != end; it++) if (...) it = erase(it)`.  When it
  erases the last entry, `erase` returns `end()` and the loop steps behind it, to `Gc.pastEnd`.
  What the program does from there on is undefined, and no event can happen any more.

`size_approx`, `empty` and `active_producer_count` change nothing and are left out, as are the
statistics and the destructor.
-/
import FalconFS.Lib.Lanes
import FalconFS.Lib.Tally
import Mathlib.Data.List.DropRight

namespace FalconFS.ConcurrentQueue

open Function

/-! ## 1. The state -/

/-- The `life`-th thread with the id `tid`. -/
structure Producer (Thread : Type) where
  tid : Thread
  life : Nat
  deriving DecidableEq, Repr

abbrev Item (Thread T : Type) := Lanes.Item (Producer Thread) T

structure ProducerInfo (Thread T : Type) where
  queue : List (Item Thread T) := []
  approxSize : Nat := 0
  active : Bool := true

/-- `QueueTraits`. -/
structure Traits where
  batchThreshold : Nat := 32
  singleConsumer : Bool := false

/-- What the last call of a thread returned. -/
inductive Returned (T : Type)
  | nothing
  | enqueue (success : Bool)
  | dequeue (value : Option T)
  | dequeueBulk (totalDequeued : Nat)
  deriving DecidableEq, Repr

/-- The locals of the outer loop of `dequeue_bulk_from_producers`. -/
structure Bulk where
  maxCount : Nat
  startIndex : Nat
  i : Nat
  totalStolen : Nat
  deriving DecidableEq, Repr

/-- Where a thread is.  `bulk` tells `enqueue_bulk_to_producer` from a loop over `enqueue`, in which
`rest` is what is still to be enqueued and `allSuccess` the answer so far. -/
inductive Pc (Thread T : Type)
  | idle (returned : Returned T)
  -- `get_or_create_producer_info`, about to look under the shared lock, or under the exclusive one
  | find (bulk : Bool) (value : T) (rest : List T) (allSuccess : Bool)
  | create (bulk : Bool) (value : T) (rest : List T) (allSuccess : Bool)
  -- `enqueue_to_producer`, about to push, or to count what it pushed
  | pushOne (p : Producer Thread) (value : T) (rest : List T) (allSuccess : Bool)
  | countOne (p : Producer Thread) (rest : List T) (allSuccess : Bool)
  -- `enqueue_bulk_to_producer`
  | pushBulk (p : Producer Thread) (value : T) (rest : List T) (successCount : Nat)
  | countBulk (p : Producer Thread) (successCount : Nat) (allSuccess : Bool)
  -- about to take the shared lock, in `dequeue` or in `dequeue_bulk`
  | lockShared (maxCount : Option Nat)
  -- `try_dequeue_from_producers`: at the `i`-th producer; with an item, before the counter is
  -- lowered and after that
  | tryPop (startIndex i : Nat)
  | subOne (p : Producer Thread) (x : Item Thread T)
  | checkOne (p : Producer Thread) (x : Item Thread T)
  -- `dequeue_bulk_from_producers`: at the head of the outer loop; at a producer of which `stolen`
  -- items were consumed; with an item that `func` has not seen; before and after the `fetch_sub`
  | scan (b : Bulk)
  | consume (b : Bulk) (p : Producer Thread) (stolen : Nat)
  | func (b : Bulk) (p : Producer Thread) (stolen : Nat) (x : Item Thread T)
  | subStolen (b : Bulk) (p : Producer Thread) (stolen : Nat)
  | check (b : Bulk) (p : Producer Thread)

/-- Where the garbage collector is. -/
inductive Gc
  | starting
  | waiting
  | scanning (it : Nat)
  | pastEnd
  deriving DecidableEq, Repr

/-- The collector holds `producers_mutex_`. -/
def Gc.locks : Gc → Bool
  | .scanning _ => true
  | _ => false

structure State (Thread T : Type) where
  info : Producer Thread → ProducerInfo Thread T
  producerMap : Thread → Option (Producer Thread)
  activeProducers : List (Producer Thread)
  needGC : Bool
  gc : Gc
  /-- `consumer_thread_id_`, once `has_consumer_` is set. -/
  consumer : Option Thread
  /-- Who is in a dequeue and holds `producers_mutex_` shared. -/
  readers : List Thread
  pc : Thread → Pc Thread T
  dequeueIndex : Thread → Nat
  dequeueBulkIndex : Thread → Nat
  life : Thread → Nat
  enqueued : List (Item Thread T)
  dequeued : List (Thread × Item Thread T)

variable {Thread T : Type}

def State.init : State Thread T where
  info _ := {}
  producerMap _ := none
  activeProducers := []
  needGC := false
  gc := .starting
  consumer := none
  readers := []
  pc _ := .idle .nothing
  dequeueIndex _ := 0
  dequeueBulkIndex _ := 0
  life _ := 0
  enqueued := []
  dequeued := []

/-- The counters are `size_t`. -/
def fetchAdd (a n : Nat) : Nat := (a + n) % 2 ^ 64

def fetchSub (a n : Nat) : Nat := (a + (2 ^ 64 - n % 2 ^ 64)) % 2 ^ 64

namespace State

/-- What the collector takes off the list. -/
def collectible (s : State Thread T) (p : Producer Thread) : Bool :=
  (s.info p).approxSize == 0 && !(s.info p).active

/-- `active_producers_[(start_index + i) % active_producers_.size()]`. -/
def producerAt (s : State Thread T) (startIndex i : Nat) : Option (Producer Thread) :=
  s.activeProducers[(startIndex + i) % s.activeProducers.length]?

/-- `if (approx_size == 0) if (!active) needGC = true`. -/
def needGCAfter (s : State Thread T) (p : Producer Thread) : Bool :=
  s.needGC || s.collectible p

variable [DecidableEq Thread]

def goto (s : State Thread T) (t : Thread) (pc : Pc Thread T) : State Thread T :=
  { s with pc := update s.pc t pc }

def setInfo (s : State Thread T) (p : Producer Thread) (i : ProducerInfo Thread T) :
    State Thread T :=
  { s with info := update s.info p i }

end State

/-! ## 2. The calls -/

inductive Call (T : Type)
  | enqueue (value : T)
  | enqueueBulk (values : List T)
  | dequeue
  | dequeueBulk (maxCount : Nat)

inductive Event (Thread T : Type)
  | call (t : Thread) (c : Call T)
  /-- The thread goes on; `memory` says whether a `push` finds a node. -/
  | resume (t : Thread) (memory : Bool)
  | exit (t : Thread)
  | gc
  | setConsumer (t : Thread)

/-- The loop of `enqueue_bulk` over `enqueue`; a single `enqueue` is the loop over one value. -/
def enqueueNext (rest : List T) (allSuccess : Bool) : Pc Thread T :=
  match rest with
  | [] => .idle (.enqueue allSuccess)
  | value :: rest => .find false value rest allSuccess

section Steps

variable [DecidableEq Thread]

/-- `is_consumer_thread`, asked only of queues with one consumer. -/
def State.mayDequeue (traits : Traits) (s : State Thread T) (t : Thread) : Bool :=
  !traits.singleConsumer || s.consumer == some t

def enter (traits : Traits) (s : State Thread T) (t : Thread) : Call T → Pc Thread T
  | .enqueue value => enqueueNext [value] true
  | .enqueueBulk [] => .idle (.enqueue true)
  | .enqueueBulk (value :: rest) =>
    .find (decide (traits.batchThreshold < (value :: rest).length)) value rest true
  | .dequeue =>
    if s.mayDequeue traits t then .lockShared none else .idle (.dequeue none)
  | .dequeueBulk maxCount =>
    if s.mayDequeue traits t then
      if maxCount = 0 then .idle (.dequeueBulk 0) else .lockShared (some maxCount)
    else .idle (.dequeueBulk 0)

/-- `get_or_create_producer_info` returned `p`. -/
def pushTo (bulk : Bool) (p : Producer Thread) (value : T) (rest : List T) (allSuccess : Bool) :
    Pc Thread T :=
  if bulk then .pushBulk p value rest 0 else .pushOne p value rest allSuccess

section

variable (s : State Thread T)

/-- A successful `queue.push`. -/
def State.push (p : Producer Thread) (value : T) : State Thread T :=
  let x : Item Thread T := ⟨s.enqueued.length, p, value⟩
  { s.setInfo p { s.info p with queue := (s.info p).queue ++ [x] } with
    enqueued := s.enqueued ++ [x] }

/-- Every node of a queue has an address of its own, so that no push finds a node for the
`2 ^ 64`-th item. -/
def State.hasNode (p : Producer Thread) (memory : Bool) : Bool :=
  memory && decide ((s.info p).queue.length + 1 < 2 ^ 64)

/-- A successful `queue.pop`, which leaves `queue`. -/
def State.pop (p : Producer Thread) (queue : List (Item Thread T)) : State Thread T :=
  s.setInfo p { s.info p with queue := queue }

def State.count (p : Producer Thread) (approxSize : Nat) : State Thread T :=
  s.setInfo p { s.info p with approxSize := approxSize }

/-- The thread `t` gives the shared lock back and returns. -/
def State.leave (t : Thread) (r : Returned T) : State Thread T :=
  { s with readers := s.readers.erase t, pc := update s.pc t (.idle r) }

/-- The item is the caller's. -/
def State.handOver (t : Thread) (x : Item Thread T) : State Thread T :=
  { s with dequeued := s.dequeued ++ [(t, x)] }

/-- The shared lock, and the start of `try_dequeue_from_producers` and of
`dequeue_bulk_from_producers` under it.  Each of the two has its own thread-local index. -/
def State.lockShared (t : Thread) (maxCount : Option Nat) : State Thread T :=
  match maxCount with
  | none =>
    { s with
      readers := t :: s.readers
      dequeueIndex := update s.dequeueIndex t (fetchAdd (s.dequeueIndex t) 1)
      pc := update s.pc t (.tryPop (s.dequeueIndex t % s.activeProducers.length) 0) }
  | some maxCount =>
    { s with
      readers := t :: s.readers
      dequeueBulkIndex := update s.dequeueBulkIndex t (fetchAdd (s.dequeueBulkIndex t) 1)
      pc := update s.pc t
        (.scan ⟨maxCount, s.dequeueBulkIndex t % s.activeProducers.length, 0, 0⟩) }

/-- A producer enters the map and the list. -/
def State.register (t : Thread) : State Thread T :=
  let p : Producer Thread := ⟨t, s.life t⟩
  { s.setInfo p {} with
    producerMap := update s.producerMap t (some p)
    activeProducers := s.activeProducers ++ [p] }

/-- What the thread `t` does next. -/
def resume (t : Thread) (memory : Bool) : Option (State Thread T) :=
  match s.pc t with
  | .idle _ => none
  | .find bulk value rest allSuccess =>
    if s.gc.locks then none
    else match s.producerMap t with
      | some p => some (s.goto t (pushTo bulk p value rest allSuccess))
      | none => some (s.goto t (.create bulk value rest allSuccess))
  | .create bulk value rest allSuccess =>
    if s.gc.locks || !s.readers.isEmpty then none
    else match s.producerMap t with
      | some p => some (s.goto t (pushTo bulk p value rest allSuccess))
      | none =>
        some ((s.register t).goto t (pushTo bulk ⟨t, s.life t⟩ value rest allSuccess))
  | .pushOne p value rest allSuccess =>
    if s.hasNode p memory then some ((s.push p value).goto t (.countOne p rest allSuccess))
    else some (s.goto t (enqueueNext rest false))
  | .countOne p rest allSuccess =>
    some ((s.count p (fetchAdd (s.info p).approxSize 1)).goto t (enqueueNext rest allSuccess))
  | .pushBulk p value rest successCount =>
    if s.hasNode p memory then
      match rest with
      | [] => some ((s.push p value).goto t (.countBulk p (successCount + 1) true))
      | next :: rest => some ((s.push p value).goto t (.pushBulk p next rest (successCount + 1)))
    else some (s.goto t (.countBulk p successCount false))
  | .countBulk p successCount allSuccess =>
    some ((s.count p (fetchAdd (s.info p).approxSize successCount)).goto t
      (.idle (.enqueue allSuccess)))
  | .lockShared maxCount =>
    if s.gc.locks then none
    else if s.activeProducers.isEmpty then
      some (s.goto t (.idle (maxCount.elim (.dequeue none) fun _ => .dequeueBulk 0)))
    else some (s.lockShared t maxCount)
  | .tryPop startIndex i =>
    if i < s.activeProducers.length then
      match s.producerAt startIndex i with
      | none => none
      | some p =>
        match (s.info p).queue with
        | [] => some (s.goto t (.tryPop startIndex (i + 1)))
        | x :: queue => some ((s.pop p queue).goto t (.subOne p x))
    else some (s.leave t (.dequeue none))
  | .subOne p x =>
    some ((s.count p (fetchSub (s.info p).approxSize 1)).goto t (.checkOne p x))
  | .checkOne p x =>
    some { (s.handOver t x).leave t (.dequeue (some x.value)) with needGC := s.needGCAfter p }
  | .scan b =>
    if b.i < s.activeProducers.length ∧ b.totalStolen < b.maxCount then
      match s.producerAt b.startIndex b.i with
      | none => none
      | some p => some (s.goto t (.consume b p 0))
    else some (s.leave t (.dequeueBulk b.totalStolen))
  | .consume b p stolen =>
    if stolen < b.maxCount - b.totalStolen then
      match (s.info p).queue with
      | [] => some (s.goto t (.subStolen b p stolen))
      | x :: queue => some ((s.pop p queue).goto t (.func b p stolen x))
    else some (s.goto t (.subStolen b p stolen))
  | .func b p stolen x => some ((s.handOver t x).goto t (.consume b p (stolen + 1)))
  | .subStolen b p stolen =>
    if 0 < stolen then
      some ((s.count p (fetchSub (s.info p).approxSize stolen)).goto t
        (.check { b with totalStolen := b.totalStolen + stolen } p))
    else some (s.goto t (.check b p))
  | .check b p =>
    some { s.goto t (.scan { b with i := b.i + 1 }) with needGC := s.needGCAfter p }

/-- The thread is gone, and its id and thread-local data are as new. -/
def State.forget (t : Thread) : State Thread T :=
  { s with
    producerMap := update s.producerMap t none
    pc := update s.pc t (.idle .nothing)
    dequeueIndex := update s.dequeueIndex t 0
    dequeueBulkIndex := update s.dequeueBulkIndex t 0
    life := update s.life t (s.life t + 1) }

/-- `on_thread_exit`. -/
def onThreadExit (t : Thread) : State Thread T :=
  match s.producerMap t with
  | none => s.forget t
  | some p =>
    if (s.info p).approxSize = 0 then
      { s.forget t with activeProducers := s.activeProducers.filter (· != p) }
    else (s.setInfo p { s.info p with active := false }).forget t

/-- One step of `GarbageCollectWorker`: to take the lock, at the start or when it is woken; to look
at one entry; to wait, at the end of the list. -/
def garbageCollect : Option (State Thread T) :=
  match s.gc with
  | .starting => if s.readers.isEmpty then some { s with gc := .scanning 0 } else none
  | .waiting =>
    if s.needGC && s.readers.isEmpty then some { s with gc := .scanning 0 } else none
  | .scanning it =>
    match s.activeProducers[it]? with
    | none => some { s with gc := .waiting, needGC := false }
    | some p =>
      if s.collectible p then
        -- `erase` returns the place of the next entry, and `it++` passes that one
        some { s with
          activeProducers := s.activeProducers.eraseIdx it
          gc := if it + 1 < s.activeProducers.length then .scanning (it + 1) else .pastEnd }
      else some { s with gc := .scanning (it + 1) }
  | .pastEnd => none

end

def step (traits : Traits) (s : State Thread T) (e : Event Thread T) : Option (State Thread T) :=
  if s.gc = .pastEnd then none
  else match e with
    | .call t c =>
      match s.pc t with
      | .idle _ => some (s.goto t (enter traits s t c))
      | _ => none
    | .resume t memory => resume s t memory
    | .exit t =>
      match s.pc t with
      | .idle _ =>
        -- only a thread that was registered has an `exit_helper` to call back
        if (s.producerMap t).isSome && (s.gc.locks || !s.readers.isEmpty) then none
        else some (onThreadExit s t)
      | _ => none
    | .gc => garbageCollect s
    | .setConsumer t => some { s with consumer := some t }

end Steps

end FalconFS.ConcurrentQueue
