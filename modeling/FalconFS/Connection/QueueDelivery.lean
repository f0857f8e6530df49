/-
# Every item is delivered

The main result about the concurrent queue, `delivers_of_evenPasses`: in every run whose collector
passes all begin with an even number of collectible entries at the end of the list, nothing is
dequeued twice, nothing is lost, and a consumer gets the items of a producer thread in their order.

That nothing is lost means that the run can go on to a state in which the item is with a caller,
from ANY state of the run, whoever is in the middle of what (`Good.laterDequeued`).  The
continuation is the obvious one, and the work is to show that it is never stuck: a thread in a call
can take a step, and each of its steps brings it nearer to the end (`Inv.closer`).

Without the condition the promise is broken (`last_entry_collected`).
-/
import FalconFS.Connection.QueueCounters

namespace FalconFS.ConcurrentQueue

open Function Machine Tally State List

variable {Thread T : Type} [DecidableEq Thread] {s s' : State Thread T} {t : Thread}
  {pc : Pc Thread T} {traits : Traits}

/-! ## 1. A later dequeue

An item in a listed queue is reached by a consumer that goes on while the others rest.  First the
collector finishes its pass, then a thread finishes its call, and then this thread dequeues. -/

/-- The item was handed to a caller. -/
def State.Dequeued (s : State Thread T) (x : Item Thread T) : Prop := ∃ c, (c, x) ∈ s.dequeued

/-- The item can still be handed to a caller. -/
def State.LaterDequeued (traits : Traits) (s : State Thread T) (x : Item Thread T) : Prop :=
  ∃ s', Reach (step traits) s s' ∧ s'.Dequeued x

theorem Inv.run_resume (h : Inv s) (memory : Bool) (hs : resume s t memory = some s') :
    EvenRun traits s s' := by
  refine Run.refl.tail (e := .resume t memory) trivial ?_
  rw [step, if_neg h.defined]
  exact hs

/-- **The collector finishes its pass.** -/
theorem Good.finishPass (h : Good s) : ∃ s', EvenRun traits s s' ∧ s'.gc.locks = false := by
  cases hgc : s.gc with
  | scanning it =>
    obtain ⟨s', hrun, hend⟩ := pass_ends traits _ hgc (Nat.lt_succ_self _)
    rw [if_pos (h.inv.even it hgc)] at hend
    exact ⟨s', hrun, by rw [hend]; rfl⟩
  | _ => exact ⟨s, .refl, by rw [hgc]; rfl⟩

/-- How many items are in listed queues. -/
def State.backlog (s : State Thread T) : Nat :=
  tally (fun p => (s.info p).queue.length) s.activeProducers

/-- How far a thread is from the end of its call, with `n` queues on the list. -/
def Pc.distance (n : Nat) : Pc Thread T → Nat
  | .idle _ => 0
  | .find _ _ rest _ => 4 * rest.length + 7
  | .create _ _ rest _ => 4 * rest.length + 6
  | .pushOne _ _ rest _ | .pushBulk _ _ rest _ => 4 * rest.length + 5
  | .countOne _ rest _ => 4 * rest.length + 4
  | .countBulk .. => 1
  | .lockShared _ => 4 * n + 5
  | .tryPop _ i => 4 * (n - i) + 3
  | .subOne .. => 2
  | .checkOne .. => 1
  | .scan b => 4 * (n - b.i) + 1
  | .consume b .. => 4 * max 1 (n - b.i)
  | .func b .. => 4 * max 1 (n - b.i) + 1
  | .subStolen b .. => 4 * max 1 (n - b.i) - 1
  | .check b _ => 4 * max 1 (n - b.i) - 2

def State.distance (s : State Thread T) (t : Thread) : Nat :=
  (s.pc t).distance s.activeProducers.length + 2 * s.backlog

variable {p : Producer Thread} {x : Item Thread T} {queue : List (Item Thread T)}
  {pc' : Pc Thread T}

theorem backlog_setInfo {i : ProducerInfo Thread T} (h : i.queue = (s.info p).queue) :
    (s.setInfo p i).backlog = s.backlog := by
  refine tally_congr _ fun q _ => ?_
  dsimp only [setInfo]
  by_cases hq : q = p
  · rw [hq, update_self, h]
  · rw [update_of_ne hq]

theorem Inv.backlog_pop (h : Inv s) (hfront : (s.info p).queue = x :: queue) :
    (s.pop p queue).backlog < s.backlog := by
  have hlisted : p ∈ s.activeProducers := h.listed p (by rw [hfront]; nofun)
  refine sum_lt_sum _ _ (fun q _ => ?_) ⟨p, hlisted, ?_⟩
  · dsimp only [pop, setInfo]
    by_cases hq : q = p
    · rw [hq, update_self, hfront]
      exact Nat.le_succ _
    · rw [update_of_ne hq]
  · dsimp only [pop, setInfo]
    rw [update_self, hfront]
    exact Nat.lt_succ_self _

theorem Inv.backlog_register (h : Inv s) (hnew : s.producerMap t = none) :
    (s.register t).backlog = s.backlog := by
  have hfresh := h.unborn ⟨t, s.life t⟩ (Nat.le_refl _) (by rw [hnew]; nofun)
  simp only [backlog, register, setInfo, tally_append, tally_cons, tally_nil,
    update_self, length_nil, Nat.add_zero]
  refine tally_congr _ fun q hq => ?_
  have hne : q ≠ ⟨t, s.life t⟩ := fun e => hfresh (e ▸ hq)
  rw [update_of_ne hne]

theorem backlog_count (p : Producer Thread) (n : Nat) : (s.count p n).backlog = s.backlog :=
  backlog_setInfo (i := { s.info p with approxSize := n }) rfl

omit [DecidableEq Thread] in
theorem distance_enqueueNext (n : Nat) (rest : List T) (b : Bool) :
    (enqueueNext rest b : Pc Thread T).distance n < 4 * rest.length + 4 := by
  cases rest with
  | nil => exact Nat.succ_pos _
  | cons value rest =>
    simp only [enqueueNext, Pc.distance, length_cons]
    omega

omit [DecidableEq Thread] in
theorem distance_pushTo (n : Nat) (bulk : Bool) (p : Producer Thread) (value : T) (rest : List T)
    (b : Bool) : (pushTo bulk p value rest b).distance n = 4 * rest.length + 5 := by
  cases bulk <;> rfl

/-- The thread, which was at `pc`, is nearer to the end of its call, and nothing was pushed. -/
def Closer (s : State Thread T) (t : Thread) (pc : Pc Thread T) (s' : State Thread T) : Prop :=
  s'.distance t < pc.distance s.activeProducers.length + 2 * s.backlog ∧ s'.backlog ≤ s.backlog

theorem Closer.goto
    (h : pc'.distance s.activeProducers.length < pc.distance s.activeProducers.length) :
    Closer s t pc (s.goto t pc') := by
  refine ⟨?_, Nat.le_refl _⟩
  simp only [State.distance, State.goto, update_self]
  exact Nat.add_lt_add_right h _

theorem Closer.count (p : Producer Thread) (a : Nat)
    (h : pc'.distance s.activeProducers.length < pc.distance s.activeProducers.length) :
    Closer s t pc ((s.count p a).goto t pc') := by
  have hgoto : Closer (s.count p a) t pc ((s.count p a).goto t pc') := .goto h
  rw [Closer, backlog_count] at hgoto
  exact hgoto

theorem Closer.pop (h : Inv s) (hfront : (s.info p).queue = x :: queue)
    (hpc' : pc'.distance s.activeProducers.length < pc.distance s.activeProducers.length + 2) :
    Closer s t pc ((s.pop p queue).goto t pc') := by
  have hless := h.backlog_pop hfront
  refine ⟨?_, hless.le⟩
  have hdist : ((s.pop p queue).goto t pc').distance t =
      pc'.distance s.activeProducers.length + 2 * (s.pop p queue).backlog := by
    simp only [State.distance, State.goto, update_self]
    rfl
  rw [hdist]
  omega

theorem Closer.leave (r : Returned T) (h : 0 < pc.distance s.activeProducers.length) :
    Closer s t pc (s.leave t r) := by
  refine ⟨?_, Nat.le_refl _⟩
  simp only [State.distance, State.leave, update_self]
  exact Nat.add_lt_add_right h _

omit [DecidableEq Thread] in
theorem producerAt_isSome (start i : Nat) (h : 0 < s.activeProducers.length) :
    ∃ p, s.producerAt start i = some p := by
  have hlt : (start + i) % s.activeProducers.length < s.activeProducers.length :=
    Nat.mod_lt _ h
  exact ⟨_, getElem?_eq_getElem hlt⟩

/-- **A thread in a call can go on** while the collector rests, if it is not kept out by others; and
when no push finds a node, **every step brings it nearer to the end of its call**. -/
theorem Inv.closer (h : Inv s) (hfree : s.gc.locks = false)
    (halone : s.readers = [] ∨ t ∈ s.readers) (hpc : s.pc t = pc) (hbusy : ∀ r, pc ≠ .idle r) :
    ∃ s', resume s t false = some s' ∧ Closer s t pc s' := by
  have hnode : ∀ p, s.hasNode p false = false := fun _ => rfl
  unfold resume
  rw [hpc]
  cases pc <;> dsimp only
  case idle r => exact absurd rfl (hbusy r)
  case find bulk value rest b =>
    simp only [hfree, Bool.false_eq_true, if_false]
    split
    · refine ⟨_, rfl, .goto ?_⟩
      rw [distance_pushTo]
      simp only [Pc.distance]
      omega
    · exact ⟨_, rfl, .goto (Nat.lt_succ_self _)⟩
  case create bulk value rest b =>
    have hreaders : s.readers = [] := by
      rcases halone with hnone | ht
      · exact hnone
      · have hreading := (h.reading t).mp ht
        rw [hpc] at hreading
        cases hreading
    have hnear (n : Nat) (p : Producer Thread) :
        (pushTo bulk p value rest b).distance n < 4 * rest.length + 6 := by
      rw [distance_pushTo]
      exact Nat.lt_succ_self _
    simp only [hfree, hreaders, isEmpty_nil, Bool.not_true, Bool.or_self, Bool.false_eq_true,
      if_false]
    split
    · exact ⟨_, rfl, .goto (hnear _ _)⟩
    · rename_i hnew
      have hgoto : Closer (s.register t) t (.create bulk value rest b)
          ((s.register t).goto t (pushTo bulk ⟨t, s.life t⟩ value rest b)) := .goto (hnear _ _)
      rw [Closer, h.backlog_register hnew] at hgoto
      exact ⟨_, rfl, hgoto⟩
  case pushOne p value rest b =>
    simp only [hnode, Bool.false_eq_true, if_false]
    exact ⟨_, rfl, .goto ((distance_enqueueNext _ rest false).trans (Nat.lt_succ_self _))⟩
  case countOne p rest b => exact ⟨_, rfl, .count p _ (distance_enqueueNext _ rest b)⟩
  case pushBulk p value rest n =>
    simp only [hnode, Bool.false_eq_true, if_false]
    exact ⟨_, rfl, .goto (by simp only [Pc.distance]; omega)⟩
  case countBulk p n b => exact ⟨_, rfl, .count p _ Nat.one_pos⟩
  case lockShared maxCount =>
    simp only [hfree, Bool.false_eq_true, if_false]
    split
    · exact ⟨_, rfl, .goto (Nat.succ_pos _)⟩
    · refine ⟨_, rfl, ?_, by cases maxCount <;> exact Nat.le_refl _⟩
      cases maxCount <;>
        simp only [distance, lockShared, update_self, Pc.distance,
          backlog] <;>
        omega
  case tryPop start i =>
    split
    · rename_i hin
      obtain ⟨p, hp⟩ := producerAt_isSome start i (Nat.zero_lt_of_lt hin)
      rw [hp]
      dsimp only
      split
      · exact ⟨_, rfl, .goto (by simp only [Pc.distance]; omega)⟩
      · exact ⟨_, rfl, .pop h ‹_› (by simp only [Pc.distance]; omega)⟩
    · exact ⟨_, rfl, .leave _ (Nat.succ_pos _)⟩
  case subOne p x => exact ⟨_, rfl, .count p _ (Nat.lt_succ_self 1)⟩
  case checkOne p x =>
    have hleave : Closer s t (.checkOne p x) (s.leave t (.dequeue (some x.value))) :=
      .leave _ Nat.one_pos
    exact ⟨_, rfl, hleave⟩
  case scan b =>
    split
    · rename_i hin
      obtain ⟨p, hp⟩ := producerAt_isSome b.startIndex b.i (Nat.zero_lt_of_lt hin.1)
      rw [hp]
      exact ⟨_, rfl, .goto (by simp only [Pc.distance]; omega)⟩
    · exact ⟨_, rfl, .leave _ (Nat.succ_pos _)⟩
  case consume b p stolen =>
    split
    · split
      · exact ⟨_, rfl, .goto (by simp only [Pc.distance]; omega)⟩
      · exact ⟨_, rfl, .pop h ‹_› (by simp only [Pc.distance]; omega)⟩
    · exact ⟨_, rfl, .goto (by simp only [Pc.distance]; omega)⟩
  case func b p stolen x =>
    have hgoto : Closer s t (.func b p stolen x) (s.goto t (.consume b p (stolen + 1))) :=
      .goto (Nat.lt_succ_self _)
    exact ⟨_, rfl, hgoto⟩
  case subStolen b p stolen =>
    split
    · exact ⟨_, rfl, .count p _ (by simp only [Pc.distance]; omega)⟩
    · exact ⟨_, rfl, .goto (by simp only [Pc.distance]; omega)⟩
  case check b p =>
    have hgoto : Closer s t (.check b p) (s.goto t (.scan { b with i := b.i + 1 })) :=
      .goto (by simp only [Pc.distance]; omega)
    exact ⟨_, rfl, hgoto⟩

/-- What a step of a thread does to the locks. -/
theorem Move.locks (h : Move s t pc s') :
    s'.gc = s.gc ∧ (s'.readers = s.readers ∨ t ∈ s'.readers ∨ ∃ r, s'.pc t = .idle r) := by
  cases h with
  | lock maxCount => cases maxCount <;> exact ⟨rfl, Or.inr (.inl mem_cons_self)⟩
  | leave r => exact ⟨rfl, Or.inr (.inr ⟨r, update_self ..⟩)⟩
  | ret x r => exact ⟨rfl, Or.inr (.inr ⟨r, update_self ..⟩)⟩
  | _ => exact ⟨rfl, Or.inl rfl⟩

/-- A thread that is between two calls while the collector rests. -/
structure Ready (s : State Thread T) (t : Thread) : Prop where
  free : s.gc.locks = false
  idle : ∃ r, s.pc t = .idle r

/-- **A thread finishes its call.** -/
theorem Good.settle (h : Good s) (hfree : s.gc.locks = false)
    (halone : s.readers = [] ∨ t ∈ s.readers) :
    ∃ s', EvenRun traits s s' ∧ Ready s' t ∧ s'.backlog ≤ s.backlog := by
  induction hd : s.distance t using Nat.strongRecOn generalizing s with
  | ind d ih =>
    by_cases hidle : ∃ r, s.pc t = .idle r
    · exact ⟨s, .refl, ⟨hfree, hidle⟩, Nat.le_refl _⟩
    · obtain ⟨s₁, hs₁, hnear, hback⟩ := h.inv.closer hfree halone rfl fun r hr => hidle ⟨r, hr⟩
      obtain ⟨hgc, hreaders⟩ := (resume_move rfl hs₁).locks
      have hone : EvenRun traits s s₁ := h.inv.run_resume false hs₁
      by_cases hdone : ∃ r, s₁.pc t = .idle r
      · exact ⟨s₁, hone, ⟨hgc ▸ hfree, hdone⟩, hback⟩
      · have halone₁ : s₁.readers = [] ∨ t ∈ s₁.readers := by
          rcases hreaders with hsame | ht | hr
          · rw [hsame]
            exact halone
          · exact .inr ht
          · exact absurd hr hdone
        obtain ⟨s', hrun, hready, hless⟩ :=
          ih _ (hd ▸ hnear) (h.run hone) (hgc ▸ hfree) halone₁ rfl
        exact ⟨s', hone.trans hrun, hready, hless.trans hback⟩

omit [DecidableEq Thread] in
/-- Every listed queue is met on the way round. -/
theorem producerAt_of_mem (start : Nat) (hp : p ∈ s.activeProducers) :
    ∃ j < s.activeProducers.length, s.producerAt start j = some p := by
  obtain ⟨k, hk⟩ := mem_iff_getElem?.mp hp
  obtain ⟨hlt, -⟩ := List.getElem?_eq_some_iff.mp hk
  generalize hn : s.activeProducers.length = n at hlt ⊢
  have hpos : 0 < n := Nat.zero_lt_of_lt hlt
  have hstart : start % n < n := Nat.mod_lt _ hpos
  refine ⟨(k + (n - start % n)) % n, Nat.mod_lt _ hpos, ?_⟩
  have hround : (start + (k + (n - start % n)) % n) % n = k := by
    have hsum : start % n + (k + (n - start % n)) = k + n := by omega
    rw [Nat.add_mod, Nat.mod_mod, ← Nat.add_mod_mod, Nat.mod_mod, Nat.add_mod_mod, hsum,
      Nat.add_mod_right, Nat.mod_eq_of_lt hlt]
  rw [producerAt, hn, hround, hk]

/-- **The loop of `try_dequeue_from_producers` takes an item if there is one ahead.** -/
theorem Good.takes (h : Good s) {start i j : Nat} (hpc : s.pc t = .tryPop start i) (hij : i ≤ j)
    (hj : j < s.activeProducers.length) (hp : s.producerAt start j = some p)
    (hne : (s.info p).queue ≠ []) :
    ∃ s', EvenRun traits s s' ∧ s'.gc = s.gc ∧ t ∈ s'.readers ∧ s'.backlog < s.backlog := by
  induction hd : j - i generalizing s i with
  | zero =>
    obtain rfl : i = j := by omega
    obtain ⟨x, queue, hfront⟩ := exists_cons_of_ne_nil hne
    have hs : resume s t false = some ((s.pop p queue).goto t (.subOne p x)) := by
      simp only [resume, hpc, if_pos hj, hp, hfront]
    refine ⟨_, h.inv.run_resume false hs, rfl, ?_, h.inv.backlog_pop hfront⟩
    exact (h.inv.reading t).mpr (by rw [hpc]; rfl)
  | succ d ih =>
    have hi : i < s.activeProducers.length := by omega
    obtain ⟨q, hq⟩ := producerAt_isSome (s := s) start i (Nat.zero_lt_of_lt hi)
    cases hqueue : (s.info q).queue with
    | nil =>
      have hs : resume s t false = some (s.goto t (.tryPop start (i + 1))) := by
        simp only [resume, hpc, if_pos hi, hq, hqueue]
      have hone : EvenRun traits s (s.goto t (.tryPop start (i + 1))) := h.inv.run_resume false hs
      obtain ⟨s', hrun, hgc, ht, hback⟩ := ih (h.run hone) (update_self ..)
        (by omega) hj hp hne (by omega)
      exact ⟨s', hone.trans hrun, hgc, ht, hback⟩
    | cons x queue =>
      have hs : resume s t false = some ((s.pop q queue).goto t (.subOne q x)) := by
        simp only [resume, hpc, if_pos hi, hq, hqueue]
      refine ⟨_, h.inv.run_resume false hs, rfl, ?_, h.inv.backlog_pop hqueue⟩
      exact (h.inv.reading t).mpr (by rw [hpc]; rfl)

/-- **A dequeue of a thread that runs alone takes an item, if a listed queue has one.** -/
theorem Good.dequeue (h : Good s) (hready : Ready s t) (hp : p ∈ s.activeProducers)
    (hne : (s.info p).queue ≠ []) :
    ∃ s', EvenRun traits s s' ∧ Ready s' t ∧ s'.backlog < s.backlog := by
  obtain ⟨hfree, r, hidle⟩ := hready
  have hlisted : s.activeProducers.isEmpty = false := by
    rw [isEmpty_eq_false_iff]
    exact ne_nil_of_mem hp
  have hdefined : s.gc ≠ .pastEnd := h.inv.defined
  -- the thread is made the consumer, calls `dequeue` and takes the shared lock
  have hset : EvenRun traits s { s with consumer := some t } := by
    refine Run.refl.tail (e := .setConsumer t) trivial ?_
    rw [step, if_neg hdefined]
  have hcall : EvenRun traits { s with consumer := some t }
      ({ s with consumer := some t }.goto t (.lockShared none)) := by
    refine Run.refl.tail (e := .call t .dequeue) trivial ?_
    rw [step, if_neg hdefined]
    simp [hidle, enter, mayDequeue]
  have hcalled := (h.run hset).run hcall
  have hlock : EvenRun traits ({ s with consumer := some t }.goto t (.lockShared none))
      (({ s with consumer := some t }.goto t (.lockShared none)).lockShared t none) := by
    refine hcalled.inv.run_resume (t := t) false ?_
    simp [resume, goto, hfree, hlisted]
  have hlocked := hcalled.run hlock
  obtain ⟨j, hj, hat⟩ := producerAt_of_mem (s.dequeueIndex t % s.activeProducers.length) hp
  obtain ⟨s₂, htake, hgc, hreading, hless⟩ :=
    hlocked.takes (update_self ..) (Nat.zero_le j) hj hat hne
  obtain ⟨s', hrest, hready', hback⟩ :=
    (hlocked.run htake).settle (hgc ▸ hfree) (.inr hreading)
  refine ⟨s', ?_, hready', lt_of_le_of_lt hback hless⟩
  exact (((hset.trans hcall).trans hlock).trans htake).trans hrest

/-- The last step of a `dequeue`. -/
theorem Good.returns (h : Good s) (hpc : s.pc t = .checkOne p x) :
    ∃ s', EvenRun traits s s' ∧ s'.Dequeued x := by
  have hs : resume s t false = some
      { (s.handOver t x).leave t (.dequeue (some x.value)) with needGC := s.needGCAfter p } := by
    simp only [resume, hpc]
  exact ⟨_, h.inv.run_resume false hs, t, mem_append_right _ mem_cons_self⟩

/-- **An item in the hands of a consumer reaches its caller.** -/
theorem Good.hand (h : Good s) (hheld : (s.pc t).held = some x) :
    ∃ s', EvenRun traits s s' ∧ s'.Dequeued x := by
  cases hpc : s.pc t with
  | subOne p y =>
    rw [hpc] at hheld
    obtain rfl : y = x := Option.some.inj hheld
    have hs : resume s t false =
        some ((s.count p (fetchSub (s.info p).approxSize 1)).goto t (.checkOne p y)) := by
      simp only [resume, hpc]
    have hone : EvenRun traits s _ := h.inv.run_resume false hs
    obtain ⟨s', hrun, hdone⟩ := (h.run hone).returns (update_self ..)
    exact ⟨s', hone.trans hrun, hdone⟩
  | checkOne p y =>
    rw [hpc] at hheld
    obtain rfl : y = x := Option.some.inj hheld
    exact h.returns hpc
  | func b p stolen y =>
    rw [hpc] at hheld
    obtain rfl : y = x := Option.some.inj hheld
    have hs : resume s t false = some ((s.handOver t y).goto t (.consume b p (stolen + 1))) := by
      simp only [resume, hpc]
    exact ⟨_, h.inv.run_resume false hs, t, mem_append_right _ mem_cons_self⟩
  | _ => rw [hpc] at hheld; cases hheld

/-- **Every item reaches a caller**, from a thread that is ready. -/
theorem Good.later (h : Good s) (hready : Ready s t) (hx : x ∈ s.enqueued) :
    ∃ s', EvenRun traits s s' ∧ s'.Dequeued x := by
  induction hw : s.backlog using Nat.strongRecOn generalizing s with
  | ind w ih =>
    rcases h.sound.placed x hx with (hgot | ⟨c, hc⟩) | hqueue
    · exact ⟨s, .refl, hgot⟩
    · exact h.hand hc
    · have hne : (s.info x.lane).queue ≠ [] := ne_nil_of_mem hqueue
      obtain ⟨s₁, hrun, hready₁, hless⟩ := h.dequeue hready (h.inv.listed _ hne) hne
      obtain ⟨s', hrest, hdone⟩ :=
        ih _ (hw ▸ hless) (h.run hrun) hready₁ (h.enqueued_run hrun hx) rfl
      exact ⟨s', hrun.trans hrest, hdone⟩

/-- **Every item reaches a caller.** -/
theorem Good.laterDequeued (h : Good s) (hx : x ∈ s.enqueued) : s.LaterDequeued traits x := by
  obtain ⟨s₁, hpass, hfree⟩ := h.finishPass
  have h₁ := h.run hpass
  -- a consumer that is on its way, or the producer of the item
  obtain ⟨t, halone⟩ : ∃ t, s₁.readers = [] ∨ t ∈ s₁.readers := by
    cases hr : s₁.readers with
    | nil => exact ⟨x.lane.tid, Or.inl rfl⟩
    | cons t rest => exact ⟨t, Or.inr mem_cons_self⟩
  obtain ⟨s₂, hcall, hready, -⟩ := h₁.settle hfree halone
  have h₂ := h₁.run hcall
  obtain ⟨s', hrun, hdone⟩ := h₂.later hready (h₁.enqueued_run hcall (h.enqueued_run hpass hx))
  refine ⟨s', ?_, hdone⟩
  exact ((hpass.trans hcall).trans hrun).mono fun _ _ _ => trivial

/-! ## 2. What the queue promises -/

/-- **The promise** in the state `s`. -/
structure Delivers (traits : Traits) (s : State Thread T) : Prop where
  /-- An item is named by its place among all that was enqueued, so that no two are confused. -/
  named : s.enqueued.map Lanes.Item.id = range s.enqueued.length
  /-- Nothing is dequeued twice, and nothing that was not enqueued. -/
  once : (s.dequeued.map Prod.snd).Nodup ∧ ∀ x, s.Dequeued x → x ∈ s.enqueued
  /-- Nothing is lost. -/
  kept : ∀ x ∈ s.enqueued, s.Dequeued x ∨ s.LaterDequeued traits x
  /-- A consumer gets the items of one producer thread in the order in which they were enqueued. -/
  ordered : s.dequeued.Pairwise fun a b => a.1 = b.1 → a.2.lane = b.2.lane → a.2.id < b.2.id

/-- **In every run whose passes all begin with an even number of collectible entries at the end of
the list, the queue keeps its promise in every state.** -/
theorem delivers_of_evenPasses (traits : Traits) (s : State Thread T)
    (h : Run (step traits) EvenPass State.init s) : Delivers traits s := by
  have hgood : Good s := Good.init.run h
  exact ⟨hgood.sound.ids, ⟨hgood.sound.once, fun x hx => hgood.sound.taken_sent x (.inl hx)⟩,
    fun x hx => Or.inr (hgood.laterDequeued hx), hgood.sound.ordered⟩

/-- Three producers enqueue, the second one exits with its item in its queue, and a consumer takes
the items of the first two; then the collector takes the second off the middle of the list. -/
def collectedInside : List (Event Nat Nat) :=
  .call 0 (.enqueue 10) :: replicate 4 (.resume 0 true) ++
  .call 1 (.enqueue 20) :: replicate 4 (.resume 1 true) ++
  .call 3 (.enqueue 30) :: replicate 4 (.resume 3 true) ++
  .exit 1 ::
  .call 2 .dequeue :: replicate 4 (.resume 2 true) ++
  .call 2 (.dequeueBulk 1) :: replicate 12 (.resume 2 true) ++
  replicate 4 .gc

theorem delivers_collectedInside : ∃ s : State Nat Nat,
    s.activeProducers = [⟨0, 0⟩, ⟨3, 0⟩] ∧ s.dequeued.length = 2 ∧ Delivers {} s := by
  have hexec : (exec (fun s e => if EvenPass s e then step {} s e else none)
      (init : State Nat Nat) collectedInside).map
        (fun s => (s.activeProducers, s.dequeued.length)) = some ([⟨0, 0⟩, ⟨3, 0⟩], 2) := by
    decide
  obtain ⟨s, hs, hproj⟩ := Option.map_eq_some_iff.mp hexec
  obtain ⟨hlist, hgot⟩ := Prod.mk.inj hproj
  exact ⟨s, hlist, hgot, delivers_of_evenPasses {} s (Run.of_exec_if _ hs)⟩

/-- Nothing happens behind the end of the list. -/
theorem stuck_of_pastEnd (hgc : s.gc = .pastEnd) (h : Reach (step traits) s s') : s' = s := by
  induction h with
  | refl => rfl
  | tail _ _ hs ih =>
    rw [ih] at hs
    simp only [step, hgc, if_true] at hs
    cases hs

/-- Of two producers the second one exits, a consumer takes an item of each, the first one enqueues
again, and the collector finds the second one at the end of the list. -/
def lastCollected : List (Event Nat Nat) :=
  .call 0 (.enqueue 10) :: replicate 4 (.resume 0 true) ++
  .call 1 (.enqueue 20) :: replicate 4 (.resume 1 true) ++
  .exit 1 ::
  .call 2 .dequeue :: replicate 4 (.resume 2 true) ++
  .call 2 .dequeue :: replicate 4 (.resume 2 true) ++
  .call 0 (.enqueue 11) :: replicate 3 (.resume 0 true) ++
  replicate 3 .gc

/-- **The collector erases the last entry and steps behind the end of the list**, and the item that
is still in a queue is lost. -/
theorem last_entry_collected : ∃ s : State Nat Nat,
    Reach (step {}) State.init s ∧ ¬Delivers {} s := by
  have hexec : (exec (step {}) (init : State Nat Nat) lastCollected).map
      (fun s => (s.gc, s.enqueued, s.dequeued.map Prod.snd)) =
        some (.pastEnd, [⟨0, ⟨0, 0⟩, 10⟩, ⟨1, ⟨1, 0⟩, 20⟩, ⟨2, ⟨0, 0⟩, 11⟩],
          [⟨0, ⟨0, 0⟩, 10⟩, ⟨1, ⟨1, 0⟩, 20⟩]) := by
    decide
  obtain ⟨s, hs, hproj⟩ := Option.map_eq_some_iff.mp hexec
  simp only [Prod.mk.injEq] at hproj
  obtain ⟨hgc, hsent, hgot⟩ := hproj
  have hlost : ¬s.Dequeued ⟨2, ⟨0, 0⟩, 11⟩ := by
    rintro ⟨c, hc⟩
    have hin := mem_map_of_mem (f := Prod.snd) hc
    rw [hgot] at hin
    simp at hin
  refine ⟨s, Run.of_exec _ hs, fun hdelivers => ?_⟩
  have hin : (⟨2, ⟨0, 0⟩, 11⟩ : Item Nat Nat) ∈ s.enqueued := by
    rw [hsent]
    decide
  rcases hdelivers.kept _ hin with hdone | ⟨s', hreach, hdone⟩
  · exact hlost hdone
  · rw [stuck_of_pastEnd hgc hreach] at hdone
    exact hlost hdone

end FalconFS.ConcurrentQueue
