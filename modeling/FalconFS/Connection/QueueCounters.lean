/-
# The counters of the concurrent queue, and its collector

`approx_size` lags behind the queue: a push is counted after it, and so is a pop, which may come in
between and make the counter wrap around.  `Inv.counted` says by how much it is off.  Where a
producer exits or the collector looks at an inactive one, no push and no pop is pending, and the
counter is the truth (`Inv.empty_of_uncounted`): a queue leaves the list only when it is empty
(`Inv.listed`).

What can go wrong is the collector's iterator.  A pass erases the last entry of the list, and steps
behind its end, exactly when an odd number of entries at the end are collectible (§1); `EvenPass` is
the condition that rules it out, and `Inv.keeps` shows that nothing else is needed.
-/
import FalconFS.Connection.QueueMoves
import Mathlib.Algebra.Order.BigOperators.Group.List
import Mathlib.Algebra.Order.Group.Nat

namespace FalconFS.ConcurrentQueue

open Function Machine Tally

/-! ## 1. The entries at the end of the list

The collector passes over the entry behind each one that it erases.  Which entries it erases is
therefore a matter of parity: of the entries at the end of the list that are all collectible it
erases the first, the third and so on, and the last one exactly when their number is odd. -/

section Sweep

variable {α : Type} (P : α → Bool)

/-- How many entries at the end of the list are collectible, up to the first that is not. -/
def trailing (l : List α) : Nat := (l.rtakeWhile P).length

theorem trailing_le (l : List α) : trailing P l ≤ l.length :=
  (List.rtakeWhile_suffix P l).length_le

theorem trailing_cons (a : α) (l : List α) : trailing P (a :: l) =
      if trailing P l = l.length then (if P a then l.length + 1 else l.length)
      else trailing P l := by
  simp only [trailing, List.rtakeWhile, List.reverse_cons, List.takeWhile_append,
    List.length_reverse]
  split
  · cases hP : P a <;> simp [List.takeWhile, hP]
  · simp

variable {a b : α} {l : List α} {it : Nat}

/-- The collector keeps the entry it looks at. -/
theorem trailing_cons_of_keep (l : List α) (ha : P a = false) :
    trailing P (a :: l) = trailing P l := by
  rw [trailing_cons, ha]
  split
  · rename_i h
    exact h.symm
  · rfl

/-- The collector erases the entry it looks at, and passes over the next one. -/
theorem trailing_of_skip (b : α) (l : List α) (ha : P a = true) :
    trailing P (a :: b :: l) % 2 = trailing P l % 2 := by
  have hle : trailing P l ≠ l.length + 1 := by
    have := trailing_le P l
    omega
  rw [trailing_cons, trailing_cons P b l, ha]
  by_cases hall : trailing P l = l.length
  · cases hb : P b with
    | false => simp [hall]
    | true =>
      rw [hall, if_pos rfl, if_pos rfl]
      simp only [List.length_cons, if_true]
      omega
  · simp [hall, hle]

theorem trailing_singleton (ha : P a = true) : trailing P [a] = 1 := by
  simp [trailing, List.rtakeWhile, ha]

theorem drop_eraseIdx {rest : List α} (h : l.drop it = a :: b :: rest) :
    (l.eraseIdx it).drop (it + 1) = rest := by
  have hlt : it < l.length := by
    have := congrArg List.length h
    simp only [List.length_drop, List.length_cons] at this
    omega
  have hnext : l.drop (it + 1) = b :: rest := by
    rw [← List.drop_drop, h]
    rfl
  have htake : (l.take it).drop (it + 1) = [] :=
    List.drop_eq_nil_of_le (by rw [List.length_take]; omega)
  rw [List.eraseIdx_eq_take_drop_succ, hnext, List.drop_append, htake, List.length_take,
    Nat.min_eq_left hlt.le, Nat.add_sub_cancel_left]
  rfl

theorem mem_eraseIdx_or (ha : l[it]? = some a) (hb : b ∈ l) : b ∈ l.eraseIdx it ∨ b = a := by
  obtain ⟨i, hi⟩ := List.mem_iff_getElem?.mp hb
  by_cases he : i = it
  · rw [he, ha] at hi
    exact .inr (Option.some.inj hi).symm
  · exact .inl (List.mem_eraseIdx_iff_getElem?.mpr ⟨i, he, hi⟩)

end Sweep

/-! ## 2. The invariant -/

variable {Thread T : Type} [DecidableEq Thread] {s s' : State Thread T} {t : Thread}


/-- How many items of `p` are popped and still counted. -/
def State.pops (s : State Thread T) (p : Producer Thread) : Nat :=
  tally (fun t => (s.pc t).pops p) s.readers

/-- The counter of `p` is right but for what is pushed or popped and not counted. -/
def State.Counted (s : State Thread T) (p : Producer Thread) : Prop :=
  ((s.info p).approxSize + (s.pc p.tid).pushes p) % 2 ^ 64 =
    ((s.info p).queue.length + s.pops p) % 2 ^ 64

/-- **What holds between any two steps.** -/
structure Inv (s : State Thread T) : Prop where
  readers_nodup : s.readers.Nodup
  reading : ∀ t, t ∈ s.readers ↔ (s.pc t).reading = true
  excluded : s.gc.locks = true → s.readers = []
  defined : s.gc ≠ .pastEnd
  /-- A pass has an even number of collectible entries at the end of what it has not seen. -/
  even : ∀ it, s.gc = .scanning it →
    trailing s.collectible (s.activeProducers.drop it) % 2 = 0
  registered : ∀ t p, s.producerMap t = some p →
    p = ⟨t, s.life t⟩ ∧ p ∈ s.activeProducers ∧ (s.info p).active = true
  /-- A name that no thread had so far is not on the list. -/
  unborn : ∀ p : Producer Thread, s.life p.tid ≤ p.life → s.producerMap p.tid ≠ some p →
    p ∉ s.activeProducers
  working : ∀ t p, (s.pc t).target = some p → s.producerMap t = some p
  /-- The counter is right but for what is pushed or popped and not counted. -/
  counted : ∀ p, ((s.info p).approxSize + (s.pc p.tid).pushes p) % 2 ^ 64 =
    ((s.info p).queue.length + s.pops p) % 2 ^ 64
  bounded : ∀ p, (s.info p).queue.length < 2 ^ 64
  listed : ∀ p, (s.info p).queue ≠ [] → p ∈ s.activeProducers

/-- **What the collector's look at one entry comes to**: the list is what the pass has not seen. -/
inductive Swept (s : State Thread T) (it : Nat) : List (Producer Thread) → State Thread T → Prop
  | done : Swept s it [] { s with gc := .waiting, needGC := false }
  | keep {p l} (hc : s.collectible p = false) (hnext : s.activeProducers.drop (it + 1) = l) :
      Swept s it (p :: l) { s with gc := .scanning (it + 1) }
  | last {p} (hc : s.collectible p = true) :
      Swept s it [p] { s with
        activeProducers := s.activeProducers.eraseIdx it, gc := .pastEnd }
  | skip {p q l} (hc : s.collectible p = true) (hp : s.activeProducers[it]? = some p)
      (hnext : (s.activeProducers.eraseIdx it).drop (it + 1) = l) :
      Swept s it (p :: q :: l) { s with
        activeProducers := s.activeProducers.eraseIdx it, gc := .scanning (it + 1) }

omit [DecidableEq Thread] in
theorem garbageCollect_scanning {it : Nat} (hgc : s.gc = .scanning it) :
    ∃ s', garbageCollect s = some s' ∧ Swept s it (s.activeProducers.drop it) s' := by
  rw [garbageCollect, hgc]
  dsimp only
  cases hp : s.activeProducers[it]? with
  | none =>
    rw [List.drop_eq_nil_of_le (List.getElem?_eq_none_iff.mp hp)]
    exact ⟨_, rfl, .done⟩
  | some p =>
    obtain ⟨hlt, hget⟩ := List.getElem?_eq_some_iff.mp hp
    have hdrop := List.drop_eq_getElem_cons hlt
    rw [hget] at hdrop
    dsimp only
    cases hc : s.collectible p with
    | false =>
      rw [hdrop]
      exact ⟨_, rfl, .keep hc rfl⟩
    | true =>
      cases hrest : s.activeProducers.drop (it + 1) with
      | nil =>
        rw [hdrop, hrest, if_pos rfl, if_neg (Nat.not_lt.mpr (List.drop_eq_nil_iff.mp hrest))]
        exact ⟨_, rfl, .last hc⟩
      | cons q rest =>
        have hinside : it + 1 < s.activeProducers.length := by
          refine Nat.lt_of_not_le fun hle => ?_
          rw [List.drop_eq_nil_of_le hle] at hrest
          cases hrest
        rw [hrest] at hdrop
        rw [hdrop, if_pos rfl, if_pos hinside]
        exact ⟨_, rfl, .skip hc hp (drop_eraseIdx hdrop)⟩

namespace Inv

theorem init : Inv (State.init : State Thread T) where
  readers_nodup := .nil
  reading t := by simp [State.init, Pc.reading]
  excluded _ := rfl
  defined := nofun
  even it h := nomatch h
  registered t p h := nomatch h
  unborn p _ _ := List.not_mem_nil
  working t p h := nomatch h
  counted p := rfl
  bounded p := by simp [State.init]
  listed p h := absurd rfl h

variable {p : Producer Thread}

open State

section

variable (h : Inv s)

include h

/-- **An empty counter is the truth** for a producer that is not pushing, when nobody is in a
dequeue. -/
theorem empty_of_uncounted (hreaders : s.readers = [])
    (htarget : (s.pc p.tid).target ≠ some p) (hzero : (s.info p).approxSize = 0) :
    (s.info p).queue = [] := by
  have hcount := h.counted p
  rw [hzero, Pc.pushes_of_target_ne htarget, pops, hreaders, tally_nil, Nat.add_zero,
    Nat.add_zero, Nat.mod_eq_of_lt (h.bounded p)] at hcount
  exact List.length_eq_zero_iff.mp hcount.symm

/-- Only the thread itself pushes to its queue. -/
theorem tid_of_target (htarget : (s.pc t).target = some p) : p.tid = t := by
  rw [(h.registered t p (h.working t p htarget)).1]

theorem not_reading (hreaders : s.readers = []) (t : Thread) : (s.pc t).reading = false := by
  refine Bool.eq_false_iff.mpr fun hr => ?_
  have := (h.reading t).mpr hr
  rw [hreaders] at this
  cases this

/-- What the readers have popped, when one thread moves. -/
theorem pops_update (pc' : Pc Thread T) (p : Producer Thread)
    (hreading : pc'.reading = (s.pc t).reading) :
    ∃ rest, s.pops p = rest + (s.pc t).pops p ∧
      tally (fun t' => (update s.pc t pc' t').pops p) s.readers = rest + pc'.pops p := by
  by_cases ht : t ∈ s.readers
  · have hsum := tally_update (fun t' => (s.pc t').pops p)
      (fun t' => (update s.pc t pc' t').pops p) h.readers_nodup ht fun t' hne => by
        rw [update_of_ne hne]
    obtain ⟨rest, hold, hnew⟩ := hsum
    refine ⟨rest, hold, ?_⟩
    rw [hnew, update_self]
  · have hquiet : (s.pc t).reading = false :=
      Bool.eq_false_iff.mpr fun hr => ht ((h.reading t).mpr hr)
    refine ⟨s.pops p, ?_, ?_⟩
    · rw [(Pc.of_not_reading hquiet).2 p, Nat.add_zero]
    · rw [(Pc.of_not_reading (hreading.trans hquiet)).2 p, Nat.add_zero]
      refine tally_congr _ fun t' ht' => ?_
      have hne : t' ≠ t := fun e => ht (e ▸ ht')
      rw [update_of_ne hne]

/-- What the thread of `p` has pushed, when one thread moves. -/
theorem pushes_update (pc' : Pc Thread T) (p : Producer Thread)
    (htarget : ∀ q, pc'.target = some q → s.producerMap t = some q) :
    ∃ rest, (s.pc p.tid).pushes p = rest + (s.pc t).pushes p ∧
      (update s.pc t pc' p.tid).pushes p = rest + pc'.pushes p := by
  by_cases ht : p.tid = t
  · refine ⟨0, ?_, ?_⟩
    · rw [ht, Nat.zero_add]
    · rw [ht, update_self, Nat.zero_add]
  · have hother : pc'.target ≠ some p := by
      intro hp
      exact ht (by rw [(h.registered t p (htarget p hp)).1])
    refine ⟨(s.pc p.tid).pushes p, ?_, ?_⟩
    · rw [Pc.pushes_of_target_ne fun hp => ht (h.tid_of_target hp), Nat.add_zero]
    · rw [update_of_ne ht, Pc.pushes_of_target_ne hother, Nat.add_zero]

/-- **The counter stays as right as it was** when one object changes, and what its thread has in its
hands: `hbalance`. -/
theorem counted_update (pc' : Pc Thread T) {i : ProducerInfo Thread T}
    (hinfo : s'.info = update s.info p i) (hpc : s'.pc = update s.pc t pc')
    (hreaders : s'.readers = s.readers) (hreading : pc'.reading = (s.pc t).reading)
    (htarget : ∀ q, pc'.target = some q → s.producerMap t = some q)
    (hother : ∀ q, q ≠ p → pc'.pushes q = (s.pc t).pushes q ∧ pc'.pops q = (s.pc t).pops q)
    (hbalance : ∀ pushes pops,
      ((s.info p).approxSize + (pushes + (s.pc t).pushes p)) % 2 ^ 64 =
        ((s.info p).queue.length + (pops + (s.pc t).pops p)) % 2 ^ 64 →
      (i.approxSize + (pushes + pc'.pushes p)) % 2 ^ 64 =
        (i.queue.length + (pops + pc'.pops p)) % 2 ^ 64)
    (q : Producer Thread) : s'.Counted q := by
  obtain ⟨pushes, hold, hnew⟩ := h.pushes_update pc' q htarget
  obtain ⟨pops, hold', hnew'⟩ := h.pops_update pc' q hreading
  have hcount := h.counted q
  rw [hold, hold'] at hcount
  rw [State.Counted, State.pops, hpc, hreaders, hnew, hnew', hinfo]
  by_cases hq : q = p
  · subst hq
    rw [update_self]
    exact hbalance pushes pops hcount
  · rw [update_of_ne hq, (hother q hq).1, (hother q hq).2]
    exact hcount

/-- The counter when only the place of a thread changes. -/
theorem counted_goto (pc' : Pc Thread T) (hinfo : s'.info = s.info)
    (hpc : s'.pc = update s.pc t pc') (hreaders : s'.readers = s.readers)
    (hreading : pc'.reading = (s.pc t).reading)
    (htarget : ∀ q, pc'.target = some q → s.producerMap t = some q)
    (hpushes : ∀ q, pc'.pushes q = (s.pc t).pushes q)
    (hpops : ∀ q, pc'.pops q = (s.pc t).pops q) (q : Producer Thread) : s'.Counted q := by
  -- any object may be the one that changes to what it is
  refine h.counted_update pc' (p := q) (i := s.info q) ?_ hpc hreaders hreading htarget
    (fun q _ => ⟨hpushes q, hpops q⟩) ?_ q
  · rw [hinfo, update_eq_self]
  · intro pushes pops hold
    rw [hpushes, hpops]
    exact hold

/-- The counter when a thread with nothing in its hands takes the shared lock or gives it back. -/
theorem counted_switch (pc' : Pc Thread T) (hinfo : s'.info = s.info)
    (hpc : s'.pc = update s.pc t pc')
    (hmem : s'.readers = t :: s.readers ∧ t ∉ s.readers ∨ s'.readers = s.readers.erase t)
    (htarget : (s.pc t).target = none) (htarget' : pc'.target = none)
    (hpops : ∀ q, (s.pc t).pops q = 0) (hpops' : ∀ q, pc'.pops q = 0) (q : Producer Thread) :
    s'.Counted q := by
  have hpushes : (s'.pc q.tid).pushes q = (s.pc q.tid).pushes q := by
    rw [hpc]
    by_cases ht : q.tid = t
    · rw [ht, update_self, Pc.pushes_none htarget', Pc.pushes_none htarget]
    · rw [update_of_ne ht]
  have hrest : s'.pops q = s.pops q := by
    have hkept : ∀ l : List Thread, t ∉ l →
        tally (fun t' => (s'.pc t').pops q) l = tally (fun t' => (s.pc t').pops q) l := by
      refine fun l ht => tally_congr _ fun t' ht' => ?_
      rw [hpc, update_of_ne (ne_of_mem_of_not_mem ht' ht)]
    rw [pops, pops]
    rcases hmem with ⟨hr, ht⟩ | hr
    · rw [hr, tally_cons, hkept _ ht, hpc, update_self, hpops' q, Nat.zero_add]
    · rw [hr, hkept _ h.readers_nodup.not_mem_erase]
      by_cases ht : t ∈ s.readers
      · rw [← tally_erase _ ht, hpops q, Nat.add_zero]
      · rw [List.erase_of_not_mem ht]
  rw [State.Counted, hinfo, hpushes, hrest]
  exact h.counted q

/-- Threads do not move the collector, and while it is in a pass they change neither the list nor
what is collectible. -/
theorem pass_move (hm : Move s t (s.pc t) s') : s'.gc = s.gc ∧ (s.gc.locks = true →
      s'.activeProducers = s.activeProducers ∧ s'.collectible = s.collectible) := by
  have hquiet : s.gc.locks = true → (s.pc t).reading = false := fun hlocks =>
    h.not_reading (h.excluded hlocks) t
  have hactive : ∀ p, (s.pc t).target = some p → (s.info p).active = true := fun p hp =>
    (h.registered t p (h.working t p hp)).2.2
  have hcollect : s.gc.locks = true → ∀ q, s'.collectible q = s.collectible q := by
    cases hm <;> simp only [collectible, goto, push, count, pop,
      handOver, leave, setInfo, update_apply] <;> grind
  cases hm with
  | lock maxCount free =>
    cases maxCount <;> exact ⟨rfl, fun hlocks => ⟨rfl, funext (hcollect hlocks)⟩⟩
  | register pc' free => exact ⟨rfl, fun hlocks => by rw [free] at hlocks; cases hlocks⟩
  | _ => exact ⟨rfl, fun hlocks => ⟨rfl, funext (hcollect hlocks)⟩⟩

/-- **Threads keep the counters right.** -/
theorem counted_move (hm : Move s t (s.pc t) s') (p : Producer Thread) : s'.Counted p := by
  cases hm with
  | turn pc' needGC alike target =>
    refine h.counted_goto pc' (by rfl) (by rfl) (by rfl) alike.reading (fun q hq => ?_)
      alike.pushes alike.pops p
    rcases target q hq with ht | hm
    · exact h.working t q ht
    · exact hm
  | register pc' free alone new alike target =>
    have hpops : ((s.register t).goto t pc').pops p = s.pops p := by
      simp only [pops, goto, register, setInfo, alone, tally_nil]
    have hpushes : (((s.register t).goto t pc').pc p.tid).pushes p = (s.pc p.tid).pushes p := by
      simp only [goto, register, setInfo, update_apply]
      grind [alike.pushes]
    have hnone : p = ⟨t, s.life t⟩ → (s.pc p.tid).pushes p = 0 := fun hp =>
      Pc.pushes_of_target_ne fun ht => by
        have := h.working _ _ ht
        rw [hp, new] at this
        cases this
    have hquiet : s.pops p = 0 := by rw [pops, alone]; rfl
    have hcount := h.counted p
    rw [State.Counted, hpops, hpushes]
    simp only [goto, register, setInfo, update_apply]
    grind
  | push pc' q value target target' room quiet quiet' pushes =>
    have hpops := (Pc.of_not_reading quiet).2
    have hpops' := (Pc.of_not_reading quiet').2
    refine h.counted_update pc' (p := q) (by rfl) (by rfl) (by rfl) (quiet'.trans quiet.symm)
      (by grind [h.working t q]) (by grind [Pc.pushes_other]) (fun a b hold => ?_) p
    rw [pushes, hpops', List.length_append, List.length_singleton]
    rw [hpops] at hold
    dsimp only
    omega
  | count pc' q n target target' quiet quiet' pushes =>
    have hpops := (Pc.of_not_reading quiet).2
    have hpops' := (Pc.of_not_reading quiet').2
    refine h.counted_update pc' (p := q) (by rfl) (by rfl) (by rfl) (quiet'.trans quiet.symm)
      (by grind) (by grind [Pc.pushes_none, Pc.pushes_other]) (fun a b hold => ?_) p
    rw [hpops, pushes] at hold
    rw [Pc.pushes_none target', hpops', fetchAdd]
    dsimp only
    omega
  | lock maxCount free quiet target =>
    have ht : t ∉ s.readers := by simp [h.reading, quiet]
    have hpops := (Pc.of_not_reading quiet).2
    cases maxCount <;> exact h.counted_switch _ (by rfl) (by rfl) (.inl ⟨rfl, ht⟩) target rfl hpops
      (fun _ => rfl) p
  | pop pc' q x queue front reading reading' held held' pops =>
    have htarget := Pc.of_reading reading
    have htarget' := Pc.of_reading reading'
    refine h.counted_update pc' (p := q) (by rfl) (by rfl) (by rfl) (reading'.trans reading.symm)
      (by grind) (by grind [Pc.pushes_none, Pc.pushes_other]) (fun a b hold => ?_) p
    rw [Pc.pushes_none htarget, front, List.length_cons] at hold
    rw [Pc.pushes_none htarget', pops, if_pos rfl]
    dsimp only
    omega
  | uncount pc' q n reading reading' held pops pops' =>
    have htarget := Pc.of_reading reading
    have htarget' := Pc.of_reading reading'
    refine h.counted_update pc' (p := q) (by rfl) (by rfl) (by rfl) (reading'.trans reading.symm)
      (by grind) (by grind [Pc.pushes_none, Pc.pushes_other]) (fun a b hold => ?_) p
    rw [Pc.pushes_none htarget, pops, if_pos rfl] at hold
    rw [Pc.pushes_none htarget', pops', fetchSub]
    dsimp only
    omega
  | handOver pc' x reading reading' held held' pops =>
    have htarget := Pc.of_reading reading
    have htarget' := Pc.of_reading reading'
    exact h.counted_goto pc' (by rfl) (by rfl) (by rfl) (reading'.trans reading.symm) (by grind)
      (by grind [Pc.pushes_none]) pops p
  | leave r reading held pops =>
    exact h.counted_switch (.idle r) (by rfl) (by rfl) (.inr rfl) (Pc.of_reading reading) rfl pops
      (fun _ => rfl) p
  | ret x r needGC reading held pops =>
    exact h.counted_switch (.idle r) (by rfl) (by rfl) (.inr rfl) (Pc.of_reading reading) rfl pops
      (fun _ => rfl) p

/-- **A step of a thread keeps the invariant.** -/
theorem move (hm : Move s t (s.pc t) s') : Inv s' := by
  have hcounted := h.counted_move hm
  have heven : ∀ it, s'.gc = .scanning it →
      trailing s'.collectible (s'.activeProducers.drop it) % 2 = 0 := by
    intro it hit
    obtain ⟨hgc, hpass⟩ := h.pass_move hm
    rw [hgc] at hit
    obtain ⟨hlist, hcollect⟩ := hpass (by rw [hit]; rfl)
    rw [hlist, hcollect]
    exact h.even it hit
  obtain ⟨hnodup, hreading, hexcluded, hdefined, -, hregistered, hunborn, hworking, -, hbounded,
    hlisted⟩ := h
  have htarget := @Pc.of_reading Thread T
  cases hm with
  | lock maxCount free quiet target =>
    cases maxCount <;> constructor <;> first
      | assumption
      | simp only [lockShared, update_apply]; grind -ring -linarith [Pc.reading, Pc.target]
  | _ =>
    constructor <;> first
      | assumption
      | simp only [goto, register, push, count, pop, handOver,
          leave, setInfo, update_apply]
        grind -ring -linarith [Pc.Alike, Pc.reading, Pc.target,
          List.Nodup.mem_erase_iff, List.Nodup.erase]

/-- **A thread is forgotten**, and its queue leaves the list at most if it is empty. -/
theorem exit (hquiet : (s.pc t).reading = false) (htarget : (s.pc t).target = none)
    (halone : (s.producerMap t).isSome = true → s.gc.locks = false ∧ s.readers = []) :
    Inv (onThreadExit s t) := by
  have hpops := (Pc.of_not_reading hquiet).2
  have hempty : ∀ p, s.producerMap t = some p → (s.info p).approxSize = 0 →
      (s.info p).queue = [] := fun p hp hzero => by
    refine h.empty_of_uncounted (halone (by rw [hp]; rfl)).2 ?_ hzero
    rw [(h.registered t p hp).1, htarget]
    nofun
  have hcounted : ∀ q, (onThreadExit s t).Counted q := fun q => by
    have hgoto : (s.goto t (.idle .nothing)).Counted q :=
      h.counted_goto (.idle .nothing) (by rfl) (by rfl) (by rfl) hquiet.symm nofun
        (fun q => (Pc.pushes_none htarget q).symm) (fun q => (hpops q).symm) q
    unfold onThreadExit
    split
    · exact hgoto
    · rename_i p hp
      split
      · exact hgoto
      · refine h.counted_update (.idle .nothing) (p := p) (by rfl) (by rfl) (by rfl) hquiet.symm
          nofun (fun q _ => ⟨(Pc.pushes_none htarget q).symm, (hpops q).symm⟩)
            (fun a b hold => ?_) q
        rw [Pc.pushes_none htarget, hpops] at hold
        exact hold
  have heven : ∀ it, (onThreadExit s t).gc = .scanning it → trailing (onThreadExit s t).collectible
      ((onThreadExit s t).activeProducers.drop it) % 2 = 0 := by
    unfold onThreadExit
    split
    · exact h.even
    · rename_i p hp
      have hfree := (halone (by rw [hp]; rfl)).1
      split <;> exact fun it hit => by rw [show s.gc = .scanning it from hit] at hfree; cases hfree
  revert hcounted heven
  obtain ⟨hnodup, hreading, hexcluded, hdefined, -, hregistered, hunborn, hworking, -, hbounded,
    hlisted⟩ := h
  unfold onThreadExit
  split
  · intro hcounted heven
    constructor <;> first
      | assumption
      | simp only [forget, update_apply]; grind [Pc.reading, Pc.target]
  · split <;> intro hcounted heven <;> constructor <;> first
      | assumption
      | simp only [forget, setInfo, update_apply]
        grind [Pc.reading, Pc.target]

/-- **The collector moves**, and takes only collectible queues off the list. -/
theorem collect (hreaders : s.readers = [])
    (hsame : s'.info = s.info ∧ s'.producerMap = s.producerMap ∧ s'.readers = s.readers ∧
      s'.pc = s.pc ∧ s'.life = s.life)
    (hdefined : s'.gc ≠ .pastEnd)
    (heven : ∀ it, s'.gc = .scanning it →
      trailing s.collectible (s'.activeProducers.drop it) % 2 = 0)
    (hsub : ∀ q ∈ s'.activeProducers, q ∈ s.activeProducers)
    (hkept : ∀ q ∈ s.activeProducers, q ∈ s'.activeProducers ∨ s.collectible q = true) :
    Inv s' := by
  obtain ⟨hinfo, hmap, hr, hpc, hlife⟩ := hsame
  have hcollect : s'.collectible = s.collectible := by
    funext q
    rw [collectible, collectible, hinfo]
  have hpops : s'.pops = s.pops := by
    funext q
    rw [pops, pops, hpc, hr]
  constructor
  case readers_nodup => rw [hr]; exact h.readers_nodup
  case reading => rw [hr, hpc]; exact h.reading
  case excluded => exact fun _ => hr.trans hreaders
  case defined => exact hdefined
  case even => rw [hcollect]; exact heven
  case registered =>
    intro t q hq
    rw [hmap] at hq
    obtain ⟨hname, hlisted, hon⟩ := h.registered t q hq
    rw [hlife, hinfo]
    refine ⟨hname, ?_, hon⟩
    rcases hkept q hlisted with hin | hc
    · exact hin
    · simp [collectible, hon] at hc
  case unborn =>
    intro q
    rw [hlife, hmap]
    exact fun hq hnone hin => h.unborn q hq hnone (hsub q hin)
  case working => rw [hpc, hmap]; exact h.working
  case counted => rw [hinfo, hpc, hpops]; exact h.counted
  case bounded => rw [hinfo]; exact h.bounded
  case listed =>
    intro q hne
    rw [hinfo] at hne
    rcases hkept q (h.listed q hne) with hin | hc
    · exact hin
    · -- an inactive producer is not registered, so that it does not push
      simp only [collectible, Bool.and_eq_true, beq_iff_eq, Bool.not_eq_true'] at hc
      refine absurd (h.empty_of_uncounted hreaders (fun hp => ?_) hc.1) hne
      have hon := (h.registered _ q (h.working _ q hp)).2.2
      rw [hc.2] at hon
      cases hon

theorem beginPass (hreaders : s.readers = [])
    (heven : trailing s.collectible s.activeProducers % 2 = 0) :
    Inv { s with gc := .scanning 0 } := by
  refine h.collect hreaders ⟨rfl, rfl, rfl, rfl, rfl⟩ nofun (fun it hit => ?_) (fun _ hq => hq)
    fun _ hq => Or.inl hq
  obtain rfl : 0 = it := Gc.scanning.inj hit
  exact heven

/-- **A step of the collector keeps the invariant**, if the pass has an even number of collectible
entries at the end. -/
theorem gc (heven : s.gc.locks = false → trailing s.collectible s.activeProducers % 2 = 0)
    (hs : garbageCollect s = some s') : Inv s' := by
  cases hgc : s.gc with
  | starting | waiting =>
    rw [garbageCollect, hgc] at hs
    dsimp only at hs
    split at hs <;> cases hs
    exact h.beginPass (by simp_all) (heven (by rw [hgc]; rfl))
  | scanning it =>
    have hreaders : s.readers = [] := h.excluded (by rw [hgc]; rfl)
    have hold := h.even it hgc
    obtain ⟨s₁, hs₁, hw⟩ := garbageCollect_scanning hgc
    cases hs.symm.trans hs₁
    generalize s.activeProducers.drop it = l at hw hold
    cases hw with
    | done =>
      exact h.collect hreaders ⟨rfl, rfl, rfl, rfl, rfl⟩ nofun nofun (fun _ hq => hq)
        fun _ hq => Or.inl hq
    | keep hc hnext =>
      refine h.collect hreaders ⟨rfl, rfl, rfl, rfl, rfl⟩ nofun (fun it' hit => ?_)
        (fun _ hq => hq) fun _ hq => Or.inl hq
      obtain rfl : it + 1 = it' := Gc.scanning.inj hit
      rwa [trailing_cons_of_keep _ _ hc, ← hnext] at hold
    | last hc =>
      rw [trailing_singleton _ hc] at hold
      cases hold
    | skip hc hp hnext =>
      refine h.collect hreaders ⟨rfl, rfl, rfl, rfl, rfl⟩ nofun (fun it' hit => ?_)
        (fun _ hq => List.mem_of_mem_eraseIdx hq) (fun r hr => ?_)
      · obtain rfl : it + 1 = it' := Gc.scanning.inj hit
        rwa [trailing_of_skip _ _ _ hc, ← hnext] at hold
      · rcases mem_eraseIdx_or hp hr with hin | rfl
        · exact .inl hin
        · exact .inr hc
  | pastEnd => exact absurd hgc h.defined

end

end Inv

/-! ## 3. Runs -/

/-- **The condition**: when the collector begins a pass, the number of collectible entries at the
end of the list is even. -/
def EvenPass (s : State Thread T) : Event Thread T → Prop
  | .gc => s.gc.locks = false → trailing s.collectible s.activeProducers % 2 = 0
  | _ => True

instance (s : State Thread T) (e : Event Thread T) : Decidable (EvenPass s e) := by
  cases e <;> unfold EvenPass <;> infer_instance

variable {traits : Traits} {e : Event Thread T}

theorem idle_quiet {r : Returned T} (h : s.pc t = .idle r) :
    (s.pc t).reading = false ∧ (s.pc t).target = none ∧ ∀ p, (s.pc t).pushes p = 0 := by
  rw [h]
  exact ⟨rfl, rfl, fun _ => rfl⟩

/-- **Inversion of a step.** -/
theorem step_cases (h : step traits s e = some s') : (∃ t, Move s t (s.pc t) s') ∨
    (∃ t, e = .exit t ∧ (∃ r, s.pc t = .idle r) ∧
      ((s.producerMap t).isSome = true → s.gc.locks = false ∧ s.readers = []) ∧
      s' = onThreadExit s t) ∨
    (e = .gc ∧ garbageCollect s = some s') ∨
    (∃ t, e = .setConsumer t ∧ s' = { s with consumer := some t }) := by
  unfold step at h
  split at h
  · cases h
  cases e with
  | call t c =>
    refine .inl ⟨t, ?_⟩
    dsimp only at h
    split at h <;> cases h
    obtain ⟨hquiet, -, hpushes⟩ := idle_quiet ‹_›
    exact enter_move traits c hquiet hpushes
  | resume t memory => exact .inl ⟨t, resume_move rfl h⟩
  | exit t =>
    refine .inr (.inl ⟨t, rfl, ?_⟩)
    dsimp only at h
    split at h
    · rename_i r hpc
      split at h
      · cases h
      · rename_i hlock
        refine ⟨⟨r, hpc⟩, fun hsome => ?_, (Option.some.inj h).symm⟩
        rw [hsome, Bool.true_and, Bool.or_eq_true, not_or] at hlock
        exact ⟨Bool.eq_false_iff.mpr hlock.1, by simpa using hlock.2⟩
    · cases h
  | gc => exact .inr (.inr (.inl ⟨rfl, h⟩))
  | setConsumer t => exact .inr (.inr (.inr ⟨t, rfl, (Option.some.inj h).symm⟩))

theorem Inv.keeps (h : Inv s) (hc : EvenPass s e) (hs : step traits s e = some s') : Inv s' := by
  rcases step_cases hs with ⟨t, hm⟩ | ⟨t, rfl, ⟨r, hpc⟩, halone, rfl⟩ | ⟨rfl, hgc⟩ | ⟨t, rfl, rfl⟩
  · exact h.move hm
  · obtain ⟨hquiet, htarget, -⟩ := idle_quiet hpc
    exact h.exit hquiet htarget halone
  · exact h.gc hc hgc
  · exact ⟨h.readers_nodup, h.reading, h.excluded, h.defined, h.even, h.registered, h.unborn,
      h.working, h.counted, h.bounded, h.listed⟩

theorem lanes_onThreadExit {r : Returned T} (hpc : s.pc t = .idle r) :
    (onThreadExit s t).lanes = s.lanes := by
  have hheld : (Pc.idle .nothing : Pc Thread T).held = (s.pc t).held := by
    rw [hpc]
    rfl
  have hforget : (s.forget t).lanes = s.lanes := lanes_goto (s := s) hheld
  unfold onThreadExit
  split
  · exact hforget
  · rename_i p _
    split
    · exact hforget
    · exact (lanes_goto (s := s.setInfo p _) hheld).trans
        (lanes_setInfo (i := { s.info p with active := false }) rfl)

omit [DecidableEq Thread] in
theorem lanes_garbageCollect (h : garbageCollect s = some s') : s'.lanes = s.lanes := by
  unfold garbageCollect at h
  (repeat' split at h) <;> cases h <;> rfl

/-- **The queue refines its lanes.** -/
theorem Inv.follows (h : Inv s) (hs : step traits s e = some s') :
    Lanes.Follows s.lanes s'.lanes := by
  rcases step_cases hs with ⟨t, hm⟩ | ⟨t, rfl, ⟨r, hpc⟩, halone, rfl⟩ | ⟨rfl, hgc⟩ | ⟨t, rfl, rfl⟩
  · refine hm.follows fun hnone => ?_
    have hfresh := h.unborn ⟨t, s.life t⟩ (Nat.le_refl _) (by rw [hnone]; nofun)
    exact Classical.not_not.mp fun hne => hfresh (h.listed _ hne)
  · exact .inl (lanes_onThreadExit hpc)
  · exact .inl (lanes_garbageCollect hgc)
  · exact .inl rfl

/-- The two invariants together. -/
structure Good (s : State Thread T) : Prop where
  inv : Inv s
  sound : Lanes.Sound s.lanes

theorem Good.keeps (h : Good s) (hc : EvenPass s e) (hs : step traits s e = some s') : Good s' :=
  ⟨h.inv.keeps hc hs, h.sound.follows (h.inv.follows hs)⟩

theorem Good.init : Good (State.init : State Thread T) := ⟨Inv.init, Lanes.Sound.init⟩

/-- A run that keeps to the condition. -/
abbrev EvenRun (traits : Traits) (s s' : State Thread T) : Prop :=
  Run (step traits) EvenPass s s'

/-- **How an undisturbed pass ends**: behind the end of the list exactly when the number of
collectible entries at the end of what it has not seen is odd. -/
theorem pass_ends (traits : Traits) (n : Nat) {it : Nat} (hgc : s.gc = .scanning it)
    (hn : s.activeProducers.length - it < n) :
    ∃ s', EvenRun traits s s' ∧
      s'.gc = if trailing s.collectible (s.activeProducers.drop it) % 2 = 0 then .waiting
        else .pastEnd := by
  induction n generalizing s it with
  | zero => exact absurd hn (Nat.not_lt_zero _)
  | succ n ih =>
    obtain ⟨s₁, hs₁, hw⟩ := garbageCollect_scanning hgc
    have hone : EvenRun traits s s₁ := by
      refine Run.refl.tail (e := .gc) (fun hfree => ?_) ?_
      · rw [hgc] at hfree
        cases hfree
      · rw [step, if_neg (by rw [hgc]; nofun)]
        exact hs₁
    have hlen := s.activeProducers.length_drop (i := it)
    generalize s.activeProducers.drop it = l at hw hlen ⊢
    cases hw with
    | done => exact ⟨_, hone, rfl⟩
    | keep hc hnext =>
      rw [List.length_cons] at hlen
      obtain ⟨s', hrun, hend⟩ := ih (s := { s with gc := .scanning (it + 1) }) rfl (by
        dsimp only
        omega)
      refine ⟨s', hone.trans hrun, ?_⟩
      rw [trailing_cons_of_keep _ _ hc, ← hnext]
      exact hend
    | last hc =>
      refine ⟨_, hone, ?_⟩
      rw [trailing_singleton _ hc]
      rfl
    | skip hc hp hnext =>
      rw [List.length_cons] at hlen
      obtain ⟨s', hrun, hend⟩ := ih
        (s := { s with
          activeProducers := s.activeProducers.eraseIdx it, gc := .scanning (it + 1) })
        rfl (by
          dsimp only
          rw [List.length_eraseIdx_of_lt (by omega)]
          omega)
      refine ⟨s', hone.trans hrun, ?_⟩
      rw [trailing_of_skip _ _ _ hc, ← hnext]
      exact hend

theorem Good.run (h : Good s) (hrun : EvenRun traits s s') : Good s' :=
  hrun.invariant h fun _ _ _ hg hc hs => hg.keeps hc hs

/-- What was enqueued stays so. -/
theorem Good.enqueued_run (h : Good s) (hrun : EvenRun traits s s') {x : Item Thread T}
    (hx : x ∈ s.enqueued) : x ∈ s'.enqueued := by
  refine (hrun.invariant (I := fun s' => Good s' ∧ x ∈ s'.enqueued) ⟨h, hx⟩ ?_).2
  intro a e b ⟨hg, hin⟩ hc hs
  exact ⟨hg.keeps hc hs, (hg.inv.follows hs).sent_grows.subset hin⟩

end FalconFS.ConcurrentQueue
