/-
# Two-phase commit against its cleanup daemon

`FalconRemoteCommandPrepare` puts a coordinator transaction into the shared in-progress set, sends
`PREPARE TRANSACTION` to every connection it wrote on and writes one 2PC record per worker that
answered; the records become visible when the coordinator's own transaction commits.  The commit
or abort callback then sends `COMMIT PREPARED` or `ROLLBACK PREPARED` (which may be lost) and takes
the transaction out of the in-progress set.  `CleanupPreparedTransactions` runs next to all this.
It takes FOUR samples one after the other -- `A` and `D`, the gids prepared on a worker, `B`, the
in-progress set, and `C`, the worker's 2PC records -- and acts on them:

* a record of `C` outside `B` is committed if it is in `A` and `D`, left alone if only in `D`, and
  deleted otherwise;
* what is left of `A` and is not in `B` is rolled back.

Messages are delayed and lost, workers run a `PREPARE` long after the coordinator gave up on it,
and the coordinator may crash at any point, which empties the in-progress set.  The model is a
machine over all of these steps; `cleanup_safe` is the safety of the daemon over every
interleaving of them.  Gids are numbers that are used once.
-/
import Mathlib.Logic.Function.Basic
import Mathlib.Data.List.Basic
import FalconFS.Lib.Machine

namespace FalconFS.Transaction

open Machine Function List

abbrev ServerId := Nat
abbrev Gid := Nat

/-! ## 1. The state -/

/-- Where a coordinator transaction stands.  `preparing` is everything from
`AddInprogressTransaction` to the local commit or abort. -/
inductive Phase
  | idle | preparing | committed | aborted
  deriving DecidableEq

/-- What has become of the `PREPARE TRANSACTION` of one transaction on one worker: not sent, on
its way, failed or lost, executed. -/
inductive Prepare
  | unsent | sent | failed | done
  deriving DecidableEq

/-- A finishing command on its way to a worker: `COMMIT PREPARED` if `commit`, else
`ROLLBACK PREPARED`. -/
structure Finish where
  server : ServerId
  gid : Gid
  commit : Bool
  deriving DecidableEq

/-- What the daemon did, for the record. -/
inductive Action
  | commit (w : ServerId) (g : Gid)
  | rollback (w : ServerId) (g : Gid)
  | deleteRecord (w : ServerId) (g : Gid)
  deriving DecidableEq

/-- The point `CleanupPreparedTransactions` has reached, with the samples it has taken: after
`A`, after `B`, after the scan of `C` was opened, in the loop over `C`, in the loop over what is
left of `A`. -/
inductive Cleanup
  | idle
  | setA (w : ServerId) (A : List Gid)
  | setB (w : ServerId) (A B : List Gid)
  | setC (w : ServerId) (A B C : List Gid)
  | scan (w : ServerId) (A B C D : List Gid)
  | sweep (w : ServerId) (A B : List Gid)
  deriving DecidableEq

structure Sys where
  phase : Gid → Phase
  /-- The workers a transaction has written on (`BEGIN_FOR_WRITE` connections). -/
  writers : Gid → List ServerId
  /-- The shared in-progress set. -/
  inprogress : List Gid
  prepare : ServerId × Gid → Prepare
  /-- `pg_prepared_xacts` of each worker. -/
  xacts : ServerId → List Gid
  /-- The workers for which the transaction has written its 2PC record. -/
  wrote : Gid → List ServerId
  /-- The visible rows of the 2PC record table. -/
  records : List (ServerId × Gid)
  /-- Finishing commands that were sent and have neither run nor been lost. -/
  flying : List Finish
  /-- Rows the daemon has deleted in its own, still open transaction. -/
  deleted : List (ServerId × Gid)
  cleanup : Cleanup
  log : List Action

/-- Nothing has started yet. -/
def init : Sys where
  phase _ := .idle
  writers _ := []
  inprogress := []
  prepare _ := .unsent
  xacts _ := []
  wrote _ := []
  records := []
  flying := []
  deleted := []
  cleanup := .idle
  log := []

/-! ## 2. The steps -/

inductive Event
  | addInprogress (g : Gid) (ws : List ServerId)
  | sendPrepare (g : Gid) (w : ServerId)
  | runPrepare (g : Gid) (w : ServerId) (ok : Bool)
  | write2PCRecord (g : Gid) (w : ServerId)
  | commit (g : Gid)
  | abort (g : Gid)
  | sendFinish (g : Gid) (w : ServerId)
  | runFinish (m : Finish)
  | loseFinish (m : Finish)
  | removeInprogress (g : Gid)
  | crash
  | cleanupStart (w : ServerId)
  | cleanupNext (ok : Bool)
  | cleanupError
  | cleanupCommit

/-- `COMMIT PREPARED` or `ROLLBACK PREPARED` on the worker: the gid is no longer prepared.  A gid
that is not there is an error and changes nothing. -/
def Sys.finish (s : Sys) (w : ServerId) (g : Gid) : Sys :=
  { s with xacts := update s.xacts w ((s.xacts w).filter (· ≠ g)) }

/-- `CommitOrRollbackPreparedTransaction`.  On success the daemon goes on with `c`; on an error it
leaves, and the command may still be under way. -/
def Sys.cleanupFinish (s : Sys) (w : ServerId) (g : Gid) (commit ok : Bool) (c : Cleanup) :
    Option Sys :=
  let act := if commit then Action.commit w g else Action.rollback w g
  if ok then
    if g ∈ s.xacts w then some { s.finish w g with cleanup := c, log := act :: s.log } else none
  else
    some { s with cleanup := .idle, flying := ⟨w, g, commit⟩ :: s.flying, log := act :: s.log }

/-- The next step of `CleanupPreparedTransactions`. -/
def Sys.cleanupStep (s : Sys) (ok : Bool) : Option Sys :=
  match s.cleanup with
  | .idle => none
  | .setA w A => some { s with cleanup := .setB w A s.inprogress }
  | .setB w A B =>
    some { s with cleanup := .setC w A B ((s.records.filter (·.1 = w)).map (·.2)) }
  | .setC w A B C => some { s with cleanup := .scan w A B C (s.xacts w) }
  | .scan w A B [] _ => some { s with cleanup := .sweep w A B }
  | .scan w A B (x :: C) D =>
    if x ∈ B then
      some { s with cleanup := .scan w A B C D }
    else if x ∈ A ∧ x ∈ D then
      s.cleanupFinish w x true ok (.scan w (A.filter (· ≠ x)) B C D)
    else if x ∉ A ∧ x ∈ D then
      some { s with cleanup := .scan w A B C D }
    else
      some { s with
        cleanup := .scan w (A.filter (· ≠ x)) B C D
        deleted := (w, x) :: s.deleted
        log := .deleteRecord w x :: s.log }
  | .sweep _ [] _ => some { s with cleanup := .idle }
  | .sweep w (y :: A) B =>
    if y ∈ B then some { s with cleanup := .sweep w A B }
    else s.cleanupFinish w y false ok (.sweep w A B)

/-- One step of the whole system. -/
def step (s : Sys) : Event → Option Sys
  | .addInprogress g ws =>
    if s.phase g = .idle then
      some { s with
        phase := update s.phase g .preparing
        writers := update s.writers g ws
        inprogress := g :: s.inprogress }
    else none
  | .sendPrepare g w =>
    if s.phase g = .preparing ∧ w ∈ s.writers g ∧ s.prepare (w, g) = .unsent then
      some { s with prepare := update s.prepare (w, g) .sent }
    else none
  | .runPrepare g w ok =>
    if s.prepare (w, g) = .sent then
      if ok then
        some { s with
          prepare := update s.prepare (w, g) .done
          xacts := update s.xacts w (g :: s.xacts w) }
      else some { s with prepare := update s.prepare (w, g) .failed }
    else none
  | .write2PCRecord g w =>
    if s.phase g = .preparing ∧ s.prepare (w, g) = .done then
      some { s with wrote := update s.wrote g (w :: s.wrote g) }
    else none
  | .commit g =>
    -- every `BEGIN_FOR_WRITE` connection has answered, else the callback raised an error
    if s.phase g = .preparing ∧ ∀ w ∈ s.writers g, w ∈ s.wrote g then
      some { s with
        phase := update s.phase g .committed
        records := (s.wrote g).map (·, g) ++ s.records }
    else none
  | .abort g =>
    if s.phase g = .preparing then
      some { s with phase := update s.phase g .aborted }
    else none
  | .sendFinish g w =>
    -- only from the callback that runs before the gid leaves the in-progress set
    if g ∈ s.inprogress ∧ (s.phase g = .committed ∨ s.phase g = .aborted) ∧ w ∈ s.wrote g then
      some { s with flying := ⟨w, g, s.phase g = .committed⟩ :: s.flying }
    else none
  | .runFinish m =>
    if m ∈ s.flying then some { s.finish m.server m.gid with flying := s.flying.erase m }
    else none
  | .loseFinish m =>
    if m ∈ s.flying then some { s with flying := s.flying.erase m } else none
  | .removeInprogress g =>
    if s.phase g = .committed ∨ s.phase g = .aborted then
      some { s with inprogress := s.inprogress.filter (· ≠ g) }
    else none
  | .crash =>
    some { s with
      phase := fun g => if s.phase g = .preparing then .aborted else s.phase g
      inprogress := []
      deleted := []
      cleanup := .idle }
  | .cleanupStart w =>
    if s.cleanup = .idle then some { s with cleanup := .setA w (s.xacts w) } else none
  | .cleanupNext ok => s.cleanupStep ok
  | .cleanupError => some { s with cleanup := .idle }
  | .cleanupCommit =>
    some { s with records := s.records.filter (· ∉ s.deleted), deleted := [] }

/-! ## 3. The invariant

The daemon's samples are stale as soon as they are taken, so what is kept about them has to be
facts that cannot become false again: a decision, a written record, a gid that has left
`pg_prepared_xacts` for good. -/

/-- The transaction's own commit or abort has happened. -/
def Sys.Decided (s : Sys) (g : Gid) : Prop := s.phase g = .committed ∨ s.phase g = .aborted

/-- What a gid of sample `A` keeps: it was prepared on `w`, so as soon as it is committed its
record for `w` is there, and the daemon has not deleted it. -/
@[mk_iff] structure Sampled (s : Sys) (w : ServerId) (y : Gid) : Prop where
  done : s.prepare (w, y) = .done
  kept : (w, y) ∉ s.deleted
  record : s.phase y = .committed → (w, y) ∈ s.records

/-- What the daemon may rely on at each point of `CleanupPreparedTransactions`. -/
def CleanupOk (s : Sys) : Cleanup → Prop
  | .idle => True
  | .setA w A => ∀ y ∈ A, Sampled s w y
  | .setB w A B => ∀ y ∈ A, Sampled s w y ∧ (y ∉ B → s.Decided y)
  | .setC w A B C =>
    (∀ y ∈ A, y ∉ B → s.Decided y ∧ (s.phase y = .committed → y ∈ C)) ∧
      ∀ x ∈ C, s.phase x = .committed ∧ w ∈ s.wrote x
  | .scan w A B C D =>
    (∀ y ∈ A, y ∉ B → s.Decided y ∧ (s.phase y = .committed → y ∈ C)) ∧
      ∀ x ∈ C, s.phase x = .committed ∧ w ∈ s.wrote x ∧ (x ∉ D → x ∉ s.xacts w)
  | .sweep _ A B => ∀ y ∈ A, y ∉ B → s.phase y = .aborted

/-- A daemon action was right: it finished a transaction the way its coordinator had decided, or
deleted a record whose gid is no longer prepared on the worker. -/
def ActionOk (s : Sys) : Action → Prop
  | .commit _ g => s.phase g = .committed
  | .rollback _ g => s.phase g = .aborted
  | .deleteRecord w g => s.phase g = .committed ∧ w ∈ s.wrote g ∧ g ∉ s.xacts w

/-- What the coordinators and the workers keep up. -/
structure TwoPhase (s : Sys) : Prop where
  inprogress : ∀ g, s.phase g = .preparing → g ∈ s.inprogress
  writer : ∀ w g, s.prepare (w, g) ≠ .unsent → s.phase g ≠ .idle ∧ w ∈ s.writers g
  prepared : ∀ w g, g ∈ s.xacts w → s.prepare (w, g) = .done
  wroteDone : ∀ w g, w ∈ s.wrote g → s.prepare (w, g) = .done
  allWrote : ∀ w g, s.phase g = .committed → w ∈ s.writers g → w ∈ s.wrote g
  record : ∀ w g, (w, g) ∈ s.records → s.phase g = .committed ∧ w ∈ s.wrote g
  recorded : ∀ w g, s.phase g = .committed → g ∈ s.xacts w → (w, g) ∈ s.records

structure Inv (s : Sys) : Prop extends TwoPhase s where
  flying : ∀ m ∈ s.flying, s.phase m.gid = if m.commit then .committed else .aborted
  deleted : ∀ w g, (w, g) ∈ s.deleted → s.phase g = .committed ∧ w ∈ s.wrote g ∧ g ∉ s.xacts w
  cleanup : CleanupOk s s.cleanup
  log : ∀ a ∈ s.log, ActionOk s a

theorem inv_init : Inv init := by
  refine ⟨⟨?_, ?_, ?_, ?_, ?_, ?_, ?_⟩, ?_, ?_, ?_, ?_⟩ <;> intros <;> simp_all [init, CleanupOk]

/-! ## 4. What lasts

Everything above the daemon's own steps either leaves the fields it looks at alone or moves them
in one direction.  `Later` is that direction, and the daemon's knowledge follows it. -/

/-- `s'` comes after `s`: decisions stand, records written and finished gids stay so. -/
structure Later (s s' : Sys) : Prop where
  decided : ∀ g, s.Decided g → s'.phase g = s.phase g
  wrote : ∀ g w, w ∈ s.wrote g → w ∈ s'.wrote g
  ended : ∀ w g, w ∈ s.wrote g → g ∉ s.xacts w → g ∉ s'.xacts w
  sampled : ∀ w y, Sampled s w y → Sampled s' w y

variable {s s' : Sys} {g : Gid} {w : ServerId} {A C B : List Gid} {c : Cleanup} {ok : Bool}

/-- Nothing the daemon relies on has changed. -/
theorem Later.of_eq (hphase : s'.phase = s.phase) (hprep : s'.prepare = s.prepare)
    (hwrote : s'.wrote = s.wrote) (hx : s'.xacts = s.xacts) (hrec : s'.records = s.records)
    (hdel : s'.deleted = s.deleted) : Later s s' where
  decided g _ := by rw [hphase]
  wrote g w hw := by rwa [hwrote]
  ended w g _ hg := by rwa [hx]
  sampled w y hy := ⟨by rw [hprep, hy.done], by rw [hdel]; exact hy.kept, by
    rw [hphase, hrec]
    exact hy.record⟩

section

variable (h : Later s s')

include h

theorem Later.committed (hg : s.phase g = .committed) : s'.phase g = .committed := by
  rw [h.decided g (.inl hg), hg]

theorem Later.aborted (hg : s.phase g = .aborted) : s'.phase g = .aborted := by
  rw [h.decided g (.inr hg), hg]

theorem Later.isDecided (hg : s.Decided g) : s'.Decided g := by
  rcases hg with hg | hg
  · exact .inl (h.committed hg)
  · exact .inr (h.aborted hg)

/-- What is known of a decided gid of `A` survives: its phase no longer moves. -/
theorem Later.inC {y : Gid} (hy : s.Decided y ∧ (s.phase y = .committed → y ∈ C)) :
    s'.Decided y ∧ (s'.phase y = .committed → y ∈ C) := by
  refine ⟨h.isDecided hy.1, fun hc => hy.2 ?_⟩
  rwa [← h.decided y hy.1]

theorem Later.cleanupOk (hc : CleanupOk s c) : CleanupOk s' c := by
  cases c with
  | idle => trivial
  | setA w A => exact fun y hy => h.sampled w y (hc y hy)
  | setB w A B =>
    exact fun y hy => ⟨h.sampled w y (hc y hy).1, fun hB => h.isDecided ((hc y hy).2 hB)⟩
  | setC w A B C =>
    exact ⟨fun y hy hB => h.inC (hc.1 y hy hB),
      fun x hx => ⟨h.committed (hc.2 x hx).1, h.wrote x w (hc.2 x hx).2⟩⟩
  | scan w A B C D =>
    refine ⟨fun y hy hB => h.inC (hc.1 y hy hB), fun x hx => ?_⟩
    obtain ⟨hphase, hw, hD⟩ := hc.2 x hx
    exact ⟨h.committed hphase, h.wrote x w hw, fun hxD => h.ended w x hw (hD hxD)⟩
  | sweep w A B => exact fun y hy hB => h.aborted (hc y hy hB)

theorem Later.actionOk {a : Action} (ha : ActionOk s a) : ActionOk s' a := by
  cases a with
  | commit w g => exact h.committed ha
  | rollback w g => exact h.aborted ha
  | deleteRecord w g =>
    exact ⟨h.committed ha.1, h.wrote g w ha.2.1, h.ended w g ha.2.1 ha.2.2⟩

theorem Later.finishOk {m : Finish}
    (hm : s.phase m.gid = if m.commit then .committed else .aborted) :
    s'.phase m.gid = if m.commit then .committed else .aborted := by
  have hd : s.Decided m.gid := by
    cases hb : m.commit <;> simp [Sys.Decided, hm, hb]
  rw [h.decided m.gid hd, hm]

end

/-- The last four fields of the invariant follow `Later` as long as nothing is added to them. -/
theorem Inv.later (hi : Inv s) (h : Later s s') (htwo : TwoPhase s')
    (flying : ∀ m ∈ s'.flying, m ∈ s.flying) (deleted : ∀ x ∈ s'.deleted, x ∈ s.deleted)
    (cleanup : s'.cleanup = s.cleanup ∨ s'.cleanup = .idle) (log : s'.log = s.log) : Inv s' where
  toTwoPhase := htwo
  flying m hm := h.finishOk (hi.flying m (flying m hm))
  deleted w g hg := by
    obtain ⟨hc, hw, hx⟩ := hi.deleted w g (deleted _ hg)
    exact ⟨h.committed hc, h.wrote g w hw, h.ended w g hw hx⟩
  cleanup := by
    rcases cleanup with hc | hc
    · rw [hc]
      exact h.cleanupOk hi.cleanup
    · rw [hc]
      trivial
  log a ha := h.actionOk (hi.log a (by rwa [← log]))

/-! ## 5. The coordinator's and the workers' steps -/

section

variable (hi : Inv s)

include hi

theorem inv_addInprogress {ws : List ServerId} (hg : s.phase g = .idle) : Inv { s with
      phase := update s.phase g .preparing
      writers := update s.writers g ws
      inprogress := g :: s.inprogress } := by
  -- the gid is new: nothing anywhere in the system knows it yet
  have hnew : ∀ w, s.prepare (w, g) = .unsent := by
    intro w
    by_contra hne
    exact (hi.writer w g hne).1 hg
  obtain ⟨hinp, hwriter, hprep, hwrote, hall, hrec, hrecorded⟩ := hi.toTwoPhase
  refine hi.later ⟨?_, ?_, ?_, ?_⟩ ⟨?_, ?_, ?_, ?_, ?_, ?_, ?_⟩ ?_ ?_ (.inl rfl) rfl <;>
    simp only [update_apply, Sys.Decided, sampled_iff] <;> grind

/-- A `PREPARE TRANSACTION` that has not run yet changes its state. -/
theorem inv_setPrepare {p : Prepare} (hp : s.phase g ≠ .idle) (hw : w ∈ s.writers g)
    (hu : s.prepare (w, g) ≠ .done) : Inv { s with prepare := update s.prepare (w, g) p } := by
  obtain ⟨hinp, hwriter, hprep, hwrote, hall, hrec, hrecorded⟩ := hi.toTwoPhase
  refine hi.later ⟨?_, ?_, ?_, ?_⟩ ⟨?_, ?_, ?_, ?_, ?_, ?_, ?_⟩ ?_ ?_ (.inl rfl) rfl <;>
    simp only [update_apply, Sys.Decided, sampled_iff] <;> grind

/-- A gid whose `PREPARE TRANSACTION` is not yet answered shows up in `pg_prepared_xacts`. -/
theorem inv_addXact (hd : s.prepare (w, g) = .done) (hw : w ∉ s.wrote g) :
    Inv { s with xacts := update s.xacts w (g :: s.xacts w) } := by
  have hnotc : s.phase g ≠ .committed := fun hc =>
    hw (hi.allWrote w g hc (hi.writer w g (by rw [hd]; simp)).2)
  obtain ⟨hinp, hwriter, hprep, hwrote, hall, hrec, hrecorded⟩ := hi.toTwoPhase
  refine hi.later ⟨?_, ?_, ?_, ?_⟩ ⟨?_, ?_, ?_, ?_, ?_, ?_, ?_⟩ ?_ ?_ (.inl rfl) rfl <;>
    simp only [update_apply, Sys.Decided, sampled_iff] <;> grind

/-- A `PREPARE TRANSACTION` that was under way runs on the worker.  This may happen long after the
coordinator gave up on it; it cannot happen after a commit, which waited for every answer. -/
theorem inv_runPrepare_done (hs : s.prepare (w, g) = .sent) : Inv { s with
      prepare := update s.prepare (w, g) .done
      xacts := update s.xacts w (g :: s.xacts w) } := by
  have hnotw : w ∉ s.wrote g := by
    intro hw
    have := hi.wroteDone w g hw
    rw [hs] at this
    cases this
  obtain ⟨hp, hw⟩ := hi.writer w g (by rw [hs]; simp)
  exact inv_addXact (inv_setPrepare (p := .done) hi hp hw (by rw [hs]; simp))
    (update_self _ _ _) hnotw

theorem inv_write2PCRecord (hd : s.prepare (w, g) = .done) :
    Inv { s with wrote := update s.wrote g (w :: s.wrote g) } := by
  obtain ⟨hinp, hwriter, hprep, hwrote, hall, hrec, hrecorded⟩ := hi.toTwoPhase
  refine hi.later ⟨?_, ?_, ?_, ?_⟩ ⟨?_, ?_, ?_, ?_, ?_, ?_, ?_⟩ ?_ ?_ (.inl rfl) rfl <;>
    simp only [update_apply, Sys.Decided, sampled_iff] <;> grind

/-- The coordinator's local commit makes its 2PC records visible; every worker it wrote on has
one. -/
theorem inv_commit (hp : s.phase g = .preparing) (hall : ∀ w ∈ s.writers g, w ∈ s.wrote g) :
    Inv { s with
      phase := update s.phase g .committed
      records := (s.wrote g).map (·, g) ++ s.records } := by
  obtain ⟨hinp, hwriter, hprep, hwrote, hall', hrec, hrecorded⟩ := hi.toTwoPhase
  refine hi.later ⟨?_, ?_, ?_, ?_⟩ ⟨?_, ?_, ?_, ?_, ?_, ?_, ?_⟩ ?_ ?_ (.inl rfl) rfl <;>
    simp only [update_apply, Sys.Decided, sampled_iff] <;> grind

/-- Undecided transactions become aborted ones: the local abort of one of them, or of all at once
in a crash. -/
theorem inv_giveUp {f : Gid → Phase} {inp : List Gid} {del : List (ServerId × Gid)}
    (hf : ∀ g, f g = s.phase g ∨ s.phase g = .preparing ∧ f g = .aborted)
    (hinp : ∀ g, f g = .preparing → g ∈ inp) (hdel : ∀ x ∈ del, x ∈ s.deleted)
    (hc : c = s.cleanup ∨ c = .idle) :
    Inv { s with phase := f, inprogress := inp, deleted := del, cleanup := c } := by
  obtain ⟨hinp', hwriter, hprep, hwrote, hall', hrec, hrecorded⟩ := hi.toTwoPhase
  refine hi.later ⟨?_, ?_, ?_, ?_⟩ ⟨?_, ?_, ?_, ?_, ?_, ?_, ?_⟩ ?_ ?_ hc rfl <;>
    simp only [Sys.Decided, sampled_iff] <;> grind

theorem inv_abort (hp : s.phase g = .preparing) :
    Inv { s with phase := update s.phase g .aborted } := by
  have hinp := hi.inprogress
  refine inv_giveUp hi (fun h => ?_) (fun h hh => ?_) (fun _ h => h) (.inl rfl) <;>
    simp only [update_apply] at * <;> grind

theorem inv_crash : Inv { s with
      phase := fun g => if s.phase g = .preparing then .aborted else s.phase g
      inprogress := []
      deleted := []
      cleanup := .idle } := by
  refine inv_giveUp hi (fun g => ?_) (fun g hg => ?_) (by simp) (.inr rfl)
  · by_cases hp : s.phase g = .preparing <;> simp [hp]
  · by_cases hp : s.phase g = .preparing <;> simp [hp] at hg

/-- Taking a decided gid out of the in-progress set. -/
theorem inv_removeInprogress (hd : s.Decided g) :
    Inv { s with inprogress := s.inprogress.filter (· ≠ g) } := by
  refine inv_giveUp hi (fun _ => .inl rfl) (fun h hh => ?_) (fun _ h => h) (.inl rfl)
  have hne : h ≠ g := by
    rintro rfl
    rcases hd with hd | hd <;> rw [hh] at hd <;> cases hd
  exact mem_filter.mpr ⟨hi.inprogress h hh, by simpa using hne⟩

/-- A finishing command is sent in the direction its coordinator decided. -/
theorem inv_sendFinish {m : Finish}
    (hm : s.phase m.gid = if m.commit then .committed else .aborted) :
    Inv { s with flying := m :: s.flying } := by
  have hl : Later s { s with flying := m :: s.flying } := .of_eq rfl rfl rfl rfl rfl rfl
  exact { hi with
    flying := fun x hx => by
      rcases mem_cons.mp hx with rfl | hx
      · exact hm
      · exact hi.flying x hx
    cleanup := hl.cleanupOk hi.cleanup
    log := fun a ha => hl.actionOk (hi.log a ha) }

end

theorem mem_finish {v : ServerId} {h : Gid} : h ∈ (s.finish w g).xacts v → h ∈ s.xacts v := by
  intro hx
  by_cases hv : v = w
  · subst hv
    simp only [Sys.finish, update_self] at hx
    exact (mem_filter.mp hx).1
  · simpa only [Sys.finish, update_of_ne hv] using hx

/-- A finishing command runs on its worker, or is lost. -/
theorem inv_finish (hi : Inv s) (w : ServerId) (g : Gid) : Inv (s.finish w g) :=
  hi.later ⟨fun _ _ => rfl, fun _ _ h => h, fun _ _ _ hx hx' => hx (mem_finish hx'),
      fun _ _ hy => ⟨hy.done, hy.kept, hy.record⟩⟩
    { hi with
      prepared := fun v h hx => hi.prepared v h (mem_finish hx)
      recorded := fun v h hc hx => hi.recorded v h hc (mem_finish hx) }
    (fun _ h => h) (fun _ h => h) (.inl rfl) rfl

theorem inv_dropFinish (hi : Inv s) (m : Finish) : Inv { s with flying := s.flying.erase m } :=
  hi.later (.of_eq rfl rfl rfl rfl rfl rfl) { hi with } (fun _ h => mem_of_mem_erase h)
    (fun _ h => h) (.inl rfl) rfl

/-- The daemon's own transaction commits: the records it deleted are gone.  None of them belongs
to a gid that is still prepared. -/
theorem inv_cleanupCommit (hi : Inv s) :
    Inv { s with records := s.records.filter (· ∉ s.deleted), deleted := [] } := by
  refine hi.later ⟨fun _ _ => rfl, fun _ _ h => h, fun _ _ _ h => h, ?_⟩
    { hi with record := ?_, recorded := ?_ } (fun _ h => h) (fun _ h => by cases h) (.inl rfl) rfl
  · intro w y hy
    refine ⟨hy.done, by simp, fun hc => mem_filter.mpr ⟨hy.record hc, ?_⟩⟩
    simpa using hy.kept
  · exact fun w g hr => hi.record w g (mem_filter.mp hr).1
  · intro w g hc hx
    refine mem_filter.mpr ⟨hi.recorded w g hc hx, ?_⟩
    have hnot : (w, g) ∉ s.deleted := fun hd => (hi.deleted w g hd).2.2 hx
    simpa using hnot

/-! ## 6. The daemon's steps -/

/-- The daemon moves on. -/
theorem inv_setCleanup (hi : Inv s) (hc : CleanupOk s c) : Inv { s with cleanup := c } := by
  have hl : Later s { s with cleanup := c } := .of_eq rfl rfl rfl rfl rfl rfl
  exact { hi with
    cleanup := hl.cleanupOk hc
    log := fun a ha => hl.actionOk (hi.log a ha) }

/-- The daemon has done something, rightly. -/
theorem inv_addLog (hi : Inv s) {a : Action} (ha : ActionOk s a) :
    Inv { s with log := a :: s.log } := by
  have hl : Later s { s with log := a :: s.log } := .of_eq rfl rfl rfl rfl rfl rfl
  exact { hi with
    cleanup := hl.cleanupOk hi.cleanup
    log := fun b hb => by
      rcases mem_cons.mp hb with rfl | hb
      · exact hl.actionOk ha
      · exact hl.actionOk (hi.log b hb) }

/-- `CommitOrRollbackPreparedTransaction`, whether or not its answer comes back. -/
theorem inv_cleanupFinish (hi : Inv s) {commit : Bool}
    (hg : s.phase g = if commit then .committed else .aborted) (hc : CleanupOk s c)
    (h : s.cleanupFinish w g commit ok c = some s') : Inv s' := by
  have ha : ActionOk s (if commit then Action.commit w g else Action.rollback w g) := by
    cases commit <;> simpa [ActionOk] using hg
  have hlog := inv_addLog hi ha
  simp only [Sys.cleanupFinish] at h
  split at h
  · split at h
    · cases h
      have hl : Later s { s.finish w g with log := (if commit then Action.commit w g
          else Action.rollback w g) :: s.log } :=
        ⟨fun _ _ => rfl, fun _ _ h => h, fun _ _ _ hx hx' => hx (mem_finish hx'),
          fun _ _ hy => ⟨hy.done, hy.kept, hy.record⟩⟩
      exact inv_setCleanup (inv_finish hlog w g) (hl.cleanupOk hc)
    · cases h
  · cases h
    exact inv_setCleanup (inv_sendFinish (m := ⟨w, g, commit⟩) hlog hg) trivial

/-- The daemon deletes the record of a gid that has left `pg_prepared_xacts`. -/
theorem inv_deleteRecord (hi : Inv s) {w x : Nat} {D : List Gid}
    (hx : s.phase x = .committed ∧ w ∈ s.wrote x ∧ x ∉ s.xacts w)
    (hc : CleanupOk s (.scan w A B C D)) :
    Inv { s with
      cleanup := .scan w A B C D
      deleted := (w, x) :: s.deleted
      log := .deleteRecord w x :: s.log } := by
  have hlog := inv_addLog hi (a := .deleteRecord w x) hx
  exact { hlog with
    deleted := fun v g hd => by
      rcases mem_cons.mp hd with he | hd
      · obtain ⟨rfl, rfl⟩ := Prod.mk.inj he
        exact hx
      · exact hi.deleted v g hd
    cleanup := hc
    log := fun a ha => by cases a <;> exact hlog.log _ ha }

/-- One gid `x` of the records less: what is known about the rest of `A` and of the records. -/
theorem CleanupOk.scan_tail {w x : Nat} {A' D : List Gid}
    (h : CleanupOk s (.scan w A B (x :: C) D)) (hA : ∀ y ∈ A', y ∈ A) (hx : x ∈ A' → x ∈ B) :
    CleanupOk s (.scan w A' B C D) := by
  refine ⟨fun y hy hB => ?_, fun z hz => h.2 z (mem_cons_of_mem _ hz)⟩
  obtain ⟨hd, hin⟩ := h.1 y (hA y hy) hB
  refine ⟨hd, fun hc => ?_⟩
  rcases mem_cons.mp (hin hc) with rfl | hyC
  · exact absurd (hx hy) hB
  · exact hyC

theorem mem_filter_ne {x y : Gid} (h : y ∈ A.filter (· ≠ x)) : y ∈ A ∧ y ≠ x := by
  simpa using h

/-- One record of `C`: the four conditions of the source's comment. -/
theorem inv_scan {w x : Nat} {D : List Gid} (hi : Inv s)
    (hcl : s.cleanup = .scan w A B (x :: C) D) (h : s.cleanupStep ok = some s') : Inv s' := by
  have hok : CleanupOk s (.scan w A B (x :: C) D) := hcl ▸ hi.cleanup
  obtain ⟨hphase, hw, hD⟩ := hok.2 x mem_cons_self
  have herase : CleanupOk s (.scan w (A.filter (· ≠ x)) B C D) :=
    hok.scan_tail (fun y hy => (mem_filter_ne hy).1) (fun hx => absurd rfl (mem_filter_ne hx).2)
  simp only [Sys.cleanupStep, hcl] at h
  split at h
  · rename_i hB
    cases h
    exact inv_setCleanup hi (hok.scan_tail (fun _ hy => hy) (fun _ => hB))
  · split at h
    · exact inv_cleanupFinish hi hphase herase h
    · split at h
      · rename_i hA
        cases h
        exact inv_setCleanup hi (hok.scan_tail (fun _ hy => hy) (fun hx => absurd hx hA.1))
      · rename_i hAD hAD'
        cases h
        have hxD : x ∉ D := fun hxD => by
          by_cases hxA : x ∈ A
          · exact hAD ⟨hxA, hxD⟩
          · exact hAD' ⟨hxA, hxD⟩
        exact inv_deleteRecord hi ⟨hphase, hw, hD hxD⟩ herase

/-- One gid left over in `A`. -/
theorem inv_sweep {w y : Nat} (hi : Inv s) (hcl : s.cleanup = .sweep w (y :: A) B)
    (h : s.cleanupStep ok = some s') : Inv s' := by
  have hok : CleanupOk s (.sweep w (y :: A) B) := hcl ▸ hi.cleanup
  have htail : CleanupOk s (.sweep w A B) := fun z hz => hok z (mem_cons_of_mem _ hz)
  simp only [Sys.cleanupStep, hcl] at h
  split at h
  · cases h
    exact inv_setCleanup hi htail
  · rename_i hB
    exact inv_cleanupFinish hi (hok y mem_cons_self hB) htail h

/-- **The order of the samples is what makes the daemon safe.**  A gid of `A` outside `B` is
decided, because it was in the in-progress set from before its `PREPARE` until its decision; so if
it is committed, its record was visible when `C` was read after `B`. -/
theorem inv_cleanupStep (hi : Inv s) (h : s.cleanupStep ok = some s') : Inv s' := by
  have hok := hi.cleanup
  cases hcl : s.cleanup with
  | idle => simp [Sys.cleanupStep, hcl] at h
  | setA w A =>
    simp only [Sys.cleanupStep, hcl] at h
    cases h
    rw [hcl] at hok
    refine inv_setCleanup hi fun y hy => ⟨hok y hy, fun hB => ?_⟩
    have hne : s.phase y ≠ .idle := (hi.writer w y (by rw [(hok y hy).done]; simp)).1
    cases hp : s.phase y with
    | idle => exact absurd hp hne
    | preparing => exact absurd (hi.inprogress y hp) hB
    | committed => exact .inl hp
    | aborted => exact .inr hp
  | setB w A B =>
    simp only [Sys.cleanupStep, hcl] at h
    cases h
    rw [hcl] at hok
    refine inv_setCleanup hi ⟨fun y hy hB => ⟨(hok y hy).2 hB, fun hc => ?_⟩, fun x hx => ?_⟩
    · refine mem_map.mpr ⟨(w, y), mem_filter.mpr ⟨(hok y hy).1.record hc, ?_⟩, rfl⟩
      simp
    · obtain ⟨r, hr, rfl⟩ := mem_map.mp hx
      obtain ⟨hmem, hw⟩ := mem_filter.mp hr
      have hw : r.1 = w := by simpa using hw
      subst hw
      exact hi.record r.1 r.2 hmem
  | setC w A B C =>
    simp only [Sys.cleanupStep, hcl] at h
    cases h
    rw [hcl] at hok
    exact inv_setCleanup hi ⟨hok.1, fun x hx => ⟨(hok.2 x hx).1, (hok.2 x hx).2, fun hD => hD⟩⟩
  | scan w A B C D =>
    cases C with
    | nil =>
      simp only [Sys.cleanupStep, hcl] at h
      cases h
      rw [hcl] at hok
      refine inv_setCleanup hi fun y hy hB => ?_
      obtain ⟨hd, hin⟩ := hok.1 y hy hB
      rcases hd with hd | hd
      · exact absurd (hin hd) (by simp)
      · exact hd
    | cons x C => exact inv_scan hi hcl h
  | sweep w A B =>
    cases A with
    | nil =>
      simp only [Sys.cleanupStep, hcl] at h
      cases h
      exact inv_setCleanup hi trivial
    | cons y A => exact inv_sweep hi hcl h

/-! ## 7. Every interleaving -/

theorem inv_step {e : Event} (hi : Inv s) (h : step s e = some s') : Inv s' := by
  cases e with
  | addInprogress g ws =>
    obtain ⟨hg, rfl⟩ := guard_eq_some h
    exact inv_addInprogress hi hg
  | sendPrepare g w =>
    obtain ⟨hg, rfl⟩ := guard_eq_some h
    exact inv_setPrepare hi (by rw [hg.1]; simp) hg.2.1 (by rw [hg.2.2]; simp)
  | runPrepare g w ok =>
    simp only [step] at h
    split at h
    · rename_i hg
      split at h <;> cases h
      · exact inv_runPrepare_done hi hg
      · obtain ⟨hp, hw⟩ := hi.writer w g (by rw [hg]; simp)
        exact inv_setPrepare hi hp hw (by rw [hg]; simp)
    · cases h
  | write2PCRecord g w =>
    obtain ⟨hg, rfl⟩ := guard_eq_some h
    exact inv_write2PCRecord hi hg.2
  | commit g =>
    obtain ⟨hg, rfl⟩ := guard_eq_some h
    exact inv_commit hi hg.1 hg.2
  | abort g =>
    obtain ⟨hg, rfl⟩ := guard_eq_some h
    exact inv_abort hi hg
  | sendFinish g w =>
    obtain ⟨hg, rfl⟩ := guard_eq_some h
    refine inv_sendFinish (m := ⟨w, g, s.phase g = .committed⟩) hi ?_
    rcases hg.2.1 with hp | hp <;> simp [hp]
  | runFinish m =>
    obtain ⟨_, rfl⟩ := guard_eq_some h
    exact inv_dropFinish (inv_finish hi m.server m.gid) m
  | loseFinish m =>
    obtain ⟨_, rfl⟩ := guard_eq_some h
    exact inv_dropFinish hi m
  | removeInprogress g =>
    obtain ⟨hg, rfl⟩ := guard_eq_some h
    exact inv_removeInprogress hi hg
  | crash =>
    cases h
    exact inv_crash hi
  | cleanupStart w =>
    obtain ⟨_, rfl⟩ := guard_eq_some h
    refine inv_setCleanup hi fun y hy => ⟨hi.prepared w y hy, fun hd => ?_, ?_⟩
    · exact (hi.deleted w y hd).2.2 hy
    · exact fun hc => hi.recorded w y hc hy
  | cleanupNext ok => exact inv_cleanupStep hi h
  | cleanupError =>
    cases h
    exact inv_setCleanup hi trivial
  | cleanupCommit =>
    cases h
    exact inv_cleanupCommit hi

/-- **The cleanup daemon is safe.**  Whatever the coordinators, the workers, the network and the
daemon do, in any order and with a crash anywhere: every transaction the daemon has committed was
committed by its coordinator, every one it has rolled back was aborted there -- so neither was
undecided -- and a 2PC record it has deleted belongs to a gid that is not prepared on its
worker. -/
theorem cleanup_safe {s : Sys} (h : Reach step init s) :
    (∀ w g, Action.commit w g ∈ s.log → s.phase g = .committed) ∧
      (∀ w g, Action.rollback w g ∈ s.log → s.phase g = .aborted) ∧
      ∀ w g, Action.deleteRecord w g ∈ s.log → g ∉ s.xacts w := by
  have hi : Inv s := h.invariant inv_init fun _ _ _ hi _ hs => inv_step hi hs
  exact ⟨fun w g hg => hi.log _ hg, fun w g hg => hi.log _ hg, fun w g hg => (hi.log _ hg).2.2⟩

/-- Transaction 7 writes on workers 1 and 2 and commits, but its `COMMIT PREPARED` never reaches
worker 1; transaction 8 is prepared on worker 1 and lost in a crash.  The daemon commits the first
and rolls back the second there, and in its next round deletes the record. -/
def crashSchedule : List Event :=
  [.addInprogress 7 [1, 2], .sendPrepare 7 1, .sendPrepare 7 2, .runPrepare 7 1 true,
    .runPrepare 7 2 true, .write2PCRecord 7 1, .write2PCRecord 7 2, .commit 7,
    .sendFinish 7 1, .sendFinish 7 2, .runFinish ⟨2, 7, true⟩, .loseFinish ⟨1, 7, true⟩,
    .removeInprogress 7, .addInprogress 8 [1, 2], .sendPrepare 8 1, .runPrepare 8 1 true, .crash,
    .cleanupStart 1, .cleanupNext true, .cleanupNext true, .cleanupNext true, .cleanupNext true,
    .cleanupNext true, .cleanupNext true, .cleanupNext true, .cleanupCommit,
    .cleanupStart 1, .cleanupNext true, .cleanupNext true, .cleanupNext true, .cleanupNext true]

theorem cleanup_safe_crashSchedule : ∃ s, exec step init crashSchedule = some s ∧
    s.log = [.deleteRecord 1 7, .rollback 1 8, .commit 1 7] ∧
    (∀ w g, Action.commit w g ∈ s.log → s.phase g = .committed) ∧
      (∀ w g, Action.rollback w g ∈ s.log → s.phase g = .aborted) ∧
      ∀ w g, Action.deleteRecord w g ∈ s.log → g ∉ s.xacts w :=
  ⟨_, rfl, by decide, cleanup_safe (Run.of_exec crashSchedule rfl)⟩

end FalconFS.Transaction
