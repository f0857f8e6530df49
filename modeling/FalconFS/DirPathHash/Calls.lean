/-
# What a caller of the hash may rely on

The two modules before this one look at a server as a whole.  This one is for the caller, a handler
that makes one call after another in one transaction:

* its session is touched by nobody else (`step_session_ne`), and the table only by commits
  (`step_table`);
* a call that returns has added its lock to the session's handles and its write to the session's
  writes, and nothing else (`Progress`);
* a lookup that takes a lock returns the committed value of its key (`Answers`), and the value stays
  what it is until the lock is released.
-/
import FalconFS.DirPathHash.Coherence

namespace FalconFS.DirPathHash

open Machine Server

/-! ## 1. Frames -/

/-- The session whose step it is. -/
def Event.sid : Event → Option Sid
  | .begin t | .call t _ _ _ | .advance t _ | .ret t | .commit t | .abort t
  | .applyToCommit t _ | .release t | .prepare t _ | .finishPrepared t _ _ | .exit t => some t
  | .evict _ => none

variable {s s' : Server} {t u : Sid} {c : Call} {x : Choice} {e : Event}
  {H : List (Key × RWLockMode)} {W : List (Key × Option InodeId)} {m : RWLockMode}

theorem advance_session_ne (ha : Advance s t c x s') (h : u ≠ t) : s'.session u = s.session u := by
  have hset : ∀ (r : Server) y, (r.setSession t y).session u = r.session u :=
    fun r y => setSession_session_ne r y h
  cases ha <;> grind [pin, setStage, fail, write, setItem_session]

/-- **A step is a step of one session.** -/
theorem step_session_ne (hs : step s e = some s') (hu : e.sid ≠ some u) :
    s'.session u = s.session u := by
  have hne : ∀ t, e.sid = some t → u ≠ t := fun t ht htu => hu (by rw [ht, htu])
  cases e with
  | advance t x =>
    obtain ⟨-, c, -, ha⟩ := advance_cases hs
    exact advance_session_ne ha (hne t rfl)
  | finishPrepared t gid commit =>
    simp only [step] at hs
    split_ifs at hs
    obtain ⟨p, -, rfl⟩ := Option.map_eq_some_iff.mp hs
    exact setSession_session_ne _ _ (hne t rfl)
  | _ =>
    simp only [step, applyToCommit, release] at hs
    (repeat' split at hs) <;> cases hs <;>
      first | rfl | exact setSession_session_ne _ _ (hne _ rfl)

theorem advance_table (ha : Advance s t c x s') : s'.table = s.table := by
  cases ha <;> grind [pin, setStage, fail, write, setItem,
    setSession]

/-- **Only a commit changes the table.** -/
theorem step_table (hl : e.isLocal = true) (hs : step s e = some s') :
    s'.table = s.table ∨
      ∃ t, e = .commit t ∧ s'.table = applyWrites (s.session t).writes s.table := by
  cases e with
  | commit t =>
    obtain ⟨_, rfl⟩ := guard_eq_some hs
    exact .inr ⟨t, rfl, rfl⟩
  | advance t x =>
    obtain ⟨-, c, -, ha⟩ := advance_cases hs
    exact .inl (advance_table ha)
  | prepare | finishPrepared => cases hl
  | _ =>
    simp only [step, applyToCommit, release] at hs
    (repeat' split at hs) <;> cases hs <;> exact .inl rfl

theorem advance_phase (ha : Advance s t c x s') (hp : (s.session t).phase = .active) :
    (s'.session t).phase = .active ∨ (s'.session t).phase = .failed := by
  cases ha <;> grind [pin, setStage, fail, write, setItem_session,
    setSession_session_self]

/-- A server that never prepares a transaction: a session without transaction has no handles. -/
structure Plain (s : Server) : Prop where
  lock : LockInv s
  prepared : s.prepared = []
  idle : ∀ t, (s.session t).phase = .idle → (s.session t).held = []

theorem plain_init (table : Key → Option InodeId) : Plain (.init table) :=
  ⟨lockInv_init table, rfl, fun _ _ => rfl⟩

theorem plain_step (h : Plain s) (hl : e.isLocal = true) (hs : step s e = some s') : Plain s' := by
  refine ⟨lockInv_step h.lock hs, (prepared_of_isLocal hl hs).trans h.prepared, fun u hu => ?_⟩
  by_cases hsid : e.sid = some u
  · -- the session that moves comes to rest only by its last release
    have hquiet := (h.lock.ok u).quiet
    cases e with
    | advance t x =>
      cases hsid
      obtain ⟨hp, c, -, ha⟩ := advance_cases hs
      rcases advance_phase ha hp with hp' | hp' <;> simp [hp'] at hu
    | evict k => cases hsid
    | prepare | finishPrepared => cases hl
    | _ =>
      cases hsid
      simp only [step, applyToCommit, release] at hs
      (repeat' split at hs) <;> cases hs <;> simp_all [commit, abort, cleanupOnExit]
  · rw [step_session_ne hs hsid] at hu ⊢
    exact h.idle u hu

/-! ## 2. The progress of a call -/

def Call.locks (c : Call) : List (Key × RWLockMode) :=
  (rwMode c.mode).toList.map fun m => (c.key, m)

def Call.writes (c : Call) : List (Key × Option InodeId) :=
  match c.op with
  | .search => []
  | .insert id => [(c.key, some id)]
  | .delete => [(c.key, none)]

/-- The handles and writes of a session in a call that it began with handles `H` and writes `W`. -/
def Progress (H : List (Key × RWLockMode)) (W : List (Key × Option InodeId)) (x : Session)
    (c : Call) : Prop :=
  match c.stage with
  | .find | .read | .enter _ => x.held = H ∧ x.writes = W
  | .acquire => x.held = (c.key, .declare) :: H ∧ x.writes = W
  | .load => c.op = .search ∧ x.held = c.locks ++ H ∧ x.writes = W
  | .modify _ => x.held = c.locks ++ H ∧ x.writes = W
  | .returned _ => x.held = c.locks ++ H ∧ x.writes = c.writes ++ W

/-- No handle is given up. -/
theorem Progress.subset {x : Session} (h : Progress H W x c) : H ⊆ x.held := by
  unfold Progress at h
  intro l hl
  split at h <;> grind

/-- The session has gone on to another stage of the call, or has failed. -/
def GoesOn (H : List (Key × RWLockMode)) (W : List (Key × Option InodeId)) (c : Call)
    (x : Session) : Prop :=
  x.phase = .failed ∧ H ⊆ x.held ∨ ∃ st, x.phase = .active ∧ x.call = some { c with stage := st } ∧
    Progress H W x { c with stage := st }

/-- **A call adds its own lock and its own write.** -/
theorem progress_advance (ha : Advance s t c x s') (hp : (s.session t).phase = .active)
    (hc : (s.session t).call = some c) (h : Progress H W (s.session t) c) :
    GoesOn H W c (s'.session t) := by
  -- a call with a mode has one lock, and its key and operation stay what they are at every stage
  have hsub := h.subset
  have hno : c.mode = .none → c.locks = [] := fun hm => by simp [Call.locks, hm, rwMode]
  have hlock : ∀ m, rwMode c.mode = some m → c.locks = [(c.key, m)] :=
    fun m hm => by simp [Call.locks, hm]
  have hlocks : ∀ st, ({ c with stage := st } : Call).locks = c.locks := fun _ => rfl
  have hwrites : ∀ st, ({ c with stage := st } : Call).writes = c.writes := fun _ => rfl
  cases ha with
  | refused => exact .inr ⟨c.stage, hp, hc, h⟩
  | _ =>
    simp only [Progress] at h
    grind [GoesOn, Progress, pin, setStage, fail, write,
      setItem_session, setSession_session_self, Call.writes]

/-! ## 3. Pinned items keep a value -/

/-- Known items stay known. -/
def KeepsKnown (s s' : Server) : Prop :=
  ∀ k it, s.hash k = some it → it.inodeId ≠ .unknown →
    ∃ it', s'.hash k = some it' ∧ it'.inodeId ≠ .unknown

theorem setItem_hash_apply (s : Server) (k : Key) (it : Item) (k' : Key) :
    (s.setItem k it).hash k' = if k' = k then some it else s.hash k' := by
  simp only [setItem, Function.update_apply]

theorem pin_hash_apply (s : Server) (t : Sid) (c : Call) (it : Item) (k : Key) :
    (s.pin t c it).hash k = if k = c.key then
      some ⟨it.inodeId, if c.mode = .none then it.lock else it.lock.declare t⟩ else s.hash k := by
  simp only [pin]
  split_ifs <;> simp_all [setStage, setItem_hash_apply]

theorem pin_call (s : Server) (t : Sid) (c : Call) (it : Item) :
    ((s.pin t c it).session t).call = some { c with stage :=
      if c.mode = .none then (if c.op = .search then .load else .modify true) else .acquire } := by
  simp only [pin]
  split_ifs <;> simp [setStage]

theorem keepsKnown_advance (ha : Advance s t c x s') : KeepsKnown s s' := by
  -- a call stores a value only in an item that is new or has none
  intro k it hk hi
  cases ha <;> simp only [setStage, fail, write, setSession_hash,
    setItem_hash_apply, pin_hash_apply] <;> grind

/-- **A pinned item that has a value keeps one.** -/
theorem known_step (h : LockInv s) (hs : step s e = some s') {k : Key} {it : Item}
    (hk : s.hash k = some it) (hi : it.inodeId ≠ .unknown) (hu : (k, m) ∈ (s.session u).held) :
    ∃ it', s'.hash k = some it' ∧ it'.inodeId ≠ .unknown := by
  cases e with
  | advance t x =>
    obtain ⟨-, c, -, ha⟩ := advance_cases hs
    exact keepsKnown_advance ha k it hk hi
  | finishPrepared t gid commit =>
    simp only [step] at hs
    split_ifs at hs
    obtain ⟨p, -, rfl⟩ := Option.map_eq_some_iff.mp hs
    exact ⟨it, hk, hi⟩
  | begin | call | ret | commit | abort | prepare | applyToCommit | release | exit =>
    simp only [step, applyToCommit, release] at hs
    (repeat' split at hs) <;> cases hs <;> grind [setItem_hash_apply, setSession_hash,
      commit, abort, prepare, cleanupOnExit]
  | evict k' =>
    simp only [step] at hs
    split at hs
    · rename_i it' hk'
      split at hs <;> cases hs
      rename_i hd
      by_cases hkk : k = k'
      · subst hkk
        obtain ⟨it'', hk'', hpos⟩ := h.held.item hu
        rw [hk'] at hk''
        cases hk''
        rw [RWLock.count_of_checkDestroyable hd] at hpos
        exact absurd hpos (Nat.lt_irrefl 0)
      · exact ⟨it, by simp only [Function.update_of_ne hkk]; exact hk, hi⟩
    · cases hs

/-! ## 4. The answers of lookups -/

structure AnswerOk (s : Server) (held : List (Key × RWLockMode)) (c : Call) : Prop where
  /-- A lookup that waits for a lock has pinned an item with a value. -/
  pinned : c.op = .search → c.stage = .acquire →
    ∃ it, s.hash c.key = some it ∧ it.inodeId ≠ .unknown
  unlocked : c.stage = .load → c.mode = .none
  /-- A lookup with a lock returns the committed value, under that lock. -/
  answer : ∀ r m, c.op = .search → rwMode c.mode = some m → c.stage = .returned r →
    (c.key, m) ∈ held ∧ r = s.table c.key

def Answers (s : Server) : Prop :=
  ∀ t c, (s.session t).call = some c → AnswerOk s (s.session t).held c

theorem answers_init (table : Key → Option InodeId) : Answers (.init table) :=
  fun _ _ h => by simp [init, Session.fresh] at h

/-- Most stages promise nothing. -/
def Stage.isSilent : Stage → Bool
  | .find | .read | .enter _ | .modify _ => true
  | _ => false

theorem answerOk_of_isSilent {held : List (Key × RWLockMode)} (h : c.stage.isSilent = true) :
    AnswerOk s held c := by
  constructor
  · intro _ hs
    simp [hs, Stage.isSilent] at h
  · intro hs
    simp [hs, Stage.isSilent] at h
  · intro r m _ _ hs
    simp [hs, Stage.isSilent] at h

theorem rwMode_ne_declare {mode : DirLockMode} (h : rwMode mode = some m) : m ≠ .declare := by
  cases mode <;> simp [rwMode] at h <;> simp [← h]

/-- Apart from `advance`, a step of a session leaves it without call, or with a new one. -/
theorem call_of_step (h : LockInv s) (he : e.sid = some t) (hna : ∀ x, e ≠ .advance t x)
    (hs : step s e = some s') (hc : (s'.session t).call = some c) : c.stage = .find := by
  have hquiet : ∀ {p : Phase}, (s.session t).phase = p → p ≠ .active → (s.session t).call = none :=
    fun hp hne => (h.ok t).quiet (by rw [hp]; exact hne)
  cases e with
  | advance t' x =>
    cases he
    exact absurd rfl (hna x)
  | evict k => cases he
  | finishPrepared t' gid commit =>
    cases he
    simp only [step] at hs
    split_ifs at hs with hp
    obtain ⟨p, -, rfl⟩ := Option.map_eq_some_iff.mp hs
    rw [finishPrepared, setSession_session_self] at hc
    exact absurd hc (by simp [hquiet hp])
  | _ =>
    cases he
    simp only [step, applyToCommit, release] at hs
    (repeat' split at hs) <;> cases hs <;>
      grind [commit, abort, prepare, cleanupOnExit, setSession_session_self, setItem_session]

theorem answerOk_advance (h : Answers s) (hco : Coherent s) (hc : (s.session t).call = some c)
    (ha : Advance s t c x s') {c' : Call} (hc' : (s'.session t).call = some c') :
    AnswerOk s' (s'.session t).held c' := by
  obtain ⟨hpinned, hunlocked, hanswer⟩ := h t c hc
  -- a value carried to the second LW section is known, except by a delete
  have hval := ((hco.lock.ok t).call c hc).enter
  -- an item that is not locked exclusively holds the committed value, or none
  have hfree : ∀ it m, s.hash c.key = some it → (it.lock.attemptLock t m).2 = true →
      it.inodeId = .unknown ∨ it.inodeId = .known (s.table c.key) :=
    fun it m hk hgot => (hco.items _ _ hk).of_free (attemptLock_exclusive hgot)
  have htable : ∀ k it y, ((s.setItem k it).setSession t y).table = s.table := fun _ _ _ => rfl
  cases ha <;> simp only [setStage, fail, write, setItem_session, pin_call,
    setSession_session_self, hc] at hc' <;> cases hc' <;> constructor <;>
    (try simp only [pin_hash_apply, setItem_hash_apply, if_true]) <;>
    grind [setStage, write, setSession_hash, setSession_session_self,
      setItem_session, rwMode, ItemId.value]

/-- **A lookup with a lock answers with the committed value.** -/
theorem answers_step (h : Answers s) (hco : Coherent s) (hl : e.isLocal = true)
    (hs : step s e = some s') : Answers s' := by
  intro u c' hc'
  by_cases hu : e.sid = some u
  · by_cases ha : ∃ x, e = .advance u x
    · obtain ⟨x, rfl⟩ := ha
      obtain ⟨-, c, hc, ha⟩ := advance_cases hs
      exact answerOk_advance h hco hc ha hc'
    · refine answerOk_of_isSilent ?_
      rw [call_of_step hco.lock hu (fun x hx => ha ⟨x, hx⟩) hs hc']
      rfl
  · -- another session moves: the pinned item keeps its value, the locked key its row
    have hsame := step_session_ne hs hu
    rw [hsame] at hc' ⊢
    have hans := h u c' hc'
    have hok := (hco.lock.ok u).call c' hc'
    constructor
    · intro ho hst
      obtain ⟨it, hk, hi⟩ := hans.pinned ho hst
      exact known_step hco.lock hs hk hi (hok.acquire hst)
    · exact hans.unlocked
    · intro r m ho hm hst
      obtain ⟨hheld, hr⟩ := hans.answer r m ho hm hst
      refine ⟨hheld, ?_⟩
      rcases step_table hl hs with ht | ⟨t, rfl, ht⟩
      · rw [ht]
        exact hr
      · have htu : u ≠ t := fun htu => hu (by rw [htu]; rfl)
        rw [ht, hco.lock.commit_table t hheld (rwMode_ne_declare hm) htu]
        exact hr

end FalconFS.DirPathHash
