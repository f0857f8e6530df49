/-
# Locks of the dir-path hash

The handles of the sessions and the locks of the items describe the same thing from two sides;
`LockInv` says that they agree, and that a session has what it needs for what it is about to do:
a table write and its action on the hash are always made under the exclusive lock of the key, and
that lock is not given back before the action has been applied.

The invariant holds in EVERY run (`lockInv_step`): nothing here depends on the values in the hash,
nor on how transactions end.  What follows from it is the exclusion that everything else rests on
(`LockInv.exclusive_unique`, `LockInv.commit_table`): the committed value of a key only changes by
the commit of a session that holds the key's exclusive lock.
-/
import FalconFS.DirPathHash.Model
import FalconFS.Lib.Machine

namespace FalconFS.DirPathHash

open Function Machine Server List

/-! ## 1. The invariant -/

/-- The handles of session `t` that the lock of key `k` counts. -/
def Server.handles (s : Server) (k : Key) (t : Sid) (m : RWLockMode) : Nat :=
  match s.hash k with
  | some it => it.lock.count t m
  | none => 0

def HeldInv (s : Server) : Prop :=
  ∀ t k m, (s.session t).held.count (k, m) = s.handles k t m

/-- What a running call relies on. -/
@[mk_iff] structure CallOk (held : List (Key × RWLockMode)) (c : Call) : Prop where
  may : c.op = .search ∨ c.mode = .exclusive ∨ c.mode = .none ∧ (c.key, .exclusive) ∈ held
  read : c.stage = .read → c.op ≠ .delete
  acquire : c.stage = .acquire → (c.key, .declare) ∈ held
  modify : ∀ item, c.stage = .modify item → item = true ∧ (c.key, .exclusive) ∈ held
  enter : ∀ v, c.stage = .enter v → (c.op = .delete ↔ v = .unknown)

structure SessionOk (x : Session) : Prop where
  writes : ∀ w ∈ x.writes, (w.1, .exclusive) ∈ x.held
  updates : ∀ k v, .updateEntry k v ∈ x.toCommit → (k, .exclusive) ∈ x.held
  quiet : x.phase ≠ .active → x.call = none
  done : x.phase = .idle ∨ x.phase = .ending → x.writes = []
  call : ∀ c, x.call = some c → CallOk x.held c

structure LockInv (s : Server) : Prop where
  held : HeldInv s
  ok : ∀ t, SessionOk (s.session t)

theorem sessionOk_fresh : SessionOk .fresh :=
  ⟨by simp [Session.fresh], by simp [Session.fresh], fun _ => rfl, fun _ => rfl,
    by simp [Session.fresh]⟩

theorem lockInv_init (table : Key → Option InodeId) : LockInv (.init table) :=
  ⟨fun _ _ _ => by simp [init, Session.fresh, handles],
    fun _ => sessionOk_fresh⟩

/-! ## 2. Reading the updates -/

@[simp] theorem setSession_session_self (s : Server) (t : Sid) (x : Session) :
    (s.setSession t x).session t = x := by simp [setSession]

variable {t : Sid} {k : Key} {c : Call} {it : Item} {x : Session} {m : RWLockMode} {s' : Server}

theorem setSession_session_ne (s : Server) {u : Sid} (x : Session) (h : u ≠ t) :
    (s.setSession t x).session u = s.session u := by simp [setSession, h]

@[simp] theorem setSession_hash (s : Server) (t : Sid) (x : Session) :
    (s.setSession t x).hash = s.hash := rfl

@[simp] theorem setItem_session (s : Server) (k : Key) (it : Item) :
    (s.setItem k it).session = s.session := rfl

@[simp] theorem setItem_hash_self (s : Server) (k : Key) (it : Item) :
    (s.setItem k it).hash k = some it := by simp [setItem]

theorem setItem_hash_ne (s : Server) {k' : Key} (it : Item) (h : k' ≠ k) :
    (s.setItem k it).hash k' = s.hash k' := by simp [setItem, h]

@[simp] theorem setSession_handles (s : Server) (t : Sid) (x : Session) (k : Key) (u : Sid)
    (m : RWLockMode) : (s.setSession t x).handles k u m = s.handles k u m := rfl

theorem handles_of_hash {s : Server} (h : s.hash k = some it) (u : Sid) (m : RWLockMode) :
    s.handles k u m = it.lock.count u m := by
  simp [handles, h]

theorem handles_of_none {s : Server} (h : s.hash k = none) (u : Sid) (m : RWLockMode) :
    s.handles k u m = 0 := by
  simp [handles, h]

/-- All sessions are in order if the one that moved is. -/
theorem sessionOk_setSession {s : Server} (h : ∀ u, SessionOk (s.session u)) (hx : SessionOk x)
    (u : Sid) : SessionOk ((s.setSession t x).session u) := by
  by_cases hu : u = t
  · subst hu
    rwa [setSession_session_self]
  · rw [setSession_session_ne s x hu]
    exact h u

/-! ## 3. Handles and locks agree -/

section Held

variable {s : Server} (h : HeldInv s)

include h

theorem heldInv_setSession (hx : x.held = (s.session t).held) : HeldInv (s.setSession t x) := by
  intro u k m
  have hold := h u k m
  simp only [handles, setSession, update_apply] at *
  grind

/-- A new value in an item changes no handle. -/
theorem heldInv_setItem (hit : ∀ u m, it.lock.count u m = s.handles k u m) :
    HeldInv (s.setItem k it) := by
  intro u k' m
  have hold := h u k' m
  simp only [handles, setItem, update_apply] at *
  grind

/-- One handle more on both sides. -/
theorem heldInv_push
    (hit : ∀ u n, it.lock.count u n = s.handles k u n + if u = t ∧ n = m then 1 else 0)
    (hx : ∀ p, x.held.count p = (s.session t).held.count p + if p = (k, m) then 1 else 0) :
    HeldInv ((s.setItem k it).setSession t x) := by
  intro u k' n
  have hold := h u k' n
  have hheld := hx (k', n)
  simp only [handles, setItem, setSession, update_apply] at *
  grind

/-- One handle less on both sides. -/
theorem heldInv_pop
    (hit : ∀ u n, it.lock.count u n + (if u = t ∧ n = m then 1 else 0) = s.handles k u n)
    (hx : ∀ p, x.held.count p + (if p = (k, m) then 1 else 0) = (s.session t).held.count p) :
    HeldInv ((s.setItem k it).setSession t x) := by
  intro u k' n
  have hold := h u k' n
  have hheld := hx (k', n)
  simp only [handles, setItem, setSession, update_apply] at *
  grind

/-- A handle that a session has is counted by an item. -/
theorem HeldInv.item (hm : (k, m) ∈ (s.session t).held) :
    ∃ it, s.hash k = some it ∧ 0 < it.lock.count t m := by
  have hpos : 0 < s.handles k t m := h t k m ▸ count_pos_iff.mpr hm
  cases hk : s.hash k with
  | none => simp [handles, hk] at hpos
  | some it => exact ⟨it, rfl, by rwa [handles_of_hash hk] at hpos⟩

theorem heldInv_pin (hit : ∀ u m, it.lock.count u m = s.handles c.key u m) :
    HeldInv (s.pin t c it) := by
  simp only [pin]
  split
  · exact heldInv_setSession (heldInv_setItem h hit) rfl
  · refine heldInv_push (m := .declare) h (fun u n => ?_) fun p => ?_
    · rw [RWLock.count_declare, hit]
    · simp only [count_cons, beq_iff_eq]
      simp [eq_comm]

end Held

variable {s : Server} {space : Bool} {u : Sid}

theorem heldInv_release (h : HeldInv s) (t : Sid) : HeldInv (s.release t) := by
  simp only [release]
  split
  · exact heldInv_setSession h rfl
  · rename_i k m rest hheld
    obtain ⟨it, hk, hpos⟩ := h.item (t := t) (k := k) (m := m) (by simp [hheld])
    simp only [setSession_hash, hk]
    refine heldInv_pop (t := t) (k := k) (m := m) (x := { s.session t with held := rest }) h
      (fun u n => ?_) fun p => ?_
    · rw [handles_of_hash hk]
      exact RWLock.count_release it.lock hpos u n
    · simp only [hheld, count_cons, beq_iff_eq]
      simp [eq_comm]

theorem heldInv_evict (h : HeldInv s) (hk : s.hash k = some it)
    (hd : it.lock.checkDestroyable = true) : HeldInv { s with hash := update s.hash k none } := by
  intro u k' m
  by_cases hkk : k' = k
  · subst hkk
    have hold := h u k' m
    rw [handles_of_hash hk, RWLock.count_of_checkDestroyable hd] at hold
    simpa [handles] using hold
  · have hold := h u k' m
    simpa [handles, hkk] using hold

theorem heldInv_applyToCommit (h : HeldInv s) (hs : s.applyToCommit t space = some s') :
    HeldInv s' := by
  simp only [applyToCommit] at hs
  split at hs
  · cases hs
  · rename_i a rest htc
    have h' : HeldInv (s.setSession t { s.session t with toCommit := rest }) :=
      heldInv_setSession h rfl
    split at hs
    · cases hs
      exact h'
    · rename_i k v
      split at hs
      · rename_i it hk
        cases hs
        exact heldInv_setItem h' fun u m => (handles_of_hash hk u m).symm
      · rename_i hk
        cases hs
        split
        · exact heldInv_setItem h' fun u m => by rw [RWLock.count_init, handles_of_none hk]
        · exact h'

/-- A call keeps the two sides in agreement. -/
theorem heldInv_advance (h : HeldInv s) {x : Choice} (hok : CallOk (s.session t).held c)
    (ha : Advance s t c x s') : HeldInv s' := by
  cases ha with
  | toRead | toEnter | read | readExists | noSpace | modifyFailed | loaded | wrote | corrupt =>
    exact heldInv_setSession h rfl
  | pinFound it hk hs => exact heldInv_pin h fun u m => (handles_of_hash hk u m).symm
  | pinFilled it v hs ho hk hu => exact heldInv_pin h fun u m => (handles_of_hash hk u m).symm
  | pinNew v hs hk =>
    have h' : HeldInv (s.setSession t { s.session t with
        toCommit := (s.session t).toCommit ++ [.addEntry c.key] }) := heldInv_setSession h rfl
    refine heldInv_pin h' fun u m => ?_
    rw [RWLock.count_init, setSession_handles, handles_of_none hk]
  | refused it m hs hk hm hno =>
    refine heldInv_setItem h fun u n => ?_
    rw [handles_of_hash hk]
    exact RWLock.count_attemptLock_refused hno u n
  | acquired it m hs hk hm hgot =>
    have hdecl := hok.acquire hs
    have hmode : m ≠ .declare := by
      rintro rfl
      cases hc : c.mode <;> simp [hc, rwMode] at hm
    -- the lock after the attempt, and then without the declaration
    have hcount := RWLock.count_attemptLock hgot
    have hpos : 0 < (it.lock.attemptLock t m).1.count t .declare := by
      have := h t c.key .declare
      rw [handles_of_hash hk] at this
      rw [hcount, ← this]
      exact Nat.add_pos_left (count_pos_iff.mpr hdecl) _
    intro u k n
    have hold := h u k n
    have hund := RWLock.count_undeclare _ hpos u n
    rw [hcount, ← handles_of_hash hk] at hund
    simp only [handles, setItem, setSession, update_apply] at *
    grind

/-! ## 4. Sessions have the locks they rely on -/

/-- More handles do no harm. -/
theorem SessionOk.setHeld (h : SessionOk x) (hp : x.phase = .active)
    {held : List (Key × RWLockMode)}
    (hsub : ∀ k, (k, .exclusive) ∈ x.held → (k, .exclusive) ∈ held) (hc : CallOk held c) :
    SessionOk { x with held := held, call := some c } where
  writes w hw := hsub _ (h.writes w hw)
  updates k v hu := hsub _ (h.updates k v hu)
  quiet hn := absurd hp hn
  done hd := h.done hd
  call c' hc' := by
    cases hc'
    exact hc

/-- A pinned item: the session declares the lock that it is about to take, or goes on without one
on a key that it has locked. -/
theorem sessionOk_pin (h : SessionOk (s.session t)) (hp : (s.session t).phase = .active)
    (hok : CallOk (s.session t).held c) (it : Item) : SessionOk ((s.pin t c it).session t) := by
  obtain ⟨hmay, -, -, -, -⟩ := hok
  simp only [pin, setStage]
  split_ifs with hm ho <;> rw [setSession_session_self] <;>
    refine h.setHeld hp (by grind [setItem_session]) ?_ <;> constructor <;> grind [setItem_session]

theorem sessionOk_advance (h : LockInv s) {x : Choice} (hp : (s.session t).phase = .active)
    (hc : (s.session t).call = some c) (ha : Advance s t c x s') (u : Sid) :
    SessionOk (s'.session u) := by
  have hok := (h.ok t).call c hc
  -- a write without lock is made on a key that is locked, so there is an item
  have hitem : (c.key, .exclusive) ∈ (s.session t).held → s.hash c.key ≠ none := fun hx => by
    obtain ⟨it, hit, -⟩ := h.held.item hx
    simp [hit]
  have hsub : ∀ k m, (k, .exclusive) ∈ (s.session t).held →
      (k, RWLockMode.exclusive) ∈ (c.key, m) :: (s.session t).held.erase (c.key, .declare) :=
    fun k m hx => mem_cons_of_mem _ ((mem_erase_of_ne (by simp)).mpr hx)
  by_cases hu : u = t
  · subst hu
    cases ha with
    | pinFound it => exact sessionOk_pin (h.ok u) hp hok it
    | pinFilled it v => exact sessionOk_pin (h.ok u) hp hok _
    | pinNew v hs hk =>
      refine sessionOk_pin ?_ ?_ ?_ _ <;> rw [setSession_session_self]
      · refine ⟨(h.ok u).writes, fun k v hu => ?_, (h.ok u).quiet, (h.ok u).done, (h.ok u).call⟩
        exact (h.ok u).updates k v (by simpa using hu)
      · exact hp
      · exact hok
    | refused => exact h.ok u
    | _ =>
      obtain ⟨hmay, hread, hacq, hmod, hent⟩ := hok
      obtain ⟨hwrites, hupdates, hquiet, hdone, -⟩ := h.ok u
      constructor <;> simp only [setStage, fail, write, setSession,
        update_self] <;> grind [callOk_iff, rwMode, setItem_session]
  · have hne : ∀ (r : Server) (y : Session), (r.setSession t y).session u = r.session u :=
      fun r y => setSession_session_ne r y hu
    have hother := h.ok u
    cases ha <;> grind [setStage, fail, write, pin, setItem_session]

/-! ## 5. Every run -/

/-- A session that moves with its handles, while the hash stays. -/
theorem lockInv_setSession (h : LockInv s) (hhash : s'.hash = s.hash)
    (hs : s'.session = update s.session t x) (hheld : x.held = (s.session t).held)
    (hx : SessionOk x) : LockInv s' := by
  constructor
  · intro u k m
    have hold := h.held u k m
    simp only [handles, hhash, hs, update_apply] at *
    grind
  · intro u
    rw [hs, update_apply]
    split_ifs
    · exact hx
    · exact h.ok u

theorem lockInv_release (h : LockInv s) (hp : (s.session t).phase = .ending)
    (htc : (s.session t).toCommit = []) : LockInv (s.release t) := by
  refine ⟨heldInv_release h.held t, ?_⟩
  have hcall := (h.ok t).quiet (by simp [hp])
  have hw := (h.ok t).done (.inr hp)
  simp only [release]
  split
  · refine sessionOk_setSession h.ok ?_
    exact ⟨by simp [hw], by simp [htc], fun _ => hcall, fun _ => hw, by simp [hcall]⟩
  · rename_i k m rest hheld
    have h' : ∀ u, SessionOk ((s.setSession t { s.session t with held := rest }).session u) := by
      refine sessionOk_setSession h.ok ?_
      exact ⟨by simp [hw], by simp [htc], fun _ => hcall, fun _ => hw, by simp [hcall]⟩
    split <;> exact h'

theorem lockInv_applyToCommit (h : LockInv s) (hs : s.applyToCommit t space = some s') :
    LockInv s' := by
  refine ⟨heldInv_applyToCommit h.held hs, ?_⟩
  simp only [applyToCommit] at hs
  split at hs
  · cases hs
  · rename_i a rest htc
    have h' :
        ∀ u, SessionOk ((s.setSession t { s.session t with toCommit := rest }).session u) := by
      refine sessionOk_setSession h.ok ?_
      exact ⟨(h.ok t).writes, fun k v hu => (h.ok t).updates k v (by simp [htc, hu]),
        (h.ok t).quiet, (h.ok t).done, (h.ok t).call⟩
    (repeat' split at hs) <;> cases hs <;> exact h'

/-- **Locks are kept in every run.** -/
theorem lockInv_step {e : Event} (h : LockInv s) (hs : step s e = some s') : LockInv s' := by
  cases e with
  | advance t x =>
    obtain ⟨hp, c, hc, ha⟩ := advance_cases hs
    exact ⟨heldInv_advance h.held ((h.ok t).call c hc) ha, sessionOk_advance h hp hc ha⟩
  | applyToCommit t space =>
    simp only [step] at hs
    split_ifs at hs
    exact lockInv_applyToCommit h hs
  | release t =>
    obtain ⟨hg, rfl⟩ := guard_eq_some hs
    exact lockInv_release h hg.1 hg.2
  | evict k =>
    simp only [step] at hs
    split at hs
    · rename_i it hk
      split_ifs at hs with hd
      cases hs
      exact ⟨heldInv_evict h.held hk hd, h.ok⟩
    · cases hs
  | finishPrepared t gid commit =>
    simp only [step] at hs
    split_ifs at hs
    obtain ⟨p, -, rfl⟩ := Option.map_eq_some_iff.mp hs
    obtain ⟨hwrites, hupdates, hquiet, hdone, hcall⟩ := h.ok t
    exact lockInv_setSession h rfl rfl rfl (by constructor <;> grind)
  | begin t | call t | ret t | commit t | abort t | prepare t | exit t =>
    obtain ⟨hg, rfl⟩ := guard_eq_some hs
    obtain ⟨hwrites, hupdates, hquiet, hdone, hcall⟩ := h.ok t
    exact lockInv_setSession h rfl rfl rfl (by constructor <;> grind [callOk_iff, mayCall])

/-! ## 6. Exclusion -/

/-- Beside an exclusive handle there is no other handle that holds the lock. -/
theorem LockInv.exclusive_unique (h : LockInv s) (ht : (k, .exclusive) ∈ (s.session t).held)
    (hm : m ≠ .declare) (hu : (k, m) ∈ (s.session u).held) :
    u = t ∧ m = .exclusive ∧ (s.session u).held.count (k, m) = 1 := by
  obtain ⟨it, hk, hpos⟩ := h.held.item ht
  have hpos' : 0 < it.lock.count u m := by
    rw [← handles_of_hash hk, ← h.held]
    exact count_pos_iff.mpr hu
  rw [h.held, handles_of_hash hk]
  exact RWLock.count_exclusive hpos hm hpos'

theorem LockInv.exclusive_of_mem (h : LockInv s) (hx : (k, .exclusive) ∈ (s.session t).held) :
    ∃ it, s.hash k = some it ∧ it.lock.exclusive = some t := by
  obtain ⟨it, hk, hpos⟩ := h.held.item hx
  exact ⟨it, hk, RWLock.exclusive_eq_some.mpr hpos⟩

theorem lookup_none_of_not_mem {α β : Type} [DecidableEq α] {l : List (α × β)} {a : α}
    (h : ∀ w ∈ l, w.1 ≠ a) : l.lookup a = none := by
  rw [lookup_eq_none_iff]
  exact fun w hw => bne_iff_ne.mpr (Ne.symm (h w hw))

/-- **Who can change the table.**  The commit of session `t` leaves the value of every key on which
another session holds a lock. -/
theorem LockInv.commit_table (h : LockInv s) (t : Sid) (hu : (k, m) ∈ (s.session u).held)
    (hm : m ≠ .declare) (htu : u ≠ t) : applyWrites (s.session t).writes s.table k = s.table k := by
  rw [applyWrites, lookup_none_of_not_mem, Option.getD_none]
  rintro w hw rfl
  exact htu (h.exclusive_unique ((h.ok t).writes w hw) hm hu).1

end FalconFS.DirPathHash
