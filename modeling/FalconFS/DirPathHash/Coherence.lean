/-
# When the hash tells the truth

An item whose lock is not held exclusively should hold "unknown" or the committed value of its key,
and the comparison in the second LW section should never find a contradiction.  Both rest on the
value that a call carries from its table read to the second section, and the source does nothing to
keep that value current in between:

* the key's committed value can change after the read, so that a stale value is installed in a new
  item, or differs from the one in an item that is there ("dir path hash table is corrupt.");
* the change can be committed and not yet written to the hash, so that a CURRENT value differs from
  the item's.

`FillOk` says that neither happens at this step.  In every run in which it holds, and in which
prepared transactions are finished the way the session-local variables need it (`PrepareOk`),
`Coherent` is an invariant.  `hash_coherent_local` is that for runs without prepared transactions;
`fill_races_with_commit` shows runs without `FillOk`.  `prepared_locks_until_end` is the case with
prepared transactions, `prepared_ends_otherwise` shows runs without `PrepareOk`.
-/
import FalconFS.DirPathHash.Locks
import Mathlib.Data.List.Pairwise

namespace FalconFS.DirPathHash

open Machine List Server Function

/-! ## 1. Actions and writes -/

/-- The last value that the actions will give to the item of `k`. -/
def lastUpdate : List ToCommit → Key → Option (Option InodeId)
  | [], _ => none
  | .addEntry _ :: l, k => lastUpdate l k
  | .updateEntry k' v :: l, k => (lastUpdate l k).or (if k' = k then some v else none)

theorem lastUpdate_addEntry (l : List ToCommit) (k' k : Key) :
    lastUpdate (l ++ [.addEntry k']) k = lastUpdate l k := by
  induction l with
  | nil => rfl
  | cons a l ih => cases a <;> simp [lastUpdate, ih]

theorem lastUpdate_updateEntry (l : List ToCommit) (k' : Key) (v : Option InodeId) (k : Key) :
    lastUpdate (l ++ [.updateEntry k' v]) k = if k' = k then some v else lastUpdate l k := by
  induction l with
  | nil => simp [lastUpdate]
  | cons a l ih =>
    cases a with
    | addEntry => simpa [lastUpdate] using ih
    | updateEntry k'' w =>
      simp only [cons_append, lastUpdate, ih]
      by_cases hk : k' = k <;> simp [hk]

variable {k : Key} {s : Server} {t : Sid} {x : Session} {it : Item}

theorem mem_of_lastUpdate {l : List ToCommit} {v : Option InodeId} (h : lastUpdate l k = some v) :
    .updateEntry k v ∈ l := by
  induction l with
  | nil => simp [lastUpdate] at h
  | cons a l ih =>
    cases a with
    | addEntry => exact mem_cons_of_mem _ (ih h)
    | updateEntry k' w =>
      simp only [lastUpdate, Option.or_eq_some_iff] at h
      rcases h with h | ⟨-, h⟩
      · exact mem_cons_of_mem _ (ih h)
      · split at h
        · rename_i hk
          cases h
          rw [hk]
          exact mem_cons_self
        · cases h

/-! ## 2. The conditions -/

/-- A value that enters the hash, or is compared with what is there, is the committed value of its
key, and no committed change of the key waits to be written to the hash. -/
def FillOk (s : Server) : Event → Prop
  | .advance t _ => ∀ c v, (s.session t).call = some c → c.stage = .enter (.known v) →
      v = s.table c.key ∧ ∀ u, (s.session u).phase = .ending →
        ∀ w, ToCommit.updateEntry c.key w ∉ (s.session u).toCommit
  | _ => True

/-- Session `t` has path locks of the prepared transaction among its handles. -/
def PreparedTxn.HeldBy (p : PreparedTxn) (t : Sid) : Prop := p.owner = t ∧ p.locks ≠ []

/-- A session that has locks of a prepared transaction does nothing but finish it: it begins no
other transaction, finishes no other prepared one, and does not exit.  A prepared transaction with
locks is finished by `COMMIT PREPARED` in the session that prepared it. -/
def PrepareOk (s : Server) : Event → Prop
  | .begin t | .exit t => ∀ p ∈ s.prepared, ¬ p.HeldBy t
  | .finishPrepared t gid commit => ∀ p ∈ s.prepared,
      (p.gid = gid → p.locks ≠ [] → commit = true ∧ p.owner = t) ∧ (p.HeldBy t → p.gid = gid)
  | _ => True

def Steady (s : Server) (e : Event) : Prop := FillOk s e ∧ PrepareOk s e

/-! ## 3. The invariant -/

/-- The item is unknown, or current, or about to become so: its exclusive holder is in its commit
callback. -/
def ItemOk (s : Server) (k : Key) (it : Item) : Prop :=
  it.inodeId = .unknown ∨ it.inodeId = .known (s.table k) ∨
    ∃ t, it.lock.exclusive = some t ∧ (s.session t).phase = .ending ∧
      lastUpdate (s.session t).toCommit k = some (s.table k)

structure Truth (s : Server) : Prop where
  items : ∀ k it, s.hash k = some it → ItemOk s k it
  /-- The actions of a session stand for the writes of its transaction, -/
  agree : ∀ t, (s.session t).phase ≠ .ending → (∀ p ∈ s.prepared, ¬ p.HeldBy t) →
    ∀ k, lastUpdate (s.session t).toCommit k = (s.session t).writes.lookup k
  /-- or of the prepared one for which it waits, with the locks; -/
  waits : ∀ p ∈ s.prepared, p.locks ≠ [] → (s.session p.owner).phase = .idle ∧
    (s.session p.owner).held = p.locks ∧
    ∀ k, lastUpdate (s.session p.owner).toCommit k = p.writes.lookup k
  /-- or of one that has been committed. -/
  settled : ∀ t, (s.session t).phase = .ending →
    ∀ k v, lastUpdate (s.session t).toCommit k = some v → s.table k = v
  notCorrupt : s.corrupt = false
  /-- A session waits for one prepared transaction only. -/
  owners : s.prepared.Pairwise fun p q =>
    (p.locks ≠ [] → q.locks ≠ [] → p.owner ≠ q.owner) ∧ p.gid ≠ q.gid
  bare : ∀ p ∈ s.prepared, p.locks = [] → p.writes = []
  idle : ∀ t, (s.session t).phase = .idle → (∀ p ∈ s.prepared, ¬ p.HeldBy t) →
    (s.session t).held = []

structure Coherent (s : Server) : Prop extends Truth s where
  lock : LockInv s

theorem coherent_init (table : Key → Option InodeId) : Coherent (.init table) where
  lock := lockInv_init table
  items k it h := by simp [init] at h
  agree t _ _ k := rfl
  waits p hp := by simp [init] at hp
  settled t h := by simp [init, Session.fresh] at h
  notCorrupt := rfl
  owners := List.Pairwise.nil
  bare p hp := by simp [init] at hp
  idle t _ _ := rfl

/-- A session that is not idle waits for no prepared transaction. -/
theorem Truth.not_heldBy (h : Truth s) (ht : (s.session t).phase ≠ .idle) :
    ∀ p ∈ s.prepared, ¬ p.HeldBy t := by
  rintro p hp ⟨rfl, hl⟩
  exact ht (h.waits p hp hl).1

/-! ## 4. Steps of one session -/

/-- The item of a key, when session `t` changes: only an item that waits for `t` is concerned. -/
theorem ItemOk.setSession (h : ItemOk s k it)
    (hx : (s.session t).phase = .ending →
      lastUpdate (s.session t).toCommit k = some (s.table k) →
        x.phase = .ending ∧ lastUpdate x.toCommit k = some (s.table k)) :
    ItemOk (s.setSession t x) k it := by
  rcases h with hi | hi | ⟨u, hu, hp, hl⟩
  · exact .inl hi
  · exact .inr (.inl hi)
  · refine .inr (.inr ⟨u, hu, ?_⟩)
    by_cases hut : u = t
    · subst hut
      rw [setSession_session_self]
      exact hx hp hl
    · rw [setSession_session_ne s x hut]
      exact ⟨hp, hl⟩

/-- A step of session `t` has to account for `t` alone. -/
theorem Truth.setSession (h : Truth s) (ht : ∀ p ∈ s.prepared, ¬ p.HeldBy t)
    (hx : x.phase = .idle → x.held = [])
    (hitems : ∀ k it, s.hash k = some it → ItemOk (s.setSession t x) k it)
    (hagree : x.phase ≠ .ending → ∀ k, lastUpdate x.toCommit k = x.writes.lookup k)
    (hsettled : x.phase = .ending → ∀ k v, lastUpdate x.toCommit k = some v → s.table k = v) :
    Truth (s.setSession t x) := by
  -- the sessions that wait for a prepared transaction are others
  obtain ⟨-, hagree', hwaits, hsettled', hcorrupt, howners, hbare, hidle⟩ := h
  refine ⟨hitems, ?_, ?_, ?_, hcorrupt, howners, hbare, ?_⟩ <;>
    simp only [Server.setSession, update_apply, PreparedTxn.HeldBy] at * <;> grind

/-- A session in a transaction may move its call, its handles and its phase. -/
theorem Truth.setSession_quiet (h : Truth s) (hp : (s.session t).phase = .active)
    (hx : x.phase = .active ∨ x.phase = .failed) (hw : x.writes = (s.session t).writes)
    (hu : ∀ k, lastUpdate x.toCommit k = lastUpdate (s.session t).toCommit k) :
    Truth (s.setSession t x) := by
  have hni : (s.session t).phase ≠ .idle := by simp [hp]
  have hne : (s.session t).phase ≠ .ending := by simp [hp]
  refine h.setSession (h.not_heldBy hni) (by grind) (fun k it hk => ?_) (fun _ k => ?_) (by grind)
  · exact (h.items k it hk).setSession fun he => absurd he hne
  · rw [hu, hw]
    exact h.agree t hne (h.not_heldBy hni) k

/-- A new item, or a new value in an item. -/
theorem truth_setItem (h : Truth s) (hi : ItemOk s k it) : Truth (s.setItem k it) := by
  refine { h with items := fun k' it' hk' => ?_ }
  by_cases hk : k' = k
  · subst hk
    rw [setItem_hash_self, Option.some.injEq] at hk'
    exact hk' ▸ hi
  · rw [setItem_hash_ne s it hk] at hk'
    exact h.items k' it' hk'

theorem ItemOk.congr {it' : Item} (h : ItemOk s k it) (hv : it'.inodeId = it.inodeId)
    (hx : it'.lock.exclusive = it.lock.exclusive) : ItemOk s k it' := by
  rwa [ItemOk, hv, hx]

/-! ## 5. The steps of a call -/

section Call

variable {s : Server} {t : Sid} (h : Truth s) (hp : (s.session t).phase = .active)

include h hp

theorem truth_setStage (c : Call) (st : Stage) : Truth (s.setStage t c st) :=
  h.setSession_quiet hp (.inl hp) rfl fun _ => rfl

theorem truth_fail : Truth (s.fail t) := h.setSession_quiet hp (.inr rfl) rfl fun _ => rfl

theorem truth_pin {c : Call} {it : Item} (hi : ItemOk s c.key it) : Truth (s.pin t c it) := by
  simp only [pin]
  split
  · exact truth_setStage (truth_setItem h hi) hp c _
  · have hd : ItemOk s c.key { it with lock := it.lock.declare t } := hi.congr rfl rfl
    exact (truth_setItem h hd).setSession_quiet hp (.inl hp) rfl fun _ => rfl

end Call

variable {l : RWLock Sid} {t : Sid} {m : RWLockMode} {s : Server} {k : Key}

/-- The exclusive holder only changes when the lock is free. -/
theorem attemptLock_exclusive (h : (l.attemptLock t m).2 = true) : l.exclusive = none := by
  cases m <;> grind [RWLock.attemptLock]

theorem attemptLock_refused_exclusive (h : (l.attemptLock t m).2 = false) :
    (l.attemptLock t m).1.exclusive = l.exclusive := by
  cases m <;> grind [RWLock.attemptLock]

/-- A free item is unknown or current. -/
theorem ItemOk.of_free {it : Item} (h : ItemOk s k it) (hx : it.lock.exclusive = none) :
    it.inodeId = .unknown ∨ it.inodeId = .known (s.table k) := by
  rcases h with h | h | ⟨t, ht, -⟩
  · exact .inl h
  · exact .inr h
  · rw [hx] at ht
    cases ht

/-- **A step of a call keeps the hash truthful**, given that what it fills in is current. -/
theorem truth_advance {s' : Server} (h : Coherent s) {c : Call} {x : Choice}
    (hp : (s.session t).phase = .active) (hc : (s.session t).call = some c)
    (hfill : FillOk s (.advance t x)) (ha : Advance s t c x s') : Truth s' := by
  have hok := (h.lock.ok t).call c hc
  -- the value of an item that this call enters
  have hnew : ∀ v, c.stage = .enter v → v = .unknown ∨ v = .known (s.table c.key) := by
    intro v hs
    cases v with
    | unknown => exact .inl rfl
    | known v => exact .inr (by rw [(hfill c v hc hs).1])
  cases ha with
  | toRead | toEnter | read | noSpace | loaded => exact truth_setStage h.toTruth hp c _
  | readExists | modifyFailed => exact truth_fail h.toTruth hp
  | pinFound it hk hs => exact truth_pin h.toTruth hp (h.items _ _ hk)
  | pinFilled it v hs ho hk hu =>
    exact truth_pin h.toTruth hp ((hnew v hs).imp_right .inl)
  | pinNew v hs hk =>
    have h' : Truth (s.setSession t { s.session t with
        toCommit := (s.session t).toCommit ++ [.addEntry c.key] }) :=
      h.setSession_quiet hp (.inl hp) rfl fun k => lastUpdate_addEntry _ _ k
    refine truth_pin h' ?_ ?_
    · rw [setSession_session_self]
      exact hp
    · exact (hnew v hs).imp_right .inl
  | corrupt it v hs ho hk hu hv =>
    -- the item is current, and so is the value to compare it with
    have hne : v ≠ .unknown := fun hvu => ho ((hok.enter v hs).mpr hvu)
    obtain ⟨w, rfl⟩ : ∃ w, v = .known w := by
      cases v with
      | unknown => exact absurd rfl hne
      | known w => exact ⟨w, rfl⟩
    obtain ⟨hw, hnone⟩ := hfill c w hc hs
    rcases h.items _ _ hk with hi | hi | ⟨u, -, hu', hlast⟩
    · exact absurd hi hu
    · exact absurd (hi.trans (by rw [hw])) hv
    · exact absurd (mem_of_lastUpdate hlast) (hnone u hu' _)
  | refused it m hs hk hm hno =>
    exact truth_setItem h.toTruth
      ((h.items _ _ hk).congr rfl (attemptLock_refused_exclusive hno))
  | acquired it m hs hk hm hgot =>
    have hfree := (h.items _ _ hk).of_free (attemptLock_exclusive hgot)
    refine Truth.setSession_quiet (truth_setItem h.toTruth ?_) hp (.inl hp) rfl fun _ => rfl
    exact hfree.imp_right .inl
  | wrote item v hs hfree ho =>
    obtain ⟨rfl, -⟩ := hok.modify item hs
    have hni : (s.session t).phase ≠ .idle := by simp [hp]
    have hne : (s.session t).phase ≠ .ending := by simp [hp]
    refine h.toTruth.setSession (h.not_heldBy hni) (fun hi => absurd hi hni) (fun k it hk => ?_)
      (fun _ k => ?_) fun he => absurd he hne
    · exact (h.items k it hk).setSession fun he => absurd he hne
    · simp only [if_true, lastUpdate_updateEntry, h.agree t hne (h.not_heldBy hni), lookup_cons]
      by_cases hk : c.key = k
      · simp [hk]
      · have hbeq : (k == c.key) = false := by simpa using Ne.symm hk
        simp [hk, hbeq]

/-! ## 6. The end of a transaction -/

/-- The key of an action is locked by the session that will apply it. -/
theorem LockInv.held_of_lastUpdate (h : LockInv s) {v : Option InodeId}
    (hl : lastUpdate (s.session t).toCommit k = some v) : (k, .exclusive) ∈ (s.session t).held :=
  (h.ok t).updates k v (mem_of_lastUpdate hl)

/-- The writes `W` become visible, for which session `t` has the actions; `ps` is what is left of
the prepared transactions. -/
def Server.settle (s : Server) (t : Sid) (W : List (Key × Option InodeId)) (ps : List PreparedTxn)
    (x : Session) : Server :=
  { s with table := applyWrites W s.table, prepared := ps }.setSession t x

section Settle

variable (s : Server) {t : Sid} (W : List (Key × Option InodeId)) (ps : List PreparedTxn)
  (x : Session)

@[simp] theorem settle_table : (s.settle t W ps x).table = applyWrites W s.table := rfl

@[simp] theorem settle_session_self : (s.settle t W ps x).session t = x := by simp [settle]

theorem settle_session_ne {u : Sid} (h : u ≠ t) :
    (s.settle t W ps x).session u = s.session u := setSession_session_ne _ _ h

end Settle

variable {s s' : Server} {t : Sid} {p : PreparedTxn} {k : Key} {e : Event}

/-- **The writes become visible together with the promise to repeat them in the hash.** -/
theorem truth_settle (h : Coherent s) (hne : (s.session t).phase ≠ .ending)
    {W : List (Key × Option InodeId)} (hW : ∀ k, lastUpdate (s.session t).toCommit k = W.lookup k)
    {ps : List PreparedTxn} (hsub : ps.Sublist s.prepared) (hps : ∀ p ∈ ps, ¬ p.HeldBy t)
    (hrest : ∀ p ∈ s.prepared, p ∈ ps ∨ p.HeldBy t ∨ p.locks = []) {x : Session}
    (hx : x.phase = .ending) (htc : x.toCommit = (s.session t).toCommit) :
    Truth (s.settle t W ps x) := by
  -- another session's action keeps the committed value where it is
  have htable : ∀ u, u ≠ t → ∀ k v, lastUpdate (s.session u).toCommit k = some v →
      applyWrites W s.table k = s.table k := by
    intro u hu k v hl
    cases hw : W.lookup k with
    | none => simp [applyWrites, hw]
    | some w =>
      have := h.lock.exclusive_unique (h.lock.held_of_lastUpdate ((hW k).trans hw)) (by simp)
        (h.lock.held_of_lastUpdate hl)
      exact absurd this.1 hu
  -- a session other than `t` that waits for none of `ps` waits for none at all
  have hwaits : ∀ u, u ≠ t → (∀ p ∈ ps, ¬ p.HeldBy u) → ∀ p ∈ s.prepared, ¬ p.HeldBy u := by
    intro u hu hno p hp hpu
    rcases hrest p hp with hmem | hpt | hbare
    · exact hno p hmem hpu
    · exact hu (hpu.1.symm.trans hpt.1)
    · exact hpu.2 hbare
  refine ⟨fun k it hk => ?_, ?_, ?_, ?_, h.notCorrupt, h.owners.sublist hsub,
    fun p hp => h.bare p (hsub.subset hp), ?_⟩
  · cases hw : W.lookup k with
    | none =>
      have hsame : applyWrites W s.table k = s.table k := by simp [applyWrites, hw]
      rcases h.items k it hk with hi | hi | ⟨u, hxu, hu, hl⟩
      · exact .inl hi
      · exact .inr (.inl (by rw [hi, settle_table, hsame]))
      · have hut : u ≠ t := by
          rintro rfl
          exact hne hu
        refine .inr (.inr ⟨u, hxu, ?_⟩)
        rw [settle_session_ne s W ps x hut, settle_table, hsame]
        exact ⟨hu, hl⟩
    | some w =>
      have hheld := h.lock.held_of_lastUpdate ((hW k).trans hw)
      obtain ⟨it', hk', hex⟩ := h.lock.exclusive_of_mem hheld
      obtain rfl : it = it' := Option.some.inj (hk.symm.trans hk')
      refine .inr (.inr ⟨t, hex, ?_⟩)
      rw [settle_session_self, settle_table, htc, hW, hw]
      exact ⟨hx, by simp [applyWrites, hw]⟩
  -- what the invariant says of the other sessions stays, and `t` is in its callback
  all_goals
    obtain ⟨-, hagree, hwaits', hsettled, -, -, -, hidle⟩ := h.toTruth
    simp only [settle, setSession, update_apply] at *
    grind [applyWrites, PreparedTxn.HeldBy, List.Sublist.subset]

theorem truth_commit (h : Coherent s) (hp : (s.session t).phase = .active) :
    Truth (s.commit t) := by
  have hno := h.not_heldBy (t := t) (by simp [hp])
  exact truth_settle h (by simp [hp]) (h.agree t (by simp [hp]) hno) (List.Sublist.refl _) hno
    (fun p hpp => .inl hpp) rfl rfl

theorem Truth.gid_unique (h : Truth s) {q : PreparedTxn} (hp : p ∈ s.prepared) (hq : q ∈ s.prepared)
    (hpq : p.gid = q.gid) : p = q := by
  have hsymm : Std.Symm fun p q : PreparedTxn =>
      (p.locks ≠ [] → q.locks ≠ [] → p.owner ≠ q.owner) ∧ p.gid ≠ q.gid :=
    ⟨fun _ _ hab => ⟨fun hq hp => (hab.1 hp hq).symm, hab.2.symm⟩⟩
  by_contra hne
  exact (h.owners.forall hp hq hne).2 hpq

/-- `COMMIT PREPARED` by the session with the locks and the actions; a prepared transaction without
locks has no writes, and may be finished by anybody who waits for no other. -/
theorem truth_finishPrepared (h : Coherent s) {commit : Bool} (hp : p ∈ s.prepared)
    (ht : (s.session t).phase = .idle) (hown : p.locks ≠ [] → commit = true ∧ p.owner = t)
    (honly : ∀ q ∈ s.prepared, q.HeldBy t → q.gid = p.gid) :
    Truth (s.finishPrepared t p commit) := by
  have hne : (s.session t).phase ≠ .ending := by simp [ht]
  have hps : ∀ q ∈ s.prepared.filter (·.gid ≠ p.gid), ¬ q.HeldBy t := by
    intro q hq hqt
    obtain ⟨hq, hg⟩ := mem_filter.mp hq
    exact of_decide_eq_true hg (honly q hq hqt)
  have hrest : ∀ q ∈ s.prepared, q ∈ s.prepared.filter (·.gid ≠ p.gid) ∨ q = p := by
    intro q hq
    by_cases hg : q.gid = p.gid
    · exact .inr (h.gid_unique hq hp hg)
    · exact .inl (mem_filter.mpr ⟨hq, decide_eq_true hg⟩)
  by_cases hl : p.locks = []
  · have hno : ∀ q ∈ s.prepared, ¬ q.HeldBy t := by
      intro q hq hqt
      rw [h.gid_unique hq hp (honly q hq hqt)] at hqt
      exact hqt.2 hl
    have hW : ∀ k, lastUpdate (s.session t).toCommit k = ([] : List _).lookup k := by
      rw [← (h.lock.ok t).done (.inl ht)]
      exact h.agree t hne hno
    have hend := truth_settle h hne hW filter_sublist hps
      (fun q hq => (hrest q hq).imp_right fun he => .inr (by rw [he, hl]))
      (x := { s.session t with phase := .ending }) rfl rfl
    have htable : (if commit then applyWrites p.writes s.table else s.table) = s.table := by
      rw [h.bare p hp hl]
      exact ite_self _
    rw [finishPrepared, htable]
    exact hend
  · obtain ⟨rfl, rfl⟩ := hown hl
    exact truth_settle h hne (h.waits p hp hl).2.2 filter_sublist hps
      (fun q hq => (hrest q hq).imp_right fun he => .inl (by rw [he]; exact ⟨rfl, hl⟩)) rfl rfl

/-- An aborted transaction leaves the table, and drops its actions. -/
theorem truth_abort (h : Truth s) (hne : (s.session t).phase ≠ .ending)
    (hno : ∀ p ∈ s.prepared, ¬ p.HeldBy t) : Truth (s.abort t) := by
  refine h.setSession hno (by simp) (fun k it hk => ?_) (fun _ _ => rfl) fun _ k v hv => ?_
  · exact (h.items k it hk).setSession fun he => absurd he hne
  · simp [lastUpdate] at hv

/-- What an action does to the list of its session. -/
theorem lastUpdate_cons_ne {k' : Key} (hk : k' ≠ k) (v : Option InodeId) (l : List ToCommit) :
    lastUpdate (.updateEntry k' v :: l) k = lastUpdate l k := by
  simp [lastUpdate, hk]

theorem truth_takeAction (h : Truth s) (hp : (s.session t).phase = .ending) {a : ToCommit}
    {rest : List ToCommit} (htc : (s.session t).toCommit = a :: rest)
    (hitems : ∀ k v, a = .updateEntry k v → ∀ it, s.hash k = some it →
      it.lock.exclusive = some t ∧ it.inodeId = .known v) :
    Truth (s.setSession t { s.session t with toCommit := rest }) := by
  have hni : (s.session t).phase ≠ .idle := by simp [hp]
  have hlast :
      ∀ k v, lastUpdate rest k = some v → lastUpdate (s.session t).toCommit k = some v := by
    intro k v hv
    rw [htc]
    cases a with
    | addEntry => exact hv
    | updateEntry k' w => simp [lastUpdate, hv]
  refine h.setSession (h.not_heldBy hni) (fun hi => absurd hi hni) (fun k it hk => ?_)
    (fun he => absurd hp he) fun _ k v hv => h.settled t hp k v (hlast k v hv)
  cases hrest : lastUpdate rest k with
  | some v =>
    have hv := h.settled t hp k v (hlast k v hrest)
    exact (h.items k it hk).setSession fun _ _ => ⟨hp, by rw [hv]; exact hrest⟩
  | none =>
    -- no action for the key is left, so the head, if it is one, was the last
    by_cases ha : ∃ v, a = .updateEntry k v
    · obtain ⟨v, rfl⟩ := ha
      have hv := h.settled t hp k v (by rw [htc]; simp [lastUpdate, hrest])
      exact .inr (.inl (by rw [(hitems k v rfl it hk).2, ← hv]; rfl))
    · refine (h.items k it hk).setSession fun _ hl => ?_
      rw [htc] at hl
      cases a with
      | addEntry => rw [lastUpdate, hrest] at hl; cases hl
      | updateEntry k' w =>
        have hk' : k' ≠ k := fun hk' => ha ⟨w, by rw [hk']⟩
        rw [lastUpdate_cons_ne hk', hrest] at hl
        cases hl

/-- **An action brings its item up to date.** -/
theorem truth_applyToCommit (h : Coherent s) {space : Bool} (hp : (s.session t).phase = .ending)
    (hs : s.applyToCommit t space = some s') : Truth s' := by
  simp only [applyToCommit] at hs
  split at hs
  · cases hs
  · rename_i a rest htc
    cases a with
    | addEntry k =>
      cases hs
      exact truth_takeAction h.toTruth hp htc (by simp)
    | updateEntry k v =>
      have hheld := (h.lock.ok t).updates k v (by simp [htc])
      obtain ⟨it, hk, hx⟩ := h.lock.exclusive_of_mem hheld
      simp only [setSession_hash, hk] at hs
      cases hs
      -- the item first, then the list: each of the two keeps the invariant
      have hl : lastUpdate (s.session t).toCommit k = some (s.table k) := by
        cases hlast : lastUpdate (s.session t).toCommit k with
        | none => simp [htc, lastUpdate] at hlast
        | some w => rw [h.settled t hp k w hlast]
      have hitem : Truth (s.setItem k { it with inodeId := .known v }) :=
        truth_setItem h.toTruth (.inr (.inr ⟨t, hx, hp, hl⟩))
      refine truth_takeAction hitem hp htc ?_
      rintro k' v' heq it' hk'
      cases heq
      rw [setItem_hash_self, Option.some.injEq] at hk'
      rw [← hk']
      exact ⟨hx, rfl⟩

/-- Releasing a lock uncovers nothing: once the actions are applied, the item is current. -/
theorem itemOk_release (h : Coherent s) (htc : (s.session t).toCommit = []) {m : RWLockMode}
    {it : Item} (hk : s.hash k = some it) (hpos : 0 < it.lock.count t m) :
    ItemOk s k { it with lock := it.lock.release t m } := by
  cases m with
  | declare | shared => exact (h.items k it hk).congr rfl rfl
  | exclusive =>
    rcases h.items k it hk with hi | hi | ⟨u, hx, -, hl⟩
    · exact .inl hi
    · exact .inr (.inl hi)
    · rw [RWLock.exclusive_eq_some.mpr hpos] at hx
      cases hx
      rw [htc] at hl
      cases hl

theorem truth_release (h : Coherent s) (hp : (s.session t).phase = .ending)
    (htc : (s.session t).toCommit = []) : Truth (s.release t) := by
  have hown : ∀ p ∈ s.prepared, ¬ p.HeldBy t := h.not_heldBy (by simp [hp])
  have hitem : ∀ k it, s.hash k = some it → ∀ x : Session, ItemOk (s.setSession t x) k it :=
    fun k it hk x => (h.items k it hk).setSession fun _ hl => by rw [htc] at hl; cases hl
  simp only [release]
  split
  · rename_i hheld
    refine h.toTruth.setSession hown (fun _ => hheld) (fun k it hk => hitem k it hk _)
      (fun _ k => ?_) (by simp)
    rw [htc, (h.lock.ok t).done (.inr hp)]
    rfl
  · rename_i k m rest hheld
    obtain ⟨it, hk, hpos⟩ := h.lock.held.item (t := t) (k := k) (m := m) (by simp [hheld])
    simp only [setSession_hash, hk]
    have h' : Truth (s.setSession t { s.session t with held := rest }) :=
      h.toTruth.setSession hown (by simp [hp]) (fun k it hk => hitem k it hk _)
        (fun he => absurd hp he) (h.settled t)
    refine truth_setItem h' ?_
    exact (itemOk_release h htc hk hpos).setSession fun _ hl => by rw [htc] at hl; cases hl

theorem truth_evict (h : Truth s) (k : Key) : Truth { s with hash := update s.hash k none } := by
  refine { h with items := fun k' it hk' => ?_ }
  by_cases hk : k' = k
  · subst hk
    simp at hk'
  · simp only [update_of_ne hk] at hk'
    exact h.items k' it hk'

/-- A prepared transaction takes over the writes; the handles and the actions stay behind. -/
theorem truth_prepare (h : Coherent s) {gid : Nat} (hp : (s.session t).phase = .active)
    (hgid : ∀ p ∈ s.prepared, p.gid ≠ gid) : Truth (s.prepare t gid) := by
  have hni : (s.session t).phase ≠ .idle := by simp [hp]
  have hne : (s.session t).phase ≠ .ending := by simp [hp]
  have hno := h.not_heldBy hni
  have hwrites : (s.session t).held = [] → (s.session t).writes = [] := by
    intro hheld
    refine eq_nil_iff_forall_not_mem.mpr fun w hw => ?_
    have := (h.lock.ok t).writes w hw
    simp [hheld] at this
  refine ⟨fun k it hk => ?_, ?_, ?_, ?_, h.notCorrupt, ?_, ?_, ?_⟩
  · exact ItemOk.setSession (s := { s with prepared := _ }) (h.items k it hk)
      fun he => absurd he hne
  -- without handles there are no writes to take over, and with them the session is the owner
  all_goals
    obtain ⟨-, hagree, hwaits, hsettled, -, howners, hbare, hidle⟩ := h.toTruth
    simp only [prepare, setSession, update_apply, PreparedTxn.HeldBy,
      mem_cons, pairwise_cons, forall_eq_or_imp] at *
    grind

/-! ## 7. Every run -/

theorem truth_step (h : Coherent s) (hc : Steady s e) (hs : step s e = some s') : Truth s' := by
  cases e with
  | begin t =>
    obtain ⟨hp, rfl⟩ := guard_eq_some hs
    have hne : (s.session t).phase ≠ .ending := by simp [hp]
    refine h.toTruth.setSession hc.2 (by simp) (fun k it hk => ?_) (fun _ k => ?_) (by simp)
    · exact (h.items k it hk).setSession fun he => absurd he hne
    · exact h.agree t hne hc.2 k
  | call t op k mode =>
    obtain ⟨hp, rfl⟩ := guard_eq_some hs
    exact h.toTruth.setSession_quiet hp.1 (.inl hp.1) rfl fun _ => rfl
  | advance t x =>
    obtain ⟨hp, c, hcall, ha⟩ := advance_cases hs
    exact truth_advance h hp hcall hc.1 ha
  | ret t =>
    obtain ⟨hr, rfl⟩ := guard_eq_some hs
    have hp : (s.session t).phase = .active := by
      by_contra hp
      rw [(h.lock.ok t).quiet hp] at hr
      simp at hr
    exact h.toTruth.setSession_quiet hp (.inl hp) rfl fun _ => rfl
  | commit t =>
    obtain ⟨hp, rfl⟩ := guard_eq_some hs
    exact truth_commit h hp.1
  | abort t =>
    obtain ⟨hp, rfl⟩ := guard_eq_some hs
    refine truth_abort h.toTruth ?_ (h.not_heldBy ?_) <;> rcases hp with hp | hp <;> simp [hp]
  | applyToCommit t space =>
    simp only [step] at hs
    split_ifs at hs with hp
    exact truth_applyToCommit h hp hs
  | release t =>
    obtain ⟨hp, rfl⟩ := guard_eq_some hs
    exact truth_release h hp.1 hp.2
  | evict k =>
    simp only [step] at hs
    split at hs
    · split at hs <;> cases hs
      exact truth_evict h.toTruth k
    · cases hs
  | prepare t gid =>
    obtain ⟨hp, rfl⟩ := guard_eq_some hs
    refine truth_prepare h hp.1 fun p hpp hg => hp.2.2 ?_
    exact any_eq_true.mpr ⟨p, hpp, by simp [hg]⟩
  | finishPrepared t gid commit =>
    simp only [step] at hs
    split_ifs at hs with hp
    obtain ⟨p, hfind, rfl⟩ := Option.map_eq_some_iff.mp hs
    have hmem := mem_of_find?_eq_some hfind
    have hgid : p.gid = gid := by simpa using find?_some hfind
    subst hgid
    exact truth_finishPrepared h hmem hp ((hc.2 p hmem).1 rfl) fun q hq => (hc.2 q hq).2
  | exit t =>
    obtain ⟨hp, rfl⟩ := guard_eq_some hs
    exact truth_abort h.toTruth hp hc.2

theorem coherent_step (h : Coherent s) (hc : Steady s e) (hs : step s e = some s') : Coherent s' :=
  { truth_step h hc hs with lock := lockInv_step h.lock hs }

/-- The run lemma. -/
theorem coherent_run {table : Key → Option InodeId} (h : Run step Steady (.init table) s) :
    Coherent s :=
  h.invariant (coherent_init table) fun _ _ _ hi hc hs => coherent_step hi hc hs

/-- What the hash promises to a reader: an item that nobody holds exclusively is unknown or has
the committed value. -/
def Server.Current (s : Server) : Prop :=
  ∀ k it, s.hash k = some it → it.lock.exclusive = none →
    it.inodeId = .unknown ∨ it.inodeId = .known (s.table k)

theorem Coherent.current (h : Coherent s) : s.Current :=
  fun k it hk hx => (h.items k it hk).of_free hx

/-! ## 8. Local transactions -/

/-- The events of transactions that are not prepared. -/
def Event.isLocal : Event → Bool
  | .prepare _ _ | .finishPrepared _ _ _ => false
  | _ => true

theorem prepared_advance {c : Call} {x : Choice} (ha : Advance s t c x s') :
    s'.prepared = s.prepared := by
  cases ha <;> grind [pin, setStage, fail, write, setItem,
    setSession]

theorem prepared_of_isLocal (he : e.isLocal = true) (hs : step s e = some s') :
    s'.prepared = s.prepared := by
  cases e with
  | advance t x =>
    obtain ⟨-, c, -, ha⟩ := advance_cases hs
    exact prepared_advance ha
  | prepare | finishPrepared => cases he
  | _ =>
    simp only [step, applyToCommit, release] at hs
    (repeat' split at hs) <;> cases hs <;> rfl

/-- Without prepared transactions, only the fills matter. -/
theorem steady_of_isLocal (hp : s.prepared = []) (he : e.isLocal = true) (hf : FillOk s e) :
    Steady s e := by
  refine ⟨hf, ?_⟩
  cases e with
  | begin t | exit t => simp [PrepareOk, hp]
  | prepare | finishPrepared => cases he
  | _ => trivial

/-- **The hash and the table agree**, for any number of local transactions in any interleaving, as
long as every value that is filled in is still the committed one. -/
theorem hash_coherent_local {table : Key → Option InodeId} {s : Server}
    (h : Run step (fun s e => e.isLocal = true ∧ FillOk s e) (.init table) s) :
    s.Current ∧ s.corrupt = false := by
  have hinv : Coherent s ∧ s.prepared = [] := by
    refine h.invariant (I := fun s => Coherent s ∧ s.prepared = []) ⟨coherent_init table, rfl⟩ ?_
    rintro s e s' ⟨hc, hp⟩ ⟨hl, hf⟩ hs
    exact ⟨coherent_step hc (steady_of_isLocal hp hl hf) hs,
      (prepared_of_isLocal hl hs).trans hp⟩
  exact ⟨hinv.1.current, hinv.1.notCorrupt⟩

/-- A key, an id, and a server choice for the runs below. -/
def sampleKey : Key := ⟨1, [97]⟩

def room : Choice := ⟨true, none⟩

/-- Session `t` calls the hash and is alone until the call has returned, after `n` steps. -/
def wholeCall (t : Sid) (op : Op) (mode : DirLockMode) (n : Nat) : List Event :=
  .call t op sampleKey mode :: (replicate n (.advance t room) ++ [.ret t])

/-- The commit of session `t` with its callback: `n` actions, `m` handles. -/
def wholeCommit (t : Sid) (n m : Nat) : List Event :=
  .commit t :: (replicate n (.applyToCommit t true) ++ replicate (m + 1) (.release t))

/-- A server with an empty directory table. -/
def emptyServer : Server := .init fun _ => none

/-- The worker's part of a `mkdir`, up to the end of the transaction. -/
def insertRun : List Event := .begin 1 :: wholeCall 1 (.insert 5) .exclusive 5

def insertDone : Server := (exec step emptyServer insertRun).getD emptyServer

theorem insertDone_steady :
    Run step (fun s e => e.isLocal = true ∧ Steady s e) emptyServer insertDone := by
  refine .tail (e := .ret 1) (.tail (e := .advance 1 room) (.tail (e := .advance 1 room)
    (.tail (e := .advance 1 room) (.tail (e := .advance 1 room) (.tail (e := .advance 1 room)
    (.tail (e := .call 1 (.insert 5) sampleKey .exclusive) (.tail (e := .begin 1) .refl
      ⟨rfl, trivial, by simp [PrepareOk, emptyServer, Server.init]⟩ rfl)
      ⟨rfl, trivial, trivial⟩ rfl)
    ⟨rfl, ?find, trivial⟩ rfl) ⟨rfl, ?read, trivial⟩ rfl) ⟨rfl, ?fill, trivial⟩ rfl)
    ⟨rfl, ?acquire, trivial⟩ rfl) ⟨rfl, ?modify, trivial⟩ rfl) ⟨rfl, trivial, trivial⟩ rfl
  case find | read | acquire | modify =>
    intro c v hc hs
    cases hc
    cases hs
  case fill =>
    intro c v hc hs
    cases hc
    cases hs
    refine ⟨rfl, fun u hu => ?_⟩
    by_cases hut : u = 1
    · subst hut
      cases hu
    · simp [Server.read, Server.find, Server.setStage, Server.setSession, emptyServer,
        Server.init, Session.fresh, applyWrites, hut] at hu

theorem hash_coherent_local_mkdir : ∃ s,
    exec step insertDone (wholeCommit 1 2 1) = some s ∧ s.table sampleKey = some 5 ∧
      (s.hash sampleKey).map (·.inodeId) = some (.known (some 5)) ∧
      s.Current ∧ s.corrupt = false := by
  refine ⟨_, rfl, rfl, rfl, @hash_coherent_local (fun _ => none) _ ?_⟩
  refine (insertDone_steady.mono fun s e h => ⟨h.1, h.2.1⟩).trans
    (Run.of_exec_meet (wholeCommit 1 2 1) rfl (allMeet_of_forall _ _ ?_))
  intro e he s
  simp only [wholeCommit, mem_cons, mem_append, mem_replicate] at he
  rcases he with rfl | ⟨-, rfl⟩ | ⟨-, rfl⟩ <;> exact ⟨rfl, trivial⟩

/-- Session 1 has read the id of the key when session 2 deletes the key and commits, and the item is
evicted; then session 1 goes on. -/
def staleFill : List Event :=
  lookUpOthers ++
    [.begin 1, .call 1 .search sampleKey .shared, .advance 1 room, .advance 1 room, .begin 2] ++
    wholeCall 2 .delete .exclusive 4 ++ wholeCommit 2 2 1 ++ [.evict sampleKey, .advance 1 room]

/-- **Without the condition both fail.**  First schedule, on an empty table: session 1 has read
"does not exist" and waits for LW when session 2 inserts the key and commits; the comparison then
finds a contradiction.  Second schedule, on a table with the key: session 1 installs an item with
the id of a directory that is gone.  The partition has 13 items when one of them is evicted. -/
theorem fill_races_with_commit :
    (∃ s, exec step emptyServer
        ([.begin 1, .call 1 .search sampleKey .shared, .advance 1 room, .advance 1 room,
          .begin 2] ++ wholeCall 2 (.insert 5) .exclusive 5 ++ wholeCommit 2 2 1 ++
            [.advance 1 room]) = some s ∧
      s.corrupt = true) ∧
    ∃ s, exec step (.init (update (fun _ => none) sampleKey (some 5))) staleFill = some s ∧
      AllMeet step (fun s e => crowded (sampleKey :: others) s e = true)
        (.init (update (fun _ => none) sampleKey (some 5))) staleFill ∧
      ¬ s.Current := by
  refine ⟨⟨_, rfl, rfl⟩, _, rfl, by decide +kernel, fun h => ?_⟩
  rcases h sampleKey _ rfl rfl with hi | hi <;> cases hi

/-! ## 9. Prepared transactions -/

/-- **A prepared transaction keeps its locks to its end and leaves a current hash**, in runs in
which the session that prepared it waits and then commits it. -/
theorem prepared_locks_until_end {table : Key → Option InodeId} {s : Server}
    (h : Run step Steady (.init table) s) :
    s.Current ∧
      (∀ p ∈ s.prepared, ∀ l ∈ p.locks, 0 < s.handles l.1 p.owner l.2) ∧
      ∀ t, (s.session t).phase = .idle → (∀ p ∈ s.prepared, ¬ p.HeldBy t) →
        ∀ k m, s.handles k t m = 0 := by
  have hc := coherent_run h
  refine ⟨hc.current, fun p hp l hl => ?_, fun t ht hno k m => ?_⟩
  · have hheld := (hc.waits p hp (ne_nil_of_mem hl)).2.1
    rw [← hc.lock.held, hheld]
    exact count_pos_iff.mpr hl
  · rw [← hc.lock.held, hc.idle t ht hno]
    rfl

/-- The callback of the session that finishes a prepared transaction. -/
def wholeFinish (t : Sid) (commit : Bool) (n m : Nat) : List Event :=
  .finishPrepared t 7 commit ::
    (replicate n (.applyToCommit t true) ++ replicate (m + 1) (.release t))

theorem prepared_locks_until_end_mkdir : ∃ s,
    exec step insertDone (.prepare 1 7 :: wholeFinish 1 true 2 1) = some s ∧
      s.table sampleKey = some 5 ∧
      (s.hash sampleKey).map (·.inodeId) = some (.known (some 5)) ∧ s.Current ∧
      (∀ p ∈ s.prepared, ∀ l ∈ p.locks, 0 < s.handles l.1 p.owner l.2) ∧
      ∀ t, (s.session t).phase = .idle → (∀ p ∈ s.prepared, ¬ p.HeldBy t) →
        ∀ k m, s.handles k t m = 0 := by
  refine ⟨_, rfl, rfl, rfl, @prepared_locks_until_end (fun _ => none) _ ?_⟩
  have hprepare : Steady insertDone (.prepare 1 7) := ⟨trivial, trivial⟩
  have hfinish : Steady (insertDone.prepare 1 7) (.finishPrepared 1 7 true) := by
    refine ⟨trivial, fun p hp => ?_⟩
    obtain rfl := mem_singleton.mp hp
    exact ⟨fun _ _ => ⟨rfl, rfl⟩, fun _ => rfl⟩
  have hended := ((insertDone_steady.mono fun s e h => h.2).tail hprepare rfl).tail hfinish rfl
  refine hended.trans (Run.of_exec_meet
    (replicate 2 (.applyToCommit 1 true) ++ replicate 2 (.release 1)) rfl
    (allMeet_of_forall _ _ ?_))
  intro e he s
  simp only [mem_append, mem_replicate] at he
  rcases he with ⟨-, rfl⟩ | ⟨-, rfl⟩ <;> exact ⟨trivial, trivial⟩

/-- **Any other end breaks it.**  After the worker's part of a `mkdir` and `PREPARE TRANSACTION`:
`ROLLBACK PREPARED` in the same session writes the id to the hash that never came to the table;
`COMMIT PREPARED` in another session leaves the exclusive lock behind; another transaction of the
session, or its exit, releases the lock before the prepared one has ended. -/
theorem prepared_ends_otherwise :
    (∃ s, exec step insertDone (.prepare 1 7 :: wholeFinish 1 false 2 1) = some s ∧
      ¬ s.Current) ∧
    (∃ s, exec step insertDone (.prepare 1 7 :: wholeFinish 2 true 0 0) = some s ∧
      s.prepared = [] ∧ (∀ t ∈ [1, 2], (s.session t).phase = .idle) ∧
      s.handles sampleKey 1 .exclusive = 1) ∧
    (∃ s p, exec step insertDone ([.prepare 1 7, .begin 1] ++ wholeCommit 1 2 1) = some s ∧
      s.prepared = [p] ∧ (sampleKey, .exclusive) ∈ p.locks ∧
      s.handles sampleKey p.owner .exclusive = 0) ∧
    ∃ s p, exec step insertDone ([.prepare 1 7, .exit 1, .release 1]) = some s ∧
      s.prepared = [p] ∧ (sampleKey, .exclusive) ∈ p.locks ∧
      s.handles sampleKey p.owner .exclusive = 0 := by
  refine ⟨⟨_, rfl, fun h => ?_⟩, ⟨_, rfl, rfl, by decide, rfl⟩,
    ⟨_, _, rfl, rfl, by decide, rfl⟩, _, _, rfl, rfl, by decide, rfl⟩
  rcases h sampleKey _ rfl rfl with hi | hi <;> cases hi

end FalconFS.DirPathHash
