/-
# Eviction of dir-path hash entries

`EliminateDirPathHashByLRU` picks its victim under the partition's lightweight lock in shared mode,
copies the key, gives the lock back, and comes again in exclusive mode to remove the entry.  What
the other sessions do in between is why it looks the key up a second time and asks again whether
the entry is destroyable.

`Evicting` is the server of `DirPathHash.Model` with these two sections as steps of their own, for
any number of sessions, and with the one release that is not part of a transaction's end (the path
parser gives back the shared lock of a name that turns out to be no directory).  Every step of it
is a step of the server, or leaves the server alone (`evicting_server`), so that the invariant of
`DirPathHash.Locks` holds in all its runs; and an entry that a session may still touch is counted
by its lock.  `DirPathHash.Partition` follows every step on the keys of one partition
(`partition_follows`).

The reference count has 25 bits, `held_rwlocks` has 8196 places and a server at most 2 ^ 23
sessions; the model counts without bound.  `ClearDirPathHash` is not part of it.
-/
import FalconFS.DirPathHash.Locks
import FalconFS.DirPathHash.Partition

namespace FalconFS.DirPathHash

open Machine Function List

/-! ## 1. The machine -/

/-- A server, and for each session the `target` of the elimination it is in. -/
structure Evicting where
  server : Server
  target : Sid → Option Key

def Evicting.init (table : Key → Option InodeId) : Evicting := ⟨.init table, fun _ => none⟩

inductive Move
  /-- A step of the server other than an eviction. -/
  | other (e : Event)
  /-- The shared section of `EliminateDirPathHashByLRU`: some destroyable entry is the target. -/
  | choose (b : Sid) (k : Key)
  /-- The exclusive section. -/
  | remove (b : Sid)
  /-- `RWLockRelease(DirectoryHashTableLastAcquiredLock)` after a search in shared mode. -/
  | releaseLast (t : Sid)

/-- The lock a session has acquired last, if it holds that in shared mode and no call is running. -/
def Session.lastShared (x : Session) : Bool :=
  x.phase = .active && x.call.isNone && (x.held.head?.any fun h => h.2 = .shared)

def Evicting.step (s : Evicting) : Move → Option Evicting
  | .other (.evict _) => none
  | .other e => (DirPathHash.step s.server e).map fun s' => { s with server := s' }
  | .choose b k =>
    if (s.server.hash k).any (·.lock.checkDestroyable) then
      some { s with target := update s.target b (some k) }
    else none
  | .remove b =>
    (s.target b).map fun k =>
      -- an entry that is gone or pinned by now stays as it is, and the search begins anew
      { server := (DirPathHash.step s.server (.evict k)).getD s.server
        target := update s.target b none }
  | .releaseLast t =>
    if (s.server.session t).lastShared then some { s with server := s.server.release t } else none

/-! ## 2. What a step does to the server -/

variable {s s' : Server} {t : Sid} {k : Key}

/-- A step changes at most one item, and takes one away only if its lock has no handle. -/
inductive HashStep (h : Key → Option Item) : (Key → Option Item) → Prop
  | same : HashStep h h
  | put (k : Key) (it : Item) : HashStep h (update h k (some it))
  | evict (k : Key) (it : Item) (hk : h k = some it) (hd : it.lock.checkDestroyable = true) :
    HashStep h (update h k none)

theorem pin_hash (c : Call) (it : Item) : HashStep s.hash (s.pin t c it).hash := by
  simp only [Server.pin]
  split <;> exact .put c.key _

theorem release_hash : HashStep s.hash (s.release t).hash := by
  simp only [Server.release]
  split
  · exact .same
  · split
    · exact .put _ _
    · exact .same

theorem hash_step {e : Event} (hs : step s e = some s') : HashStep s.hash s'.hash := by
  cases e with
  | evict k' =>
    simp only [step] at hs
    split at hs
    · rename_i it hit
      split_ifs at hs with hd
      cases hs
      exact .evict k' it hit hd
    · cases hs
  | advance t x =>
    obtain ⟨-, c, -, ha⟩ := advance_cases hs
    cases ha with
    | pinFound it | pinFilled it => exact pin_hash c _
    | pinNew v => exact pin_hash (s := s.setSession t _) c _
    | acquired it m | refused it m => exact .put c.key _
    | _ => exact .same
  | applyToCommit t space =>
    simp only [step, Server.applyToCommit] at hs
    (repeat' split at hs) <;> cases hs
    · exact .same
    · exact .put _ _
    · exact .put _ _
    · exact .same
  | release t =>
    obtain ⟨_, rfl⟩ := guard_eq_some hs
    exact release_hash
  | finishPrepared t gid commit =>
    simp only [step] at hs
    split_ifs at hs
    obtain ⟨p, -, rfl⟩ := Option.map_eq_some_iff.mp hs
    exact .same
  | begin t | call t | ret t | commit t | abort t | prepare t | exit t =>
    obtain ⟨_, rfl⟩ := guard_eq_some hs
    exact .same

/-- **Only an eviction takes an entry away**, and only one that no lock handle counts on. -/
theorem evict_of_removed {h h' : Key → Option Item} (hs : HashStep h h') (hk : h k ≠ none)
    (hgone : h' k = none) : ∃ it, h k = some it ∧ it.lock.checkDestroyable = true := by
  cases hs with
  | same => exact absurd hgone hk
  | put k' it => grind
  | evict k' it hit hd => grind

/-- Giving back a shared lock takes nothing from a session that it relies on. -/
theorem lockInv_releaseLast (h : LockInv s) (hl : (s.session t).lastShared = true) :
    LockInv (s.release t) := by
  refine ⟨heldInv_release h.held t, ?_⟩
  simp only [Session.lastShared, Bool.and_eq_true, decide_eq_true_eq, Option.isNone_iff_eq_none]
    at hl
  obtain ⟨⟨hp, hc⟩, hshared⟩ := hl
  simp only [Server.release]
  split
  · rename_i hheld
    simp [hheld] at hshared
  · rename_i k m rest hheld
    obtain rfl : m = .shared := by simpa [hheld] using hshared
    -- the handles that table writes rely on are exclusive ones
    have hrest : ∀ k', (k', .exclusive) ∈ (s.session t).held → (k', .exclusive) ∈ rest := by
      simp [hheld]
    have h' : ∀ u, SessionOk ((s.setSession t { s.session t with held := rest }).session u) := by
      refine sessionOk_setSession h.ok ⟨fun w hw => hrest _ ((h.ok t).writes w hw),
        fun k v hu => hrest _ ((h.ok t).updates k v hu), fun _ => hc, (h.ok t).done, ?_⟩
      simp [hc]
    split <;> exact h'

/-! ## 3. Every run -/

/-- **Every step is a step of the server**, a release of a shared handle, or none at all. -/
theorem evicting_server {s s' : Evicting} {m : Move} (hs : s.step m = some s') :
    s'.server = s.server ∨ (∃ e, step s.server e = some s'.server) ∨
      ∃ t, (s.server.session t).lastShared = true ∧ s'.server = s.server.release t := by
  simp only [Evicting.step] at hs
  split at hs
  · cases hs
  · rename_i e _
    obtain ⟨s₁, hs₁, rfl⟩ := Option.map_eq_some_iff.mp hs
    exact .inr (.inl ⟨e, hs₁⟩)
  · split_ifs at hs
    cases hs
    exact .inl rfl
  · obtain ⟨k, -, rfl⟩ := Option.map_eq_some_iff.mp hs
    cases hev : step s.server (.evict k) with
    | none => exact .inl rfl
    | some s₁ => exact .inr (.inl ⟨_, hev⟩)
  · rename_i t
    split_ifs at hs with hl
    cases hs
    exact .inr (.inr ⟨t, hl, rfl⟩)

theorem evicting_hash {s s' : Evicting} {m : Move} (hs : s.step m = some s') :
    HashStep s.server.hash s'.server.hash := by
  obtain hsame | ⟨e, he⟩ | ⟨u, -, hrel⟩ := evicting_server hs
  · rw [hsame]
    exact .same
  · exact hash_step he
  · rw [hrel]
    exact release_hash

theorem lockInv_evicting {table : Key → Option InodeId} {s : Evicting}
    (h : Reach Evicting.step (.init table) s) : LockInv s.server := by
  refine Run.invariant (I := fun s => LockInv s.server) h (lockInv_init table) ?_
  intro s s' m hinv _ hs
  obtain hsame | ⟨e, he⟩ | ⟨t, hl, hrel⟩ := evicting_server hs
  · rwa [hsame]
  · exact lockInv_step hinv he
  · rw [hrel]
    exact lockInv_releaseLast hinv hl

/-- **No lock of a removed entry is touched.**  In every reachable state: a step removes an entry
only if no session has a handle on its lock, as a declaration or as a holder, and no call is at its
acquisition; and whoever has a handle, or is at an acquisition, finds its entry in the hash, with a
lock that counts it. -/
theorem removed_unpinned {table : Key → Option InodeId} {s s' : Evicting} {m : Move}
    (h : Reach Evicting.step (.init table) s) (hs : s.step m = some s') :
    (∀ k, s.server.hash k ≠ none → s'.server.hash k = none → ∀ t,
      (∀ mode, (k, mode) ∉ (s.server.session t).held) ∧
        ∀ c, (s.server.session t).call = some c → c.stage = .acquire → c.key ≠ k) ∧
    (∀ t k mode, (k, mode) ∈ (s.server.session t).held →
      ∃ it, s.server.hash k = some it ∧ 0 < it.lock.count t mode) ∧
    ∀ t c, (s.server.session t).call = some c → c.stage = .acquire →
      ∃ it, s.server.hash c.key = some it ∧ 0 < it.lock.count t .declare := by
  have hinv := lockInv_evicting h
  have hacquire : ∀ t c, (s.server.session t).call = some c → c.stage = .acquire →
      (c.key, .declare) ∈ (s.server.session t).held :=
    fun t c hc hst => ((hinv.ok t).call c hc).acquire hst
  refine ⟨?_, fun t k mode hm => hinv.held.item hm,
    fun t c hc hst => hinv.held.item (hacquire t c hc hst)⟩
  intro k hk hgone t
  obtain ⟨it, hit, hd⟩ := evict_of_removed (evicting_hash hs) hk hgone
  have hfree : ∀ mode, (k, mode) ∉ (s.server.session t).held := by
    intro mode hm
    obtain ⟨it', hit', hpos⟩ := hinv.held.item hm
    obtain rfl : it = it' := Option.some.inj (hit.symm.trans hit')
    rw [RWLock.count_of_checkDestroyable hd] at hpos
    exact absurd hpos (Nat.lt_irrefl 0)
  refine ⟨hfree, ?_⟩
  rintro c hc hst rfl
  exact hfree .declare (hacquire t c hc hst)

/-- In a partition with twelve entries session 1 looks up a name that is no directory, which enters
`k`, and gives the lock back; then session 2 chooses the entry. -/
def chosenSteps (k : Key) : List Move :=
  (lookUpOthers ++ Event.begin 1 :: lookUp 1 k).map .other ++ [.releaseLast 1, .choose 2 k]

theorem removed_unpinned_chosen : ∃ s s',
    exec Evicting.step (.init fun _ => none) (chosenSteps ⟨1, [120]⟩) = some s ∧
      crowded (⟨1, [120]⟩ :: others) s.server (.evict ⟨1, [120]⟩) = true ∧
      s.step (.remove 2) = some s' ∧ s'.server.hash ⟨1, [120]⟩ = none ∧
      ∀ mode, (⟨1, [120]⟩, mode) ∉ (s.server.session 1).held := by
  obtain ⟨s, s', hexec, hcrowd, hs, hk, hgone⟩ : ∃ s s',
      exec Evicting.step (.init fun _ => none) (chosenSteps ⟨1, [120]⟩) = some s ∧
        crowded (⟨1, [120]⟩ :: others) s.server (.evict ⟨1, [120]⟩) = true ∧
        s.step (.remove 2) = some s' ∧ s.server.hash ⟨1, [120]⟩ ≠ none ∧
        s'.server.hash ⟨1, [120]⟩ = none :=
    ⟨_, _, rfl, rfl, rfl, Option.some_ne_none _, rfl⟩
  have hfree := ((removed_unpinned (Run.of_exec _ hexec) hs).1 _ hk hgone 1).1
  exact ⟨s, s', hexec, hcrowd, hs, hgone, hfree⟩

/-! ## 4. One partition -/

/-- The entries of a partition are the items of its keys, with their locks. -/
structure Partition.Reflects (mine : Key → Bool) (p : Partition) (h : Key → Option Item) :
    Prop where
  nodup : (p.entries.map Entry.key).Nodup
  locks : ∀ k l, (∃ x ∈ p.entries, x.key = k ∧ x.lock = l) ↔
    mine k = true ∧ (h k).map Item.lock = some l

section

variable {mine : Key → Bool} {p q : Partition} {h h' : Key → Option Item}

namespace Partition

/-- The entry of one key changes. -/
theorem Reflects.update (hp : p.Reflects mine h) (hk : mine k = true) (v : Option Item)
    (hnodup : (q.entries.map Entry.key).Nodup)
    (hother : ∀ x : Entry, x.key ≠ k → (x ∈ q.entries ↔ x ∈ p.entries))
    (hthis : ∀ l, (∃ x ∈ q.entries, x.key = k ∧ x.lock = l) ↔ v.map Item.lock = some l) :
    q.Reflects mine (update h k v) := by
  refine ⟨hnodup, fun k' l => ?_⟩
  by_cases hkk : k' = k
  · subst hkk
    simp [hthis, hk]
  · rw [update_of_ne hkk, ← hp.locks]
    grind

theorem Reflects.put (hp : p.Reflects mine h) (hroom : 0 < p.free) (hk : mine k = true)
    (it : Item) : ∃ e q, p.step e = some q ∧ q.Reflects mine (Function.update h k (some it)) := by
  by_cases hnew : ∃ x ∈ p.entries, x.key = k
  · refine ⟨.touch k 0 it.lock, _, rfl, hp.update hk _ ?_ ?_ ?_⟩
    · have hkeys : Entry.key ∘ (fun e =>
          if e.key = k then { e with usageCount := 0, lock := it.lock } else e) = Entry.key := by
        funext e
        grind
      rw [map_map, hkeys]
      exact hp.nodup
    · grind
    · intro l
      obtain ⟨x, hx, hkey⟩ := hnew
      constructor
      · grind
      · intro hl
        exact ⟨_, mem_map_of_mem hx, by simp [hkey], by simpa [hkey] using hl⟩
  · have hentries : ((p.enterNull ⟨k, 0, it.lock⟩).getD p).entries =
        p.entries ++ [⟨k, 0, it.lock⟩] := by
      grind [enterNull]
    refine ⟨.enter ⟨k, 0, it.lock⟩, _, rfl, hp.update hk _ ?_ ?_ ?_⟩ <;> rw [hentries]
    · have := hp.nodup
      grind
    · grind
    · intro l
      simp
      grind

theorem Reflects.evict (hp : p.Reflects mine h) (hk : mine k = true) {it : Item}
    (hit : h k = some it) (hd : it.lock.checkDestroyable = true) :
    ∃ q, p.step (.evict k) = some q ∧ q.Reflects mine (Function.update h k none) := by
  obtain ⟨x, hx, hkey, hlock⟩ := (hp.locks k it.lock).mpr ⟨hk, by rw [hit]; rfl⟩
  have hfree : (decide (x.key = k) && !x.pinned) = true := by
    simp [hkey, Entry.pinned, hlock, hd]
  have hany : p.entries.any (fun e => e.key = k && !e.pinned) = true :=
    any_eq_true.mpr ⟨x, hx, hfree⟩
  refine ⟨_, if_pos hany, hp.update hk _ ?_ ?_ ?_⟩
  · exact hp.nodup.sublist (eraseP_sublist.map _)
  · intro y hy
    exact mem_eraseP_of_neg (by simp [hy])
  · intro l
    obtain ⟨a, l₁, l₂, -, ha, hsplit, herase⟩ := exists_of_eraseP
      (p := fun e => e.key = k && !e.pinned) hx hfree
    have hnodup := hp.nodup
    rw [hsplit] at hnodup
    simp only [remove, herase]
    grind

end Partition

/-- **A partition follows the hash**: each step of the server, or of `Evicting`, is a step of the
partition, or leaves its entries alone, when there is an element for a new one. -/
theorem partition_follows (hp : p.Reflects mine h) (hs : HashStep h h') (hroom : 0 < p.free) :
    ∃ q, (q = p ∨ ∃ e, p.step e = some q) ∧ q.Reflects mine h' := by
  have hrest (k : Key) (v : Option Item) (hk : mine k ≠ true) : p.Reflects mine (update h k v) :=
    ⟨hp.nodup, by grind [hp.locks]⟩
  cases hs with
  | same => exact ⟨p, .inl rfl, hp⟩
  | put k it =>
    by_cases hk : mine k = true
    · obtain ⟨e, q, hq, hr⟩ := hp.put hroom hk it
      exact ⟨q, .inr ⟨e, hq⟩, hr⟩
    · exact ⟨p, .inl rfl, hrest k _ hk⟩
  | evict k it hit hd =>
    by_cases hk : mine k = true
    · obtain ⟨q, hq, hr⟩ := hp.evict hk hit hd
      exact ⟨q, .inr ⟨_, hq⟩, hr⟩
    · exact ⟨p, .inl rfl, hrest k _ hk⟩

end

end FalconFS.DirPathHash
