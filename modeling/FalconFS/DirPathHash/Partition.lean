/-
# One partition of the dir-path hash

The hash is cut into 128 partitions by the hash code of the key.  Each is a hash table with a
lightweight lock (LW), with elements for `2048 / 128` entries and more as long as the shared memory
has room, and with a counter of its entries, `PathDirHashEntryCount`.

* **The counter** (section 2).  An entry that is added is counted before LW is given back, by all
  of the four functions that add one; an evicted entry is taken off the counter after that, so that
  the counter is ahead for a moment.  `ClearDirPathHash` empties the table and does not touch the
  counter, which then stays too large (`counter_exact`, `cleared_still_counted`).
* **The retry loop** (section 3).  Who needs a lock and finds no element calls
  `EliminateDirPathHashByLRU` and tries again, whatever came of that.  When every entry is pinned
  there is nothing to evict, and nothing ends the loop (`retry_ends_iff`, `own_pins_loop_forever`).
-/
import FalconFS.Basic
import FalconFS.Lib.Machine
import FalconFS.Utils.RWLock

namespace FalconFS.DirPathHash

open Machine List

/-! ## 1. A partition -/

/-- `DirPathHashItem`, without the inode id. -/
structure Entry where
  key : Key
  usageCount : Int
  lock : RWLock Sid

def Entry.pinned (e : Entry) : Bool := !e.lock.checkDestroyable

structure Partition where
  /-- In the order of `hash_seq_search`. -/
  entries : List Entry
  /-- Elements that are on the free list. -/
  free : Nat
  /-- `PathDirHashEntryCount`, a `pg_atomic_uint32`. -/
  count : Nat
  /-- Evicted entries that are still to be taken off the counter. -/
  removed : Nat

namespace Partition

def init : Partition := ⟨[], 2048 / 128, 0, 0⟩

/-- `HASH_ENTER_NULL` with the `fetch_add` that follows it for a new entry; `none` if there is no
element for it.  An entry that the commit adds has the `usageCount` that it finds in the memory. -/
def enterNull (p : Partition) (e : Entry) : Option Partition :=
  if p.entries.any (·.key = e.key) then some p
  else if p.free = 0 then none
  else some { p with
    entries := p.entries ++ [e], free := p.free - 1, count := (p.count + 1) % 2 ^ 32 }

/-- `HASH_REMOVE` of an entry that nobody has pinned. -/
def remove (p : Partition) (k : Key) : Partition :=
  { p with
    entries := p.entries.eraseP fun e => e.key = k && !e.pinned
    free := p.free + 1 }

/-! ## 2. The counter -/

inductive Event
  /-- An insert, a search or a delete that did not find its key, or a commit.  What may go wrong
  afterwards (too many actions, too many locks, "target exists.") changes nothing here. -/
  | enter (e : Entry)
  /-- A use of an entry, or of its lock. -/
  | touch (k : Key) (usageCount : Int) (lock : RWLock Sid)
  /-- The exclusive section of `EliminateDirPathHashByLRU`, and its `fetch_sub`. -/
  | evict (k : Key)
  | uncount
  /-- `ClearDirPathHash`. -/
  | clear
  /-- New elements; there is no memory for `2 ^ 32` of them. -/
  | grow (n : Nat)

def step (p : Partition) : Event → Option Partition
  | .enter e => some ((p.enterNull e).getD p)
  | .touch k usageCount lock =>
    some { p with
      entries := p.entries.map fun e =>
        if e.key = k then { e with usageCount := usageCount, lock := lock } else e }
  | .evict k =>
    if p.entries.any fun e => e.key = k && !e.pinned then
      some { p.remove k with removed := p.removed + 1 }
    else none
  | .uncount =>
    if 0 < p.removed then
      some { p with removed := p.removed - 1, count := (p.count + (2 ^ 32 - 1)) % 2 ^ 32 }
    else none
  | .clear => some { p with entries := [], free := p.free + p.entries.length }
  | .grow n =>
    if p.entries.length + p.free + n < 2 ^ 32 then some { p with free := p.free + n } else none

/-- **The condition**: the table is cleared only when it is empty. -/
def ClearsEmpty (p : Partition) : Event → Prop
  | .clear => p.entries = []
  | _ => True

instance (p : Partition) (e : Event) : Decidable (ClearsEmpty p e) := by
  cases e <;> unfold ClearsEmpty <;> infer_instance

/-- The counter is ahead of the table by what is removed and not taken off. -/
structure Counted (p : Partition) : Prop where
  count : p.count = (p.entries.length + p.removed) % 2 ^ 32
  few : p.entries.length + p.free < 2 ^ 32

variable {p p' : Partition} {e : Event}

theorem counted_enter (h : Counted p) (x : Entry) : Counted ((p.enterNull x).getD p) := by
  obtain ⟨hcount, hfew⟩ := h
  unfold enterNull
  split
  · exact ⟨hcount, hfew⟩
  · split
    · exact ⟨hcount, hfew⟩
    · constructor <;> simp only [Option.getD_some, length_append, length_singleton] <;>
        omega

theorem counted_step (h : Counted p) (hc : ClearsEmpty p e) (hs : p.step e = some p') :
    Counted p' := by
  obtain ⟨hcount, hfew⟩ := h
  cases e with
  | enter x =>
    cases hs
    exact counted_enter ⟨hcount, hfew⟩ x
  | touch k usageCount lock =>
    cases hs
    exact ⟨by rw [length_map]; exact hcount, by rw [length_map]; exact hfew⟩
  | evict k =>
    simp only [step] at hs
    split at hs
    · rename_i hany
      cases hs
      obtain ⟨x, hx, hk⟩ := any_eq_true.mp hany
      have hlen := length_eraseP_of_mem (p := fun e => e.key = k && !e.pinned) hx hk
      have hpos := length_pos_of_mem hx
      constructor <;> simp only [remove, hlen] <;> omega
    · cases hs
  | uncount =>
    simp only [step] at hs
    split at hs
    · cases hs
      constructor <;> dsimp only <;> omega
    · cases hs
  | clear =>
    cases hs
    have hnil : p.entries = [] := hc
    rw [hnil] at hcount hfew
    exact ⟨hcount, by simpa [hnil] using hfew⟩
  | grow n =>
    simp only [step] at hs
    split at hs
    · rename_i hn
      cases hs
      exact ⟨hcount, by dsimp only; omega⟩
    · cases hs

/-- **The counter is the number of entries** in every quiescent state of every run that clears the
table only when it is empty. -/
theorem counter_exact (h : Run step ClearsEmpty init p) (hquiet : p.removed = 0) :
    p.count = p.entries.length := by
  obtain ⟨hcount, hfew⟩ := h.invariant (I := Counted) ⟨rfl, by decide⟩ fun _ _ _ hp hc hs =>
    counted_step hp hc hs
  rw [hcount, hquiet]
  exact Nat.mod_eq_of_lt (by omega)

/-- Two entries are added and evicted, the table is cleared, and an entry comes back. -/
def evictAndClear : List Event :=
  [.enter ⟨⟨1, [120]⟩, 0, .init⟩, .enter ⟨⟨1, [121]⟩, 0, .init⟩, .grow 4, .evict ⟨1, [120]⟩,
    .evict ⟨1, [121]⟩, .uncount, .clear, .uncount, .enter ⟨⟨1, [121]⟩, 0, .init⟩]

theorem counter_exact_evictAndClear : ∃ p, exec step init evictAndClear = some p ∧
    p.entries.length = 1 ∧ p.count = p.entries.length :=
  ⟨_, rfl, rfl, counter_exact (Run.of_exec_meet evictAndClear rfl (by decide)) rfl⟩

/-- One entry is added, and the table is cleared. -/
theorem cleared_still_counted : ∃ p,
    exec step init [.enter ⟨⟨1, [120]⟩, 0, .init⟩, .clear] = some p ∧
      p.removed = 0 ∧ p.entries.length = 0 ∧ p.count = 1 :=
  ⟨_, rfl, rfl, rfl, rfl⟩

end Partition

/-! ## 3. The retry loop

The other sessions rest meanwhile: an entry that was chosen is found again, and not pinned. -/

/-- `FindNextItem` over some of the entries: each that is not pinned loses one use, up to the first
that has none left.  Also the number of those that are not pinned. -/
def findNextItem : List Entry → List Entry × Option Key × Nat
  | [] => ([], none, 0)
  | e :: rest =>
    if e.pinned then
      let r := findNextItem rest
      (e :: r.1, r.2.1, r.2.2)
    else
      let used : Entry := { e with usageCount := e.usageCount - 1 }
      if used.usageCount ≤ 0 then (used :: rest, some e.key, 1)
      else
        let r := findNextItem rest
        (used :: r.1, r.2.1, r.2.2 + 1)

/-- The scans of the whole table; `none` when the fuel is used up. -/
def scans : Nat → List Entry → Option (List Entry × Option Key)
  | 0, _ => none
  | fuel + 1, entries =>
    let r := findNextItem entries
    if r.2.1 = none ∧ r.2.2 ≠ 0 then scans fuel r.1 else some (r.1, r.2.1)

namespace Partition

/-- `EliminateDirPathHashByLRU`; the first scan leaves out `start` entries.  Nobody looks at its
result. -/
def eliminate (p : Partition) (fuel start : Nat) : Option Partition :=
  if p.count ≤ 2048 / 4 * 3 / 128 then some p
  else
    let first := findNextItem (p.entries.drop start)
    let entries := p.entries.take start ++ first.1
    let found := if first.2.1 = none then scans fuel entries else some (entries, first.2.1)
    found.map fun r =>
      match r.2 with
      | none => { p with entries := r.1 }
      | some k =>
        { { p with entries := r.1 }.remove k with count := (p.count + (2 ^ 32 - 1)) % 2 ^ 32 }

/-- The loop of an insert, a search or a delete that needs a lock, for at most so many rounds. -/
def retry (e : Entry) (fuel : Nat) (start : Nat → Nat) : Nat → Partition → Option Partition
  | 0, _ => none
  | rounds + 1, p =>
    match p.enterNull e with
    | some p' => some p'
    | none => (p.eliminate fuel (start rounds)).bind (retry e fuel start rounds)

end Partition

variable {entries : List Entry} {x : Entry}

/-- Pinned entries are passed over. -/
theorem findNextItem_of_pinned (h : ∀ x ∈ entries, x.pinned = true) :
    findNextItem entries = (entries, none, 0) := by
  induction entries with
  | nil => rfl
  | cons e rest ih =>
    obtain ⟨he, hrest⟩ := forall_mem_cons.mp h
    rw [findNextItem, if_pos he, ih hrest]

/-- When a scan finds nothing, every entry that is not pinned has lost a use and has one left. -/
theorem findNextItem_none (h : (findNextItem entries).2.1 = none) (hx : x ∈ entries)
    (hfree : x.pinned = false) : 1 < x.usageCount ∧ (findNextItem entries).2.2 ≠ 0 ∧
      { x with usageCount := x.usageCount - 1 } ∈ (findNextItem entries).1 := by
  induction entries with
  | nil => cases hx
  | cons e rest ih =>
    rw [findNextItem] at h ⊢
    by_cases he : e.pinned = true
    · rw [if_pos he] at h ⊢
      have hmem : x ∈ rest := by
        rcases mem_cons.mp hx with rfl | hmem
        · exact absurd (he.symm.trans hfree) (by decide)
        · exact hmem
      obtain ⟨huse, hcount, hin⟩ := ih h hmem
      exact ⟨huse, hcount, mem_cons_of_mem _ hin⟩
    · rw [if_neg he] at h ⊢
      dsimp only at h ⊢
      split at h
      · cases h
      · rename_i huse
        rw [if_neg huse]
        refine ⟨?_, Nat.succ_ne_zero _, ?_⟩
        · rcases mem_cons.mp hx with rfl | hmem
          · omega
          · exact (ih h hmem).1
        · rcases mem_cons.mp hx with rfl | hmem
          · exact mem_cons_self
          · exact mem_cons_of_mem _ (ih h hmem).2.2

/-- **The scans come to an end** with an entry, if one is not pinned: its uses are used up. -/
theorem scans_finds (fuel : Nat) : ∀ {entries : List Entry} {x : Entry}, x ∈ entries →
    x.pinned = false → x.usageCount ≤ fuel →
      ∃ rest k, scans (fuel + 1) entries = some (rest, some k) := by
  induction fuel with
  | zero =>
    intro entries x hx hfree huse
    cases hfound : (findNextItem entries).2.1 with
    | none =>
      have := (findNextItem_none hfound hx hfree).1
      omega
    | some k => exact ⟨_, k, by rw [scans, hfound]; rfl⟩
  | succ fuel ih =>
    intro entries x hx hfree huse
    cases hfound : (findNextItem entries).2.1 with
    | none =>
      obtain ⟨-, hcount, hin⟩ := findNextItem_none hfound hx hfree
      obtain ⟨rest, k, hscan⟩ := ih hin hfree (by dsimp only; omega)
      refine ⟨rest, k, ?_⟩
      rw [scans, if_pos ⟨hfound, hcount⟩, hscan]
    | some k => exact ⟨_, k, by rw [scans, hfound]; rfl⟩

namespace Partition

variable {p : Partition} {e : Entry} {fuel : Nat} {start : Nat → Nat}

/-- **The condition**: there is an element, or the entry; or the counter is above the threshold and
some entry is not pinned. -/
def MakesRoom (p : Partition) (e : Entry) : Prop :=
  (p.enterNull e).isSome ∨ 2048 / 4 * 3 / 128 < p.count ∧ ∃ x ∈ p.entries, x.pinned = false

/-- With nothing to evict a round changes nothing. -/
theorem eliminate_stuck (h : ¬ p.MakesRoom e) (first : Nat) (p' : Partition)
    (hp : p.eliminate fuel first = some p') : p' = p := by
  obtain ⟨-, hnone⟩ := not_or.mp h
  rw [eliminate] at hp
  split at hp
  · cases hp
    rfl
  · rename_i hcount
    have hpinned : ∀ x ∈ p.entries, x.pinned = true := by
      intro x hx
      by_contra hfree
      exact hnone ⟨by omega, x, hx, Bool.eq_false_iff.mpr hfree⟩
    have hdrop : findNextItem (p.entries.drop first) = (p.entries.drop first, none, 0) :=
      findNextItem_of_pinned fun x hx => hpinned x (mem_of_mem_drop hx)
    rw [hdrop] at hp
    dsimp only at hp
    rw [if_pos rfl, take_append_drop] at hp
    cases fuel with
    | zero => cases hp
    | succ fuel =>
      rw [scans, findNextItem_of_pinned hpinned] at hp
      cases hp
      rfl

theorem retry_stuck (h : ¬ p.MakesRoom e) (rounds : Nat) : retry e fuel start rounds p = none := by
  induction rounds with
  | zero => rfl
  | succ rounds ih =>
    have hfull : p.enterNull e = none := by
      simpa using (not_or.mp h).1
    rw [retry, hfull]
    cases hp : p.eliminate fuel (start rounds) with
    | none => rfl
    | some p' => rw [Option.bind_some, eliminate_stuck h _ _ hp, ih]

/-- Something is evicted. -/
theorem eliminate_frees (hcount : 2048 / 4 * 3 / 128 < p.count) {x : Entry} (hx : x ∈ p.entries)
    (hfree : x.pinned = false) (first : Nat) :
    ∃ p', p.eliminate (x.usageCount.toNat + 1) first = some p' ∧ 0 < p'.free := by
  rw [eliminate, if_neg (by omega)]
  dsimp only
  cases hfound : (findNextItem (p.entries.drop first)).2.1 with
  | some k => exact ⟨_, rfl, Nat.succ_pos _⟩
  | none =>
    -- the entry is still there, with its uses or one less
    obtain ⟨y, hy, hyfree, hle⟩ : ∃ y ∈ p.entries.take first ++ (findNextItem
        (p.entries.drop first)).1, y.pinned = false ∧ y.usageCount ≤ x.usageCount.toNat := by
      rw [← take_append_drop first p.entries] at hx
      rcases mem_append.mp hx with htake | hdrop
      · exact ⟨x, mem_append_left _ htake, hfree, Int.self_le_toNat _⟩
      · obtain ⟨-, -, hin⟩ := findNextItem_none hfound hdrop hfree
        exact ⟨_, mem_append_right _ hin, hfree, by dsimp only; omega⟩
    obtain ⟨rest, k, hscan⟩ := scans_finds _ hy hyfree hle
    rw [if_pos rfl, hscan]
    exact ⟨_, rfl, Nat.succ_pos _⟩

/-- **When the retry loop ends.**  After finitely many rounds there is an entry, if and only if
there was an element for it, or something to evict. -/
theorem retry_ends_iff (p : Partition) (e : Entry) (start : Nat → Nat) :
    (∃ fuel rounds p', retry e fuel start rounds p = some p') ↔ p.MakesRoom e := by
  constructor
  · rintro ⟨fuel, rounds, p', hretry⟩
    by_contra hstuck
    rw [retry_stuck hstuck] at hretry
    cases hretry
  · intro h
    cases hp : p.enterNull e with
    | some p' => exact ⟨0, 1, p', by rw [retry, hp]⟩
    | none =>
      rcases h with hroom | ⟨hcount, x, hx, hfree⟩
      · rw [hp] at hroom
        cases hroom
      · obtain ⟨p', helim, hpos⟩ := eliminate_frees hcount hx hfree (start 1)
        have hroom : ∃ p'', p'.enterNull e = some p'' := by
          unfold enterNull
          split
          · exact ⟨_, rfl⟩
          · rw [if_neg (Nat.ne_of_gt hpos)]
            exact ⟨_, rfl⟩
        obtain ⟨p'', hp''⟩ := hroom
        refine ⟨x.usageCount.toNat + 1, 2, p'', ?_⟩
        rw [retry, hp]
        dsimp only
        rw [helim, Option.bind_some, retry, hp'']

/-- A transaction of session 1 adds an entry and locks it. -/
def lockNew (k : Key) : List Event :=
  [.enter ⟨k, 0, .init⟩, .touch k 1 (((RWLock.init.declare 1).attemptLock 1 .shared).1.undeclare 1)]

/-- **A transaction that locks seventeen keys of one partition**, which has elements for sixteen
entries, waits for itself. -/
theorem own_pins_loop_forever : ∃ p, exec step init
      ((List.range 16).flatMap fun n => lockNew ⟨n, [120]⟩) = some p ∧ p.removed = 0 ∧
    ∀ fuel start rounds, retry ⟨⟨16, [120]⟩, 0, .init⟩ fuel start rounds p = none := by
  refine ⟨_, rfl, rfl, fun fuel start rounds => retry_stuck ?_ rounds⟩
  rintro (hroom | ⟨-, x, hx, hfree⟩)
  · cases hroom
  · revert x
    decide

end Partition

end FalconFS.DirPathHash
