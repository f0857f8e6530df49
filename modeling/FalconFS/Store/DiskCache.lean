/-
# The disk cache of a store node

`disk_cache.cpp` knows the cache files of a node.  It keeps a list of items, one for each file,
and a map from inode ids to iterators into that list; it counts the bytes of all items in
`usedCap`, and evicts items that nobody has pinned when the disk gets full.

Sizes are 64-bit and reference counts 32-bit words, and all arithmetic on them wraps.  A node of
the list has an ADDRESS, which is what an iterator points to; an iterator that was never set
points nowhere (`none`).  The difference shows in `Pin`, the one operation that reaches for the
iterator of an inode without looking first whether there is one: `operator[]` then leaves such an
iterator in the map.

What comes from outside is an argument: whether `remove` succeeds, whether a file is on the disk,
and how much the evictors are to free.  The source computes the last from the ratios that `statfs`
reports, in floating point.
-/
import FalconFS.Basic
import FalconFS.Lib.Machine
import Mathlib.Data.BitVec
import Mathlib.Data.List.AList
import Mathlib.Algebra.BigOperators.Group.List.Basic
import Mathlib.Tactic.Ring

namespace FalconFS.Store

open Machine

/-! ## 1. The cache -/

structure CacheItem where
  inode : InodeId
  size : BitVec 64
  refs : BitVec 32
  deriving DecidableEq

/-- A node of `cacheItems`. -/
structure CacheNode where
  address : Nat
  item : CacheItem
  deriving DecidableEq

structure DiskCache where
  stop : Bool
  usedCap : BitVec 64
  freeCap : BitVec 64
  cacheItems : List CacheNode
  inodeToCacheIter : AList (fun _ : InodeId => Option Nat)
  /-- Addresses from here on are new. -/
  next : Nat

namespace DiskCache

/-- The cache before `ScanCache`. -/
def start (stop : Bool) (freeCap : BitVec 64) : DiskCache := ⟨stop, 0, freeCap, [], ∅, 0⟩

section

variable (c : DiskCache)

/-- `inodeToCacheIter.find(key)` -/
def iter (key : InodeId) : Option (Option Nat) :=
  AList.lookup key c.inodeToCacheIter

/-- The node that an iterator points to. -/
def node (it : Option Nat) : Option CacheNode :=
  c.cacheItems.find? fun n => some n.address = it

/-- `it->size` -/
def sizeAt (it : Option Nat) : BitVec 64 :=
  ((c.node it).map fun n => n.item.size).getD 0

/-- `it->refs` -/
def refsAt (it : Option Nat) : BitVec 32 :=
  ((c.node it).map fun n => n.item.refs).getD 0

/-- Writing through an iterator. -/
def modify (it : Option Nat) (f : CacheItem → CacheItem) : DiskCache :=
  { c with cacheItems := c.cacheItems.map fun n =>
      if some n.address = it then { n with item := f n.item } else n }

/-- `cacheItems.erase(it)`, `inodeToCacheIter.erase(key)`, and the two counters. -/
def erase (key : InodeId) (it : Option Nat) (size : BitVec 64) : DiskCache :=
  { c with
    cacheItems := c.cacheItems.eraseP fun n => some n.address = it
    inodeToCacheIter := AList.erase key c.inodeToCacheIter
    usedCap := c.usedCap - size
    freeCap := c.freeCap + size }

/-- `Pin` -/
def pin (key : InodeId) : DiskCache :=
  if c.stop then c
  else
    match c.iter key with
    | some it => c.modify it fun item => { item with refs := item.refs + 1 }
    | none => { c with inodeToCacheIter := AList.insert key none c.inodeToCacheIter }

/-- `Unpin` -/
def unpin (key : InodeId) : DiskCache :=
  if c.stop then c
  else
    match c.iter key with
    | some it =>
      if 0 < c.refsAt it then c.modify it fun item => { item with refs := item.refs - 1 } else c
    | none => c

/-- `Find`; `onDisk` is what `access` says. -/
def find (key : InodeId) (needPin onDisk : Bool) : DiskCache × Bool :=
  if c.stop then (c, onDisk)
  else
    match c.iter key with
    | some _ => (if needPin then c.pin key else c, true)
    | none => (c, false)

/-- `Delete`; `err` is the error of `remove`, if it fails. -/
def delete (key : InodeId) (err : Option Nat) : DiskCache × Int :=
  if c.stop then (c, if err.isNone then 0 else -1)
  else
    match c.iter key with
    | some it =>
      match err with
      | some e => (c, -e)
      | none => (c.erase key it (c.sizeAt it), 0)
    | none => (c, 0)

/-- `DeleteOldCacheWithNoPin` -/
def deleteOldCacheWithNoPin (key : InodeId) (err : Option Nat) : DiskCache :=
  match c.iter key with
  | some it =>
    if c.refsAt it = 0 ∧ err.isNone then c.erase key it (c.sizeAt it) else c
  | none => c

/-- The change of size that `InsertAndUpdate`, `Update` and `Add` make to an item. -/
def resize (it : Option Nat) (change : BitVec 64) : DiskCache :=
  { c.modify it fun item => { item with size := item.size + change } with
    usedCap := c.usedCap + change
    freeCap := c.freeCap - change }

/-- A new item at the end of the list. -/
def insert (key : InodeId) (size : BitVec 64) : DiskCache :=
  { c with
    cacheItems := c.cacheItems ++ [⟨c.next, ⟨key, size, 0⟩⟩]
    inodeToCacheIter := AList.insert key (some c.next) c.inodeToCacheIter
    usedCap := c.usedCap + size
    freeCap := c.freeCap - size
    next := c.next + 1 }

/-- `InsertAndUpdate`.  An item that is there already is not pinned. -/
def insertAndUpdate (key : InodeId) (size : BitVec 64) (needPin : Bool) : DiskCache :=
  if c.stop then c
  else
    match c.iter key with
    | some it => c.resize it (size - c.sizeAt it)
    | none => if needPin then (c.insert key size).pin key else c.insert key size

/-- `Update`: an item does not shrink. -/
def update (key : InodeId) (size : BitVec 64) : DiskCache × Bool :=
  if c.stop then (c, true)
  else
    match c.iter key with
    | some it =>
      if size ≤ c.sizeAt it then (c, true) else (c.resize it (size - c.sizeAt it), true)
    | none => (c, false)

/-- `Add` -/
def add (key : InodeId) (size : BitVec 64) : DiskCache × Bool :=
  if c.stop then (c, true)
  else
    match c.iter key with
    | some it => (c.resize it size, true)
    | none => (c, false)

end

/-- The loop of the two evictors, from one place of the list on.  `ok` says which files `remove`
removes. -/
def evictFrom (ok : InodeId → Bool) (toFreeCap : BitVec 64) (toFreeInode : Nat) :
    List CacheNode → BitVec 64 → Nat → DiskCache → DiskCache
  | [], _, _, c => c
  | n :: rest, freedCap, freedInode, c =>
    if 0 < n.item.refs then evictFrom ok toFreeCap toFreeInode rest freedCap freedInode c
    else if ok n.item.inode then
      let c := c.erase n.item.inode (some n.address) n.item.size
      if toFreeCap ≤ freedCap + n.item.size ∧ toFreeInode ≤ freedInode + 1 then c
      else evictFrom ok toFreeCap toFreeInode rest (freedCap + n.item.size) (freedInode + 1) c
    else if toFreeCap ≤ freedCap ∧ toFreeInode ≤ freedInode then c
    else evictFrom ok toFreeCap toFreeInode rest freedCap freedInode c

section

variable (c : DiskCache) (wantedCap : BitVec 64) (wantedInode : Nat) (ok : InodeId → Bool)

/-- What is to be freed is at most what there is. -/
def evict : DiskCache :=
  evictFrom ok (if c.usedCap < wantedCap then c.usedCap else wantedCap)
    (min wantedInode c.inodeToCacheIter.entries.length) c.cacheItems 0 0 c

/-- `CleanupForEvict` -/
def cleanupForEvict : DiskCache := c.evict wantedCap wantedInode ok

/-- `Cleanup`: as before, only the ratio that it aims at is another. -/
def cleanup : DiskCache := c.evict wantedCap wantedInode ok

end

/-! ## 2. Lists of nodes -/

open List

section Nodes

variable {l : List CacheNode} {n : CacheNode}

variable {l₁ l₂ : List CacheNode}

theorem mem_middle {a m : CacheNode} : m ∈ l₁ ++ a :: l₂ ↔ m = a ∨ m ∈ l₁ ++ l₂ := by
  simp only [mem_append, mem_cons]
  exact or_left_comm

/-- A node and its neighbours. -/
theorem exists_split (hl : (l.map (·.address)).Nodup) (hn : n ∈ l) :
    ∃ l₁ l₂, l = l₁ ++ n :: l₂ ∧ ∀ m ∈ l₁ ++ l₂, m.address ≠ n.address := by
  obtain ⟨l₁, l₂, rfl⟩ := append_of_mem hn
  refine ⟨l₁, l₂, rfl, fun m hm heq => ?_⟩
  rw [map_append, map_cons, nodup_middle, nodup_cons, ← map_append] at hl
  exact hl.1 (heq ▸ mem_map_of_mem hm)

section

variable (h : ∀ m ∈ l₁ ++ l₂, m.address ≠ n.address)

include h

theorem modify_split (f : CacheItem → CacheItem) :
    (l₁ ++ n :: l₂).map (fun m => if some m.address = some n.address then
      { m with item := f m.item } else m) = l₁ ++ { n with item := f n.item } :: l₂ := by
  have hid : ∀ l' : List CacheNode, (∀ m ∈ l', m.address ≠ n.address) →
      l'.map (fun m => if some m.address = some n.address then
        { m with item := f m.item } else m) = l' := by
    intro l' hl'
    refine (map_congr_left fun m hm => ?_).trans (map_id l')
    rw [if_neg fun heq => hl' m hm (Option.some.inj heq)]
    rfl
  rw [map_append, map_cons, if_pos rfl,
    hid l₁ fun m hm => h m (mem_append_left _ hm),
    hid l₂ fun m hm => h m (mem_append_right _ hm)]

theorem eraseP_split :
    (l₁ ++ n :: l₂).eraseP (fun m => some m.address = some n.address) = l₁ ++ l₂ := by
  rw [eraseP_append_right, eraseP_cons_of_pos (by simp)]
  intro m hm
  simpa using h m (mem_append_left _ hm)

theorem find?_split :
    (l₁ ++ n :: l₂).find? (fun m => some m.address = some n.address) = some n := by
  rw [find?_append, find?_eq_none.mpr fun m hm => ?_]
  · simp
  · simpa using h m (mem_append_left _ hm)

end

end Nodes

/-! ## 3. The invariant -/

/-- The bytes of all items. -/
def total (l : List CacheNode) : BitVec 64 := (l.map fun n => n.item.size).sum

/-- The map and the list belong together, and the counter counts the list. -/
structure Inv (c : DiskCache) : Prop where
  addresses : (c.cacheItems.map (·.address)).Nodup
  fresh : ∀ n ∈ c.cacheItems, n.address < c.next
  toItem : ∀ key it, c.iter key = some it →
    ∃ n ∈ c.cacheItems, it = some n.address ∧ n.item.inode = key
  toIter : ∀ n ∈ c.cacheItems, c.iter n.item.inode = some (some n.address)
  used : c.usedCap = total c.cacheItems

/-- Items that are as they were, apart from their size. -/
def Kept (c c' : DiskCache) : Prop :=
  ∀ m ∈ c'.cacheItems, ∃ n ∈ c.cacheItems,
    m.item.inode = n.item.inode ∧ m.item.refs = n.item.refs

/-- What follows a cache by one call. -/
structure After (c c' : DiskCache) : Prop where
  inv : Inv c'
  stop : c'.stop = c.stop

/-- The same for a call that pins nothing. -/
structure Tended (c c' : DiskCache) : Prop extends After c c' where
  kept : Kept c c'

theorem Kept.of_subset {c c' : DiskCache} (h : ∀ m ∈ c'.cacheItems, m ∈ c.cacheItems) : Kept c c' :=
  fun m hm => ⟨m, h m hm, rfl, rfl⟩

theorem Tended.trans {c₁ c₂ c₃ : DiskCache} (h : Tended c₁ c₂) (h' : Tended c₂ c₃) :
    Tended c₁ c₃ := by
  refine ⟨⟨h'.inv, h'.stop.trans h.stop⟩, fun m hm => ?_⟩
  obtain ⟨n, hn, hinode, hrefs⟩ := h'.kept m hm
  obtain ⟨k, hk, hinode', hrefs'⟩ := h.kept n hn
  exact ⟨k, hk, hinode.trans hinode', hrefs.trans hrefs'⟩

theorem Inv.tended {c : DiskCache} (h : Inv c) : Tended c c :=
  ⟨⟨h, rfl⟩, .of_subset fun _ hm => hm⟩

@[simp] theorem total_cons (n : CacheNode) (l : List CacheNode) :
    total (n :: l) = n.item.size + total l := by simp [total]

@[simp] theorem total_append (l₁ l₂ : List CacheNode) :
    total (l₁ ++ l₂) = total l₁ + total l₂ := by simp [total]

theorem inv_start (stop : Bool) (freeCap : BitVec 64) : Inv (start stop freeCap) where
  addresses := nodup_nil
  fresh n hn := by cases hn
  toItem key it h := by cases h
  toIter n hn := by cases hn
  used := rfl

section Inv

variable {c : DiskCache} {n : CacheNode} {key : InodeId}

theorem iter_insert (m : AList (fun _ : InodeId => Option Nat)) (key key' : InodeId)
    (it : Option Nat) :
    AList.lookup key' (AList.insert key it m) =
      if key' = key then some it else AList.lookup key' m := by
  grind [AList.lookup_insert, AList.lookup_insert_ne]

theorem iter_erase (m : AList (fun _ : InodeId => Option Nat)) (key key' : InodeId) :
    AList.lookup key' (AList.erase key m) =
      if key' = key then none else AList.lookup key' m := by
  grind [AList.lookup_erase, AList.lookup_erase_ne]

section

variable (h : Inv c)

include h

/-- Two items of one inode are the same item. -/
theorem Inv.eq_of_inode {m : CacheNode} (hm : m ∈ c.cacheItems)
    (hn : n ∈ c.cacheItems) (heq : m.item.inode = n.item.inode) : m = n := by
  have haddr : m.address = n.address := by
    have := h.toIter m hm
    rw [heq, h.toIter n hn] at this
    exact (Option.some.inj (Option.some.inj this)).symm
  exact inj_on_of_nodup_map h.addresses hm hn haddr

theorem Inv.node_eq (hn : n ∈ c.cacheItems) : c.node (some n.address) = some n := by
  obtain ⟨l₁, l₂, hl, hne⟩ := exists_split h.addresses hn
  rw [node, hl]
  exact find?_split hne

theorem Inv.sizeAt_eq (hn : n ∈ c.cacheItems) : c.sizeAt (some n.address) = n.item.size := by
  rw [sizeAt, h.node_eq hn]
  rfl

theorem Inv.refsAt_eq (hn : n ∈ c.cacheItems) : c.refsAt (some n.address) = n.item.refs := by
  rw [refsAt, h.node_eq hn]
  rfl

/-- **An item is changed in place**, and with it the counter. -/
theorem Inv.modify (hn : n ∈ c.cacheItems) (f : CacheItem → CacheItem)
    (usedCap freeCap : BitVec 64) (hinode : (f n.item).inode = n.item.inode)
    (hused : usedCap + n.item.size = c.usedCap + (f n.item).size) :
    Inv { c.modify (some n.address) f with usedCap := usedCap, freeCap := freeCap } := by
  obtain ⟨l₁, l₂, hl, hne⟩ := exists_split h.addresses hn
  have hitems : (c.modify (some n.address) f).cacheItems =
      l₁ ++ { n with item := f n.item } :: l₂ := by
    rw [DiskCache.modify, hl]
    exact modify_split hne f
  have hmem : ∀ m, m ∈ c.cacheItems ↔ m = n ∨ m ∈ l₁ ++ l₂ := fun m => by rw [hl, mem_middle]
  have hmem' : ∀ m, m ∈ (c.modify (some n.address) f).cacheItems ↔
      m = { n with item := f n.item } ∨ m ∈ l₁ ++ l₂ := fun m => by rw [hitems, mem_middle]
  obtain ⟨haddr, hfresh, hitem, hiter, htotal⟩ := h
  refine ⟨?_, ?_, fun key' it hit => ?_, ?_, ?_⟩
  · rw [hl] at haddr
    simpa [hitems] using haddr
  · grind [DiskCache.modify]
  · obtain ⟨m, hm, hm', hkey⟩ := hitem key' it hit
    refine ⟨if m = n then { n with item := f n.item } else m, ?_, ?_, ?_⟩ <;> grind
  · grind [DiskCache.modify, iter]
  · rw [hl, total_append, total_cons] at htotal
    rw [hitems, total_append, total_cons]
    rw [htotal] at hused
    have hcancel : usedCap + n.item.size =
        total l₁ + ((f n.item).size + total l₂) + n.item.size := by
      rw [hused]
      ring
    exact add_right_cancel hcancel

theorem Inv.setRefs (hn : n ∈ c.cacheItems) (g : BitVec 32 → BitVec 32) :
    After c (c.modify (some n.address) fun item => { item with refs := g item.refs }) :=
  ⟨h.modify hn (fun item => { item with refs := g item.refs }) c.usedCap c.freeCap rfl rfl, rfl⟩

/-- **An item goes.** -/
theorem Inv.erase (hn : n ∈ c.cacheItems) :
    Tended c (c.erase n.item.inode (some n.address) n.item.size) ∧
      ∀ m ∈ c.cacheItems, m ≠ n →
        m ∈ (c.erase n.item.inode (some n.address) n.item.size).cacheItems := by
  obtain ⟨l₁, l₂, hl, hne⟩ := exists_split h.addresses hn
  have hitems : (c.erase n.item.inode (some n.address) n.item.size).cacheItems = l₁ ++ l₂ := by
    rw [DiskCache.erase, hl]
    exact eraseP_split hne
  have hmem : ∀ m, m ∈ (c.erase n.item.inode (some n.address) n.item.size).cacheItems ↔
      m ∈ c.cacheItems ∧ m ≠ n := fun m => by
    rw [hitems, hl, mem_middle]
    grind
  have hinode := fun m hm => h.eq_of_inode (m := m) hm hn
  obtain ⟨haddr, hfresh, hitem, hiter, htotal⟩ := h
  refine ⟨⟨⟨⟨?_, ?_, fun key' it hit => ?_, fun m hm => ?_, ?_⟩, rfl⟩,
    .of_subset fun _ hm => mem_of_mem_eraseP hm⟩, by grind⟩
  · rw [hl, map_append, map_cons, nodup_middle, nodup_cons] at haddr
    rw [hitems, map_append]
    exact haddr.2
  · grind [DiskCache.erase]
  · rw [iter, DiskCache.erase, iter_erase] at hit
    obtain ⟨m, hm, hm', hkey⟩ := hitem key' it (by grind [iter])
    exact ⟨m, by grind, hm', hkey⟩
  · rw [iter, DiskCache.erase, iter_erase]
    grind [iter]
  · rw [hl, total_append, total_cons] at htotal
    rw [hitems, total_append]
    simp only [DiskCache.erase, htotal]
    ring

/-- **A new item.** -/
theorem Inv.insert (hnone : c.iter key = none) (size : BitVec 64) : Inv (c.insert key size) where
  addresses := by
    simp only [DiskCache.insert, map_append, map_cons, map_nil]
    refine nodup_append.mpr ⟨h.addresses, nodup_singleton _, ?_⟩
    have := h.fresh
    grind
  fresh m hm := by
    have := h.fresh m
    grind [DiskCache.insert]
  toItem key' it hit := by
    rw [iter, DiskCache.insert, iter_insert] at hit
    split at hit
    · rename_i heq
      exact ⟨⟨c.next, ⟨key, size, 0⟩⟩, mem_append_right _ (mem_singleton.mpr rfl),
        (Option.some.inj hit).symm, heq.symm⟩
    · obtain ⟨m, hm, hm', hkey⟩ := h.toItem key' it hit
      exact ⟨m, mem_append_left _ hm, hm', hkey⟩
  toIter m hm := by
    have := h.toIter m
    rw [iter, DiskCache.insert, iter_insert]
    grind [DiskCache.insert, iter]
  used := by
    simp only [DiskCache.insert, total_append, total_cons, h.used]
    simp [total]

theorem Inv.pin (hkey : c.stop = true ∨ (c.iter key).isSome) : After c (c.pin key) := by
  unfold DiskCache.pin
  split
  · exact ⟨h, rfl⟩
  · rename_i hstop
    obtain ⟨it, hit⟩ := Option.isSome_iff_exists.mp (hkey.resolve_left hstop)
    obtain ⟨n, hn, rfl, rfl⟩ := h.toItem key it hit
    rw [hit]
    exact h.setRefs hn (· + 1)

theorem Inv.unpin (key : InodeId) : After c (c.unpin key) := by
  unfold DiskCache.unpin
  split
  · exact ⟨h, rfl⟩
  cases hit : c.iter key with
  | none => exact ⟨h, rfl⟩
  | some it =>
    obtain ⟨n, hn, rfl, rfl⟩ := h.toItem key it hit
    dsimp only
    split
    · exact h.setRefs hn (· - 1)
    · exact ⟨h, rfl⟩

theorem Inv.find (key : InodeId) (needPin onDisk : Bool) :
    After c (c.find key needPin onDisk).1 := by
  have hpin : (c.iter key).isSome → After c (c.pin key) := fun hsome => h.pin (.inr hsome)
  grind [DiskCache.find, h.tended.toAfter]

/-- The item of an inode goes. -/
theorem Inv.erase_iter {it : Option Nat} (hit : c.iter key = some it) :
    Tended c (c.erase key it (c.sizeAt it)) := by
  obtain ⟨n, hn, rfl, rfl⟩ := h.toItem key it hit
  rw [h.sizeAt_eq hn]
  exact (h.erase hn).1

theorem Inv.delete (key : InodeId) (err : Option Nat) : Tended c (c.delete key err).1 := by
  grind [DiskCache.delete, h.erase_iter, h.tended]

theorem Inv.deleteOldCacheWithNoPin (key : InodeId) (err : Option Nat) :
    Tended c (c.deleteOldCacheWithNoPin key err) := by
  grind [DiskCache.deleteOldCacheWithNoPin, h.erase_iter, h.tended]

/-- A change of size leaves the references alone. -/
theorem Inv.resize {it : Option Nat} (hit : c.iter key = some it)
    (change : BitVec 64) : Tended c (c.resize it change) := by
  obtain ⟨n, hn, rfl, rfl⟩ := h.toItem key it hit
  refine ⟨⟨h.modify hn _ _ _ rfl ?_, rfl⟩, fun m hm => ?_⟩
  · dsimp only
    ring
  · obtain ⟨k, hk, rfl⟩ := mem_map.mp hm
    exact ⟨k, hk, by split <;> exact ⟨rfl, rfl⟩⟩

theorem Inv.insertAndUpdate (key : InodeId) (size : BitVec 64) (needPin : Bool) :
    After c (c.insertAndUpdate key size needPin) := by
  have hins : c.iter key = none → After c (c.insert key size) := fun hnone =>
    ⟨h.insert hnone size, rfl⟩
  have hpin : c.iter key = none → After c ((c.insert key size).pin key) := by
    intro hnone
    have hsome : ((c.insert key size).iter key).isSome := by
      rw [iter, DiskCache.insert, iter_insert, if_pos rfl]
      rfl
    have hafter := (hins hnone).inv.pin (.inr hsome)
    exact ⟨hafter.inv, hafter.stop⟩
  have hsize : ∀ it, c.iter key = some it → After c (c.resize it (size - c.sizeAt it)) :=
    fun it hit => (h.resize hit _).toAfter
  grind [DiskCache.insertAndUpdate, h.tended.toAfter]

theorem Inv.update (key : InodeId) (size : BitVec 64) : Tended c (c.update key size).1 := by
  grind [DiskCache.update, h.resize, h.tended]

theorem Inv.add (key : InodeId) (size : BitVec 64) : Tended c (c.add key size).1 := by
  grind [DiskCache.add, h.resize, h.tended]

end

/-- **The loop of the evictors**, over nodes of the list that it has not seen yet: what is gone
had no references. -/
theorem Inv.evictFrom (ok : InodeId → Bool) (toFreeCap : BitVec 64) (toFreeInode : Nat)
    (rest : List CacheNode) (freedCap : BitVec 64) (freedInode : Nat) (c : DiskCache) (h : Inv c)
    (hrest : rest.Nodup) (hsub : ∀ n ∈ rest, n ∈ c.cacheItems) :
    Tended c (evictFrom ok toFreeCap toFreeInode rest freedCap freedInode c) ∧
      ∀ n ∈ c.cacheItems,
        n ∉ (evictFrom ok toFreeCap toFreeInode rest freedCap freedInode c).cacheItems →
          n.item.refs = 0 := by
  induction rest generalizing freedCap freedInode c with
  | nil => exact ⟨h.tended, fun n hn hno => absurd hn hno⟩
  | cons n rest ih =>
    obtain ⟨hnotin, hrest⟩ := nodup_cons.mp hrest
    have hn := hsub n mem_cons_self
    have htail : ∀ m ∈ rest, m ∈ c.cacheItems := fun m hm => hsub m (mem_cons_of_mem _ hm)
    obtain ⟨herase, hkeep⟩ := h.erase hn
    have hgo := ih (freedCap + n.item.size) (freedInode + 1) _ herase.inv hrest
      fun m hm => hkeep m (htail m hm) fun heq => hnotin (heq ▸ hm)
    have htended := herase.trans hgo.1
    have hstay := ih freedCap freedInode c h hrest htail
    have hzero : ¬ 0 < n.item.refs → n.item.refs = 0 := by simp
    simp only [DiskCache.evictFrom]
    grind [h.tended]

theorem Inv.evict (h : Inv c) (wantedCap : BitVec 64) (wantedInode : Nat) (ok : InodeId → Bool) :
    Tended c (c.evict wantedCap wantedInode ok) ∧
      ∀ n ∈ c.cacheItems, n ∉ (c.evict wantedCap wantedInode ok).cacheItems → n.item.refs = 0 :=
  Inv.evictFrom ok _ _ c.cacheItems 0 0 c h h.addresses.of_map fun _ hn => hn

end Inv

/-! ## 4. Where the items of a cache come from -/

section Origin

variable {c : DiskCache} {m n : CacheNode} {key : InodeId} {it : Option Nat}

/-- The entry of an inode points to its item and to no other. -/
theorem Inv.address_iff (h : Inv c) (hit : c.iter key = some it) (hn : n ∈ c.cacheItems) :
    some n.address = it ↔ n.item.inode = key := by
  obtain ⟨n', hn', rfl, rfl⟩ := h.toItem key it hit
  constructor
  · intro heq
    rw [inj_on_of_nodup_map h.addresses hn hn' (Option.some.inj heq)]
  · intro heq
    rw [h.eq_of_inode hn hn' heq]

theorem Inv.of_mem_modify (h : Inv c) (hit : c.iter key = some it) {f : CacheItem → CacheItem}
    (hm : m ∈ (c.modify it f).cacheItems) :
    ∃ n ∈ c.cacheItems, m.item = if n.item.inode = key then f n.item else n.item := by
  obtain ⟨n, hn, rfl⟩ := mem_map.mp hm
  refine ⟨n, hn, ?_⟩
  have hiff := h.address_iff hit hn
  by_cases heq : n.item.inode = key
  · rw [if_pos (hiff.mpr heq), if_pos heq]
  · rw [if_neg fun h' => heq (hiff.mp h'), if_neg heq]

theorem Inv.of_mem_pin (h : Inv c) (hstop : c.stop = false) (hit : c.iter key = some it)
    (hm : m ∈ (c.pin key).cacheItems) :
    ∃ n ∈ c.cacheItems, m.item.inode = n.item.inode ∧
      m.item.refs = if n.item.inode = key then n.item.refs + 1 else n.item.refs := by
  simp only [DiskCache.pin, hstop, hit, Bool.false_eq_true, if_false] at hm
  obtain ⟨n, hn, heq⟩ := h.of_mem_modify hit hm
  exact ⟨n, hn, by grind⟩

theorem Inv.of_mem_unpin (h : Inv c) (hstop : c.stop = false) (hm : m ∈ (c.unpin key).cacheItems) :
    ∃ n ∈ c.cacheItems, m.item.inode = n.item.inode ∧
      m.item.refs = if n.item.inode = key ∧ 0 < n.item.refs then n.item.refs - 1
        else n.item.refs := by
  simp only [DiskCache.unpin, hstop, Bool.false_eq_true, if_false] at hm
  split at hm
  · rename_i it hit
    obtain ⟨k, hk, rfl, rfl⟩ := h.toItem key it hit
    rw [h.refsAt_eq hk] at hm
    split at hm
    · rename_i hpos
      obtain ⟨n, hn, heq⟩ := h.of_mem_modify hit hm
      have := h.eq_of_inode hn hk
      exact ⟨n, hn, by grind⟩
    · have := h.eq_of_inode hm hk
      exact ⟨m, hm, by grind⟩
  · have := h.toIter m hm
    exact ⟨m, hm, by grind⟩

theorem find_unpinned (c : DiskCache) (key : InodeId) (onDisk : Bool) :
    (c.find key false onDisk).1 = c := by
  grind [find]

/-- Whether an inode is found. -/
theorem find_hit (hstop : c.stop = false) (key : InodeId) (needPin onDisk : Bool) :
    (c.find key needPin onDisk).2 = (c.iter key).isSome := by
  simp only [find, hstop, Bool.false_eq_true, if_false]
  split <;> simp_all

variable {size : BitVec 64}

/-- **An insert**: a new item has one reference or none, and a present one keeps those it has. -/
theorem Inv.of_mem_insertAndUpdate (h : Inv c) (hstop : c.stop = false) {needPin : Bool}
    (hm : m ∈ (c.insertAndUpdate key size needPin).cacheItems) :
    (∃ n ∈ c.cacheItems, m.item.inode = n.item.inode ∧ m.item.refs = n.item.refs ∧
        (c.iter key = none → n.item.inode ≠ key)) ∨
      c.iter key = none ∧ m.item.inode = key ∧ m.item.refs = if needPin then 1 else 0 := by
  simp only [DiskCache.insertAndUpdate, hstop, Bool.false_eq_true, if_false] at hm
  split at hm
  · rename_i it hit
    obtain ⟨n, hn, hinode, hrefs⟩ := (h.resize hit _).kept m hm
    exact .inl ⟨n, hn, hinode, hrefs, fun hnone => absurd (hit.symm.trans hnone) (by simp)⟩
  · rename_i hnone
    have hnew : ∀ n ∈ (c.insert key size).cacheItems,
        n ∈ c.cacheItems ∧ n.item.inode ≠ key ∨ n.item.inode = key ∧ n.item.refs = 0 := by
      have := h.toIter
      grind [DiskCache.insert]
    match needPin, hm with
    | true, hm =>
      have hit : (c.insert key size).iter key = some (some c.next) := by
        rw [iter, DiskCache.insert, iter_insert, if_pos rfl]
      obtain ⟨n, hn, hinode, hrefs⟩ := (h.insert hnone size).of_mem_pin hstop hit hm
      rcases hnew n hn with ⟨hn, hne⟩ | ⟨heq, hzero⟩
      · exact .inl ⟨n, hn, hinode, by rw [hrefs, if_neg hne], fun _ => hne⟩
      · exact .inr ⟨hnone, hinode.trans heq, by rw [hrefs, if_pos heq, hzero]; rfl⟩
    | false, hm =>
      rcases hnew m hm with ⟨hn, hne⟩ | ⟨heq, hzero⟩
      · exact .inl ⟨m, hn, rfl, rfl, fun _ => hne⟩
      · exact .inr ⟨hnone, heq, hzero⟩

/-- **What has no references can be evicted**: an evictor that is asked for one file, and can
remove no other, removes this one. -/
theorem Inv.evictFrom_one (rest : List CacheNode) (c : DiskCache) (h : Inv c)
    (hn : n ∈ c.cacheItems) (hrest : n ∈ rest) (hsub : ∀ k ∈ rest, k ∈ c.cacheItems)
    (hzero : n.item.refs = 0) :
    n ∉ (DiskCache.evictFrom (fun i => i = n.item.inode) 0 1 rest 0 0 c).cacheItems := by
  induction rest with
  | nil => cases hrest
  | cons k rest ih =>
    have htail : ∀ k' ∈ rest, k' ∈ c.cacheItems := fun k' hk' => hsub k' (mem_cons_of_mem _ hk')
    simp only [DiskCache.evictFrom]
    by_cases hk : k = n
    · subst hk
      rw [if_neg (by rw [hzero]; decide), if_pos (by simp),
        if_pos ⟨Nat.zero_le _, le_refl _⟩]
      intro hmem
      have hiter := (h.erase hn).1.inv.toIter k hmem
      rw [iter, DiskCache.erase, iter_erase, if_pos rfl] at hiter
      cases hiter
    · have hrest := (mem_cons.mp hrest).resolve_left fun heq => hk heq.symm
      have hinode : k.item.inode ≠ n.item.inode := fun heq =>
        hk (h.eq_of_inode (hsub k mem_cons_self) hn heq)
      split
      · exact ih hrest htail
      · rw [if_neg (by simpa using hinode), if_neg (by simp)]
        exact ih hrest htail

theorem Inv.evict_one (h : Inv c) (hn : n ∈ c.cacheItems) (hzero : n.item.refs = 0) :
    n ∉ (c.evict 0 1 fun i => i = n.item.inode).cacheItems := by
  have hlen : min 1 c.inodeToCacheIter.entries.length = 1 := by
    have hkey : n.item.inode ∈ c.inodeToCacheIter := by
      rw [← AList.lookup_isSome, show AList.lookup n.item.inode c.inodeToCacheIter = _ from
        h.toIter n hn]
      rfl
    have hpos : 0 < c.inodeToCacheIter.keys.length := length_pos_of_mem hkey
    rw [AList.keys, keys, length_map] at hpos
    omega
  rw [DiskCache.evict, hlen, if_neg (by simp)]
  exact h.evictFrom_one c.cacheItems c hn hn (fun _ hk => hk) hzero

end Origin

/-! ## 5. Sequences of calls -/

inductive CacheCall
  | insertAndUpdate (key : InodeId) (size : BitVec 64) (needPin : Bool)
  | update (key : InodeId) (size : BitVec 64)
  | add (key : InodeId) (size : BitVec 64)
  | pin (key : InodeId)
  | unpin (key : InodeId)
  | find (key : InodeId) (needPin onDisk : Bool)
  | delete (key : InodeId) (err : Option Nat)
  | deleteOldCacheWithNoPin (key : InodeId) (err : Option Nat)
  | cleanup (wantedCap : BitVec 64) (wantedInode : Nat) (ok : InodeId → Bool)
  | cleanupForEvict (wantedCap : BitVec 64) (wantedInode : Nat) (ok : InodeId → Bool)

def call (c : DiskCache) : CacheCall → Option DiskCache
  | .insertAndUpdate key size needPin => some (c.insertAndUpdate key size needPin)
  | .update key size => some (c.update key size).1
  | .add key size => some (c.add key size).1
  | .pin key => some (c.pin key)
  | .unpin key => some (c.unpin key)
  | .find key needPin onDisk => some (c.find key needPin onDisk).1
  | .delete key err => some (c.delete key err).1
  | .deleteOldCacheWithNoPin key err => some (c.deleteOldCacheWithNoPin key err)
  | .cleanup wantedCap wantedInode ok => some (c.cleanup wantedCap wantedInode ok)
  | .cleanupForEvict wantedCap wantedInode ok => some (c.cleanupForEvict wantedCap wantedInode ok)

/-- `Pin` is for an inode that is there, as `Find` and `InsertAndUpdate` call it. -/
def PinsPresent (c : DiskCache) : CacheCall → Prop
  | .pin key => c.stop = true ∨ (c.iter key).isSome
  | _ => True

theorem inv_call {c c' : DiskCache} {e : CacheCall} (h : Inv c) (hc : PinsPresent c e)
    (he : call c e = some c') : Inv c' := by
  cases e with
  | insertAndUpdate key size needPin => cases he; exact (h.insertAndUpdate key size needPin).inv
  | update key size => cases he; exact (h.update key size).inv
  | add key size => cases he; exact (h.add key size).inv
  | pin key => cases he; exact (h.pin hc).inv
  | unpin key => cases he; exact (h.unpin key).inv
  | find key needPin onDisk => cases he; exact (h.find key needPin onDisk).inv
  | delete key err => cases he; exact (h.delete key err).inv
  | deleteOldCacheWithNoPin key err => cases he; exact (h.deleteOldCacheWithNoPin key err).inv
  | cleanup => cases he; exact (h.evict _ _ _).1.inv
  | cleanupForEvict => cases he; exact (h.evict _ _ _).1.inv

theorem toNat_total (l : List CacheNode) :
    (total l).toNat = (l.map fun n => n.item.size.toNat).sum % 2 ^ 64 := by
  induction l with
  | nil => rfl
  | cons n l ih => rw [total_cons, BitVec.toNat_add, ih, map_cons, sum_cons, Nat.add_mod_mod]

/-- The map and the list are in bijection, the counter is right, and the evictors spare what is
pinned. -/
structure Tidy (c : DiskCache) : Prop where
  /-- An entry of the map points to the item with its inode. -/
  toItem : ∀ key it, c.iter key = some it →
    ∃ n ∈ c.cacheItems, it = some n.address ∧ n.item.inode = key
  /-- An item is the one that the entry of its inode points to. -/
  toIter : ∀ n ∈ c.cacheItems, c.iter n.item.inode = some (some n.address)
  addresses : (c.cacheItems.map (·.address)).Nodup
  inodes : (c.cacheItems.map (·.item.inode)).Nodup
  usedCap : c.usedCap.toNat = (c.cacheItems.map fun n => n.item.size.toNat).sum % 2 ^ 64
  cleanup : ∀ wantedCap wantedInode ok, ∀ n ∈ c.cacheItems,
    n ∉ (c.cleanup wantedCap wantedInode ok).cacheItems → n.item.refs = 0
  cleanupForEvict : ∀ wantedCap wantedInode ok, ∀ n ∈ c.cacheItems,
    n ∉ (c.cleanupForEvict wantedCap wantedInode ok).cacheItems → n.item.refs = 0

theorem Inv.tidy {c : DiskCache} (h : Inv c) : Tidy c where
  toItem := h.toItem
  toIter := h.toIter
  addresses := h.addresses
  inodes := by
    refine List.Nodup.map_on ?_ h.addresses.of_map
    exact fun m hm n hn heq => h.eq_of_inode hm hn heq
  usedCap := by rw [h.used, toNat_total]
  cleanup wantedCap wantedInode ok := (h.evict wantedCap wantedInode ok).2
  cleanupForEvict wantedCap wantedInode ok := (h.evict wantedCap wantedInode ok).2

/-- **The disk cache is tidy** after every sequence of calls in which `Pin` finds its inode,
whatever `remove` does and whatever the evictors are asked for. -/
theorem disk_cache_tidy {stop : Bool} {freeCap : BitVec 64} {c : DiskCache}
    (h : Run call PinsPresent (start stop freeCap) c) : Tidy c :=
  (h.invariant (inv_start stop freeCap) fun _ _ _ hi hc he => inv_call hi hc he).tidy

/-- Two files, one of them pinned, and an evictor that is asked for one file. -/
theorem disk_cache_tidy_evicted : ∃ c, Run call PinsPresent (start false 1000) c ∧
      c.cacheItems = [⟨0, ⟨5, 40, 2⟩⟩] ∧ c.usedCap = 40 ∧ Tidy c := by
  have hrun : ∃ c, exec call (start false 1000)
      [.insertAndUpdate 5 10 true, .insertAndUpdate 7 20 true, .update 5 40, .pin 5, .unpin 7,
        .cleanupForEvict 0 1 fun _ => true] = some c ∧
      c.cacheItems = [⟨0, ⟨5, 40, 2⟩⟩] ∧ c.usedCap = 40 := ⟨_, rfl, by decide, by decide⟩
  obtain ⟨c, hexec, hitems, hused⟩ := hrun
  have hmeet : Run call PinsPresent (start false 1000) c := by
    refine .of_exec_meet _ hexec ⟨trivial, fun _ h₁ => ⟨trivial, fun _ h₂ => ⟨trivial, fun _ h₃ =>
      ⟨Or.inr ?_, fun _ _ => ⟨trivial, fun _ _ => ⟨trivial, fun _ _ => trivial⟩⟩⟩⟩⟩⟩
    cases h₁
    cases h₂
    cases h₃
    decide
  exact ⟨c, hmeet, hitems, hused, disk_cache_tidy hmeet⟩

/-- `Pin` of an inode that is not there puts an iterator into the map that points to no item. -/
theorem pin_without_item : Reach call (start false 1000) ((start false 1000).pin 5) ∧
      ((start false 1000).pin 5).iter 5 = some none ∧
      ((start false 1000).pin 5).cacheItems = [] ∧ ¬ Tidy ((start false 1000).pin 5) := by
  have hiter : ((start false 1000).pin 5).iter 5 = some none := by decide
  refine ⟨.of_exec [.pin 5] rfl, hiter, rfl, fun h => ?_⟩
  obtain ⟨n, hn, -⟩ := h.toItem 5 none hiter
  cases hn

end DiskCache

end FalconFS.Store
