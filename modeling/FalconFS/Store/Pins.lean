/-
# Pins

A request PINS the item of its inode while it uses the cache file, so that no evictor takes the
file away.  `Find` and `InsertAndUpdate` take pins, `Unpin` gives them back; the histories of the
processes say who has one.  The reference count of an item should be the number of pins of the
processes that are running: the files that are open and the reads under way.

It is not, in general.

* `InsertAndUpdate` with `needPin` pins the item only if it is new.  Two who open the same inode can
  both miss it in the cache; the second of them then has no reference of its own, but will give one
  back.
* A download that `ReadSmallFiles` or `ReadSmallFilesForBrpc` waits for pins the item, and nobody
  gives this pin back; nor the one of a small file that was switched to this node and opened here.
* `OpenFile` returns without `Unpin` when its `open` fails after such a download.
* An item that is deleted while it is pinned, and inserted again by a flush or a loader, starts
  without the references of those who still use the inode.

`Careful` excludes just these (and 2 ^ 32 pins of one inode), and then the count is right in every
state (`pins_exact`).
-/
import FalconFS.Store.Courses
import Mathlib.Algebra.Order.BigOperators.Group.List

namespace FalconFS.Store

open Machine List Node

/-! ## 1. Who relies on an inode -/

/-- The pins of a process that is running. -/
def Proc.pins (proc : Proc) : Nat := if proc.prog.isRet then 0 else Store.pins proc.hist

def Proc.reliesOn (key : InodeId) (proc : Proc) : Nat := if proc.job.key = key then proc.pins else 0

/-- The open files and the running operations that have the inode pinned. -/
def Node.relies (s : Node) (key : InodeId) : Nat := (s.procs.map (Proc.reliesOn key)).sum

/-- What the next operation of a process must find. -/
def CarefulOp (s : Node) (proc : Proc) (x : Outcome) : StoreOp → Prop
  | .find key true => s.relies key + 1 < 2 ^ 32 ∧
      ((s.cache.iter key).isSome → proc.job.givesBack (downloads proc.hist) = true)
  | .insertAndUpdate key _ true => s.cache.iter key = none ∧ s.relies key = 0 ∧
      proc.job.givesBack (downloads proc.hist) = true
  | .insertAndUpdate key _ false => (s.cache.iter key).isSome ∨ s.relies key = 0
  | .openLocal _ => downloads proc.hist = true → x.err = none
  | _ => True

def CarefulNext (s : Node) (proc : Proc) (x : Outcome) : StoreProg Int → Prop
  | .op o _ => CarefulOp s proc x o
  | _ => True

/-- **The condition under which the pins are right.**

* A pinning insert meets no item, and nobody who relies on the inode.
* An insert without pin that meets no item meets nobody who relies on the inode.
* No pin is taken by a job that does not give it back.
* An `open` after a download succeeds.
* There are fewer than 2 ^ 32 pins of an inode. -/
def Careful (s : Node) : NodeEvent → Prop
  | .run p x => ∀ proc ∈ s.procs[p]?, CarefulNext s proc x proc.prog
  | _ => True

instance (s : Node) (proc : Proc) (x : Outcome) : ∀ o, Decidable (CarefulOp s proc x o)
  | .find key true => inferInstanceAs (Decidable (s.relies key + 1 < 2 ^ 32 ∧
      ((s.cache.iter key).isSome → proc.job.givesBack (downloads proc.hist) = true)))
  | .insertAndUpdate key _ true => inferInstanceAs (Decidable (s.cache.iter key = none ∧
      s.relies key = 0 ∧ proc.job.givesBack (downloads proc.hist) = true))
  | .insertAndUpdate key _ false =>
    inferInstanceAs (Decidable ((s.cache.iter key).isSome ∨ s.relies key = 0))
  | .openLocal _ => inferInstanceAs (Decidable (downloads proc.hist = true → x.err = none))
  | .find _ false | .unpin _ | .deleteOldCacheWithNoPin _ | .delete _ | .reserve _ | .evict _
  | .freePreAllocSpace _ | .lockX _ _ | .dropLocker _ | .openLoading _ | .close | .pread | .pwrite
  | .remove | .readObject | .deleteObject | .submit _ => isTrue trivial

instance (s : Node) (proc : Proc) (x : Outcome) : ∀ prog, Decidable (CarefulNext s proc x prog)
  | .op o _ => inferInstanceAs (Decidable (CarefulOp s proc x o))
  | .ret _ | .fail _ => isTrue trivial

instance (s : Node) : ∀ e, Decidable (Careful s e)
  | .run p x => inferInstanceAs (Decidable (∀ proc ∈ s.procs[p]?, CarefulNext s proc x proc.prog))
  | .begin _ | .cleanup _ _ _ | .update _ _ | .add _ _ => isTrue trivial

/-- A process that has not met trouble. -/
structure Proc.Sound (proc : Proc) : Prop where
  safe : Prog.Safe (PinOk proc.job) (PinEnd proc.job) proc.hist proc.prog
  untroubled : troubled proc.job proc.hist = false

variable {proc : Proc} {p : Nat}

/-- A process that has come to its end has no pins. -/
theorem Proc.Sound.pins_eq (h : proc.Sound) : proc.pins = Store.pins proc.hist := by
  unfold Proc.pins
  split
  · rename_i hret
    have hsafe := h.safe
    match hprog : proc.prog, hret with
    | .ret a, _ =>
      rw [hprog] at hsafe
      have hend : PinEnd proc.job proc.hist a := hsafe
      rcases hend with ht | hzero
      · rw [h.untroubled] at ht
        cases ht
      · exact hzero.symm
  · rfl

theorem Proc.Sound.begin (persistToStorage : Bool) (job : Job) (locker : Option Nat) :
    (Proc.begin persistToStorage job locker).Sound where
  safe := job.pins_safe persistToStorage
  untroubled := by cases job <;> rfl

theorem Proc.pins_begin (persistToStorage : Bool) (job : Job) (locker : Option Nat) :
    (Proc.begin persistToStorage job locker).pins = 0 := by
  rw [(Proc.Sound.begin persistToStorage job locker).pins_eq]
  cases job <;> rfl

/-! ## 2. The invariant -/

structure PinInv (s : Node) : Prop where
  cache : s.cache.Inv
  started : s.cache.stop = false
  locks : s.locks.Inv
  sound : ∀ proc ∈ s.procs, proc.Sound
  exact : ∀ n ∈ s.cache.cacheItems, n.item.refs.toNat = s.relies n.item.inode

theorem relies_append (l : List Proc) (key : InodeId) (h : proc.pins = 0) :
    ((l ++ [proc]).map (Proc.reliesOn key)).sum = (l.map (Proc.reliesOn key)).sum := by
  simp [Proc.reliesOn, h]

/-- One process goes on, the others stay. -/
theorem relies_set {l : List Proc} (key : InodeId) (proc' : Proc) (hp : l[p]? = some proc) :
    ((l.set p proc').map (Proc.reliesOn key)).sum + proc.reliesOn key =
      (l.map (Proc.reliesOn key)).sum + proc'.reliesOn key := by
  induction l generalizing p with
  | nil => cases hp
  | cons a l ih =>
    match p, hp with
    | 0, hp =>
      cases hp
      simp only [set_cons_zero, map_cons, sum_cons]
      omega
    | p + 1, hp =>
      have := ih hp
      simp only [set_cons_succ, map_cons, sum_cons]
      omega

theorem reliesOn_le {l : List Proc} (key : InodeId) (hp : l[p]? = some proc) :
    proc.reliesOn key ≤ (l.map (Proc.reliesOn key)).sum :=
  single_le_sum (fun _ _ => Nat.zero_le _) _
    (mem_map_of_mem (mem_of_getElem? hp))

section Step

variable {persistToStorage : Bool} {s s' : Node} {p : Nat} {proc : Proc} {x : Outcome} {o : StoreOp}
  {k : o.Res → StoreProg Int}

variable {c : DiskCache} {key : InodeId} {size : BitVec 64} {v : o.Res}

open DiskCache (Kept)

/-- The pins of the process, as far as they count for an inode. -/
def share (job : Job) (n : Nat) (inode : InodeId) : Nat := if job.key = inode then n else 0

/-- The references after an operation, next to the pins of the process before and after it. -/
def RefsMove (s : Node) (proc : Proc) (c : DiskCache) (n : Nat) : Prop :=
  ∀ m ∈ c.cacheItems, m.item.refs.toNat + share proc.job (pins proc.hist) m.item.inode =
    s.relies m.item.inode + share proc.job n m.item.inode

theorem refsMove_of_kept (hi : PinInv s) (hk : Kept s.cache c) :
    RefsMove s proc c (pins proc.hist) := by
  intro m hm
  obtain ⟨n, hn, hinode, hrefs⟩ := hk m hm
  rw [hrefs, hinode, hi.exact n hn]

theorem refsMove_find (hi : PinInv s) (hkey : key = proc.job.key) (hpins : pins proc.hist = 0)
    (hlt : s.relies key + 1 < 2 ^ 32) :
    RefsMove s proc (s.cache.find key true x.ok).1
      (pinsAfter (pins proc.hist) (.find key true) (s.cache.find key true x.ok).2) := by
  unfold DiskCache.find
  rw [if_neg (by simp [hi.started])]
  split
  · rename_i it hit
    intro m hm
    obtain ⟨n, hn, hinode, hrefs⟩ := hi.cache.of_mem_pin hi.started hit hm
    have hexact := hi.exact n hn
    rw [hinode, hrefs, hpins, ← hexact]
    by_cases heq : n.item.inode = key
    · have hone : n.item.refs.toNat + 1 < 2 ^ 32 := by
        rw [hexact, heq]
        exact hlt
      rw [if_pos heq, BitVec.toNat_add, share, share, if_pos (heq ▸ hkey).symm,
        if_pos (heq ▸ hkey).symm]
      exact Nat.mod_eq_of_lt hone
    · rw [if_neg heq, share, share, if_neg fun h => heq (hkey.trans h).symm,
        if_neg fun h => heq (hkey.trans h).symm]
  · exact refsMove_of_kept hi hi.cache.tended.kept

theorem refsMove_insert (hi : PinInv s) (hkey : key = proc.job.key) (hpins : pins proc.hist = 0)
    (hnone : s.cache.iter key = none) (hrelies : s.relies key = 0) :
    RefsMove s proc (s.cache.insertAndUpdate key size true)
      (pinsAfter (pins proc.hist) (.insertAndUpdate key size true) ()) := by
  intro m hm
  rw [hpins]
  rcases hi.cache.of_mem_insertAndUpdate hi.started hm with
    ⟨n, hn, hinode, hrefs, hne⟩ | ⟨-, hinode, hrefs⟩
  · have hne := hne hnone
    rw [hinode, hrefs, hi.exact n hn, share, share, if_neg fun h => hne (hkey.trans h).symm,
      if_neg fun h => hne (hkey.trans h).symm]
  · rw [hinode, hrefs, hrelies, share, share, if_pos hkey.symm, if_pos hkey.symm]
    rfl

theorem refsMove_update (hi : PinInv s) (hc : (s.cache.iter key).isSome ∨ s.relies key = 0) :
    RefsMove s proc (s.cache.insertAndUpdate key size false) (pins proc.hist) := by
  intro m hm
  rcases hi.cache.of_mem_insertAndUpdate hi.started hm with
    ⟨n, hn, hinode, hrefs, -⟩ | ⟨hnone, hinode, hrefs⟩
  · rw [hinode, hrefs, hi.exact n hn]
  · have hrelies : s.relies key = 0 := hc.resolve_left (by simp [hnone])
    rw [hinode, hrefs, hrelies]
    rfl

theorem refsMove_unpin (hi : PinInv s) (hproc : s.procs[p]? = some proc) (hkey : key = proc.job.key)
    (hpins : pins proc.hist = 1) :
    RefsMove s proc (s.cache.unpin key) (pinsAfter (pins proc.hist) (.unpin key) ()) := by
  have hsound := hi.sound proc (mem_of_getElem? hproc)
  intro m hm
  obtain ⟨n, hn, hinode, hrefs⟩ := hi.cache.of_mem_unpin hi.started hm
  have hexact := hi.exact n hn
  rw [hinode, hrefs, hpins, ← hexact]
  by_cases heq : n.item.inode = key
  · -- the pin of this process is one of the references
    have hone : 1 ≤ n.item.refs.toNat := by
      have := reliesOn_le key hproc
      rw [Proc.reliesOn, if_pos hkey.symm, hsound.pins_eq, hpins] at this
      rw [hexact, heq]
      exact this
    have hpos : 0 < n.item.refs := by
      rw [BitVec.lt_def]
      exact hone
    rw [if_pos ⟨heq, hpos⟩, share, share, if_pos (heq ▸ hkey).symm, if_pos (heq ▸ hkey).symm,
      BitVec.toNat_sub_of_le (by rw [BitVec.le_def]; exact hone)]
    exact Nat.sub_add_cancel hone
  · rw [if_neg fun h => heq h.1, share, share, if_neg fun h => heq (hkey.trans h).symm,
      if_neg fun h => heq (hkey.trans h).symm]

theorem Proc.Sound.pinOk (h : proc.Sound) (hprog : proc.prog = .op o k) :
    PinOk proc.job proc.hist o := by
  have := h.safe
  rw [hprog] at this
  exact this.1

/-- **One operation**, as far as references go. -/
theorem refsMove_act (hi : PinInv s) (hproc : s.procs[p]? = some proc) (hprog : proc.prog = .op o k)
    (hc : CarefulOp s proc x o) (hact : s.act persistToStorage p proc x o = some (s', some v)) :
    RefsMove s proc s'.cache (pinsAfter (pins proc.hist) o v) := by
  have hsound := hi.sound proc (mem_of_getElem? hproc)
  have hok := hsound.pinOk hprog
  have hclean : ∀ {P : Prop}, troubled proc.job proc.hist = true ∨ P → P := fun h =>
    h.resolve_left (by simp [hsound.untroubled])
  rw [(act_frame hact).1]
  cases o with
  | find key needPin =>
    cases needPin
    · rw [cacheAfter, DiskCache.find_unpinned]
      exact refsMove_of_kept hi hi.cache.tended.kept
    · obtain ⟨hkey, hpins⟩ := hclean hok
      obtain ⟨-, hv⟩ := Prod.mk.inj (Option.some.inj hact)
      cases hv
      exact refsMove_find hi hkey hpins hc.1
  | insertAndUpdate key size needPin =>
    cases needPin
    · exact refsMove_update hi hc
    · obtain ⟨hkey, hpins⟩ := hclean hok
      exact refsMove_insert hi hkey hpins hc.1 hc.2.1
  | unpin key =>
    obtain ⟨hkey, hpins⟩ := hclean hok
    exact refsMove_unpin hi hproc hkey hpins
  | deleteOldCacheWithNoPin key =>
    exact refsMove_of_kept hi (hi.cache.deleteOldCacheWithNoPin key _).kept
  | delete key => exact refsMove_of_kept hi (hi.cache.delete key _).kept
  | evict => exact refsMove_of_kept hi (hi.cache.evict _ _ _).1.kept
  | _ => exact refsMove_of_kept hi hi.cache.tended.kept

/-- A careful process meets no trouble. -/
theorem trouble_act (hi : PinInv s) (hc : CarefulOp s proc x o)
    (hact : s.act persistToStorage p proc x o = some (s', some v)) :
    trouble proc.job proc.hist o v = false := by
  cases o with
  | find key needPin =>
    cases needPin with
    | false => rfl
    | true =>
      obtain ⟨-, hv⟩ := Prod.mk.inj (Option.some.inj hact)
      have hhit : v = (s.cache.iter key).isSome :=
        (Option.some.inj hv).symm.trans (DiskCache.find_hit hi.started key true x.ok)
      match v, hhit with
      | true, hhit => simp [trouble, hc.2 hhit.symm]
      | false, _ => rfl
  | insertAndUpdate key size needPin =>
    cases needPin
    · rfl
    · simp [trouble, hc.2.2]
  | openLocal key =>
    obtain ⟨-, hv⟩ := Prod.mk.inj (Option.some.inj hact)
    cases hv
    change (downloads proc.hist && x.err.isSome) = false
    cases hd : downloads proc.hist with
    | true =>
      have hnone : x.err = none := hc hd
      simp [hnone]
    | false => rfl
  | lockX key wait =>
    cases wait with
    | false => rfl
    | true =>
      simp only [act, lockX] at hact
      split at hact
      · obtain ⟨locks, -, heq⟩ := Option.map_eq_some_iff.mp hact
        have hv := (Prod.mk.inj heq).2
        split at hv <;> cases hv
        rfl
      · obtain ⟨locks, hstep, heq⟩ := Option.map_eq_some_iff.mp hact
        have hv := (Prod.mk.inj heq).2
        split at hv <;> cases hv
        have hheld := (hi.locks.get_wait hstep).resolve_right ‹_›
        simp [trouble, hheld]
  | _ => rfl

theorem Proc.Sound.resume (h : proc.Sound) (hprog : proc.prog = .op o k)
    (ht : trouble proc.job proc.hist o v = false) : (proc.resume p o v k).Sound where
  safe := by
    have := h.safe
    rw [hprog] at this
    exact this.2 v
  untroubled := by
    change (troubled proc.job proc.hist || trouble proc.job proc.hist o v) = false
    rw [h.untroubled, ht]
    rfl

theorem locks_inv (h : s.locks.Inv)
    (hl : s'.locks = s.locks ∨ ∃ e, s.locks.step e = some s'.locks) : s'.locks.Inv := by
  rcases hl with heq | ⟨e, he⟩
  · exact heq ▸ h
  · exact LockSys.inv_step h he

/-- An operation adds no process that relies on something. -/
theorem act_procs (hproc : s.procs[p]? = some proc) {r : Option o.Res}
    (hact : s.act persistToStorage p proc x o = some (s', r)) :
    s'.procs[p]? = some proc ∧ (∀ q ∈ s'.procs, q ∈ s.procs ∨ q.Sound) ∧
      ∀ key, s'.relies key = s.relies key := by
  rcases (act_frame hact).2.1 with heq | ⟨t, -, heq⟩
  · rw [heq]
    exact ⟨hproc, fun q hq => Or.inl hq, fun _ => by rw [relies, heq, relies]⟩
  · rw [heq]
    refine ⟨?_, ?_, fun key => ?_⟩
    · exact List.getElem?_append_left (List.getElem?_eq_some_iff.mp hproc).1 ▸ hproc
    · intro q hq
      rcases List.mem_append.mp hq with hq | hq
      · exact Or.inl hq
      · rw [List.mem_singleton.mp hq]
        exact Or.inr (Proc.Sound.begin persistToStorage _ _)
    · rw [relies, heq]
      exact relies_append s.procs key (Proc.pins_begin persistToStorage _ _)

/-- A change of the cache alone that keeps the references. -/
theorem PinInv.setCache (hi : PinInv s) (hc : s.cache.Tended c) : PinInv { s with cache := c } where
  cache := hc.inv
  started := hc.stop.trans hi.started
  locks := hi.locks
  sound := hi.sound
  exact m hm := by
    obtain ⟨n, hn, hinode, hrefs⟩ := hc.kept m hm
    rw [hrefs, hinode]
    exact hi.exact n hn

/-- **A step of a process.** -/
theorem PinInv.run (hi : PinInv s) (hc : Careful s (.run p x))
    (hrun : s.run persistToStorage p x = some s') : PinInv s' := by
  obtain ⟨proc, o, k, hproc, hprog, s₁, r, hact, hr⟩ := run_cases hrun
  have hcareful : CarefulOp s proc x o := by
    have hnext := hc proc hproc
    rw [hprog] at hnext
    exact hnext
  obtain ⟨hcache, -, hlocks⟩ := act_frame hact
  obtain ⟨hproc₁, hsound₁, hrelies₁⟩ := act_procs hproc hact
  have hsound : ∀ q ∈ s₁.procs, q.Sound := fun q hq => (hsound₁ q hq).elim (hi.sound q) id
  have hafter : s.cache.After s₁.cache := hcache ▸ Node.after_cacheAfter hi.cache o
  have hstop : s₁.cache.stop = false := hafter.stop.trans hi.started
  rcases hr with ⟨rfl, rfl⟩ | ⟨v, rfl, rfl⟩
  · refine ⟨hafter.inv, hstop, locks_inv hi.locks hlocks, hsound, ?_⟩
    obtain ⟨key, wait, rfl⟩ := act_waits hact
    have hsame : s'.cache = s.cache := hcache
    intro n hn
    rw [hrelies₁]
    exact hi.exact n (hsame ▸ hn)
  · have hproc' := (hsound proc (mem_of_getElem? hproc₁)).resume (p := p) hprog
      (trouble_act hi hcareful hact)
    refine ⟨hafter.inv, hstop, locks_inv hi.locks hlocks, ?_, ?_⟩
    · intro q hq
      rcases mem_or_eq_of_mem_set hq with hq | rfl
      · exact hsound q hq
      · exact hproc'
    · intro n hn
      have hmove := refsMove_act hi hproc hprog hcareful hact n hn
      have hset := relies_set n.item.inode (proc.resume p o v k) hproc₁
      have hbefore : proc.reliesOn n.item.inode = share proc.job (pins proc.hist) n.item.inode := by
        rw [Proc.reliesOn, (hsound proc (mem_of_getElem? hproc₁)).pins_eq, share]
      have hafter : (proc.resume p o v k).reliesOn n.item.inode =
          share proc.job (pinsAfter (pins proc.hist) o v) n.item.inode := by
        rw [Proc.reliesOn, hproc'.pins_eq]
        rfl
      have hsum := hrelies₁ n.item.inode
      simp only [relies] at hsum hmove
      simp only [resume, relies]
      omega

theorem PinInv.step (hi : PinInv s) {e : NodeEvent} (hc : Careful s e)
    (hs : s.step persistToStorage e = some s') : PinInv s' := by
  match e, hc, hs with
  | .run p x, hc, hs => exact hi.run hc hs
  | .begin job, _, hs =>
    simp only [Node.step] at hs
    split at hs
    · cases hs
    · cases hs
      refine ⟨hi.cache, hi.started, hi.locks, ?_, ?_⟩
      · intro q hq
        rcases mem_append.mp hq with hq | hq
        · exact hi.sound q hq
        · rw [mem_singleton.mp hq]
          exact Proc.Sound.begin persistToStorage _ _
      · intro n hn
        rw [Node.relies, relies_append _ _ (Proc.pins_begin persistToStorage _ _)]
        exact hi.exact n hn
  | .cleanup _ _ _, _, hs =>
    cases hs
    exact hi.setCache (hi.cache.evict _ _ _).1
  | .update key size, _, hs =>
    cases hs
    exact hi.setCache (hi.cache.update key size)
  | .add key size, _, hs =>
    cases hs
    exact hi.setCache (hi.cache.add key size)

end Step

/-! ## 3. References and pins -/

/-- A started cache in which nothing is pinned. -/
structure Fresh (c : DiskCache) : Prop where
  inv : c.Inv
  started : c.stop = false
  unpinned : ∀ n ∈ c.cacheItems, n.item.refs = 0

/-- The reference counts of a node are right. -/
structure PinsExact (s : Node) : Prop where
  /-- The count is the number of pins of the open files and of the running operations. -/
  refs : ∀ n ∈ s.cache.cacheItems, n.item.refs.toNat = s.relies n.item.inode
  /-- No evictor removes an inode in use. -/
  spared : ∀ wantedCap wantedInode removes, ∀ n ∈ s.cache.cacheItems,
    n ∉ (s.cache.evict wantedCap wantedInode removes).cacheItems → s.relies n.item.inode = 0
  /-- What nobody uses can be evicted. -/
  evictable : ∀ n ∈ s.cache.cacheItems, s.relies n.item.inode = 0 →
    n ∉ (s.cache.evict 0 1 fun i => i = n.item.inode).cacheItems

theorem PinInv.pinsExact {s : Node} (hi : PinInv s) : PinsExact s where
  refs := hi.exact
  spared wantedCap wantedInode removes n hn hgone := by
    rw [← hi.exact n hn, (hi.cache.evict wantedCap wantedInode removes).2 n hn hgone]
    rfl
  evictable n hn hzero := by
    refine hi.cache.evict_one hn (BitVec.eq_of_toNat_eq ?_)
    rw [hi.exact n hn, hzero]
    rfl

theorem pinInv_start {c : DiskCache} (h : Fresh c) (reservedCap : BitVec 64) :
    PinInv (Node.start c reservedCap) where
  cache := h.inv
  started := h.started
  locks := LockSys.inv_init
  sound q hq := by cases hq
  exact n hn := by
    rw [h.unpinned n hn]
    rfl

/-- **References are pins**, in every state that a node comes to by careful steps. -/
theorem pins_exact {persistToStorage : Bool} {c : DiskCache} {reservedCap : BitVec 64} {s : Node}
    (hfresh : Fresh c)
    (hrun : Run (Node.step persistToStorage) Careful (Node.start c reservedCap) s) : PinsExact s :=
  (hrun.invariant (pinInv_start hfresh reservedCap) fun _ _ _ hi hc hs => hi.step hc hs).pinsExact


theorem fresh_start (freeCap : BitVec 64) : Fresh (DiskCache.start false freeCap) where
  inv := DiskCache.inv_start false freeCap
  started := rfl
  unpinned n hn := by cases hn

/-- Somebody who creates the file of inode `key`, with `O_RDWR | O_CREAT`. -/
def creator (key : InodeId) : Job := .file ⟨key, 66, 0, 0, false, false⟩ [10] 10

/-- A file is open, a small read is under way, and an evictor that wants it all gets nothing. -/
theorem pins_exact_shared :
    ∃ s, Run (Node.step true) Careful (Node.start (.start false 1000) 0) s ∧
      s.cache.cacheItems = [⟨0, ⟨5, 10, 2⟩⟩] ∧ s.relies 5 = 2 ∧ PinsExact s := by
  have hrun : ∃ s, exec (fun s e => if Careful s e then step true s e else none)
      (start (.start false 1000) 0)
      [.begin (creator 5), .run 0 quiet, .run 0 quiet, .run 0 quiet, .run 0 quiet,
        .begin (.readSmallFiles ⟨5, 0, 10, 10, false, false⟩), .run 1 quiet, .run 1 quiet,
        .cleanup 1000 1 fun _ => true] = some s ∧
      s.cache.cacheItems = [⟨0, ⟨5, 10, 2⟩⟩] ∧ s.relies 5 = 2 := ⟨_, rfl, by decide, by decide⟩
  obtain ⟨s, hexec, hitems, hrelies⟩ := hrun
  have hmeet := Run.of_exec_if _ hexec
  exact ⟨s, hmeet, hitems, hrelies, pins_exact (fresh_start 1000) hmeet⟩

/-- Two that create the same file both miss it in the cache, and only one gets a reference.  When it
closes its file, the other one has an open file that the next evictor removes. -/
theorem pin_lost : ∃ s, Reach (Node.step true) (Node.start (.start false 1000) 0) s ∧
      s.cache.cacheItems = [⟨0, ⟨5, 10, 0⟩⟩] ∧ s.relies 5 = 1 ∧
      (s.cache.cleanupForEvict 0 1 fun _ => true).cacheItems = [] ∧ ¬ PinsExact s := by
  have hrun : ∃ s, exec (step true) (start (.start false 1000) 0)
      [.begin (creator 5), .begin (creator 5), .run 0 quiet, .run 1 quiet, .run 0 quiet,
        .run 1 quiet, .run 0 quiet, .run 1 quiet, .run 0 quiet, .run 0 quiet, .run 0 quiet] =
        some s ∧
      s.cache.cacheItems = [⟨0, ⟨5, 10, 0⟩⟩] ∧ s.relies 5 = 1 ∧
      (s.cache.cleanupForEvict 0 1 fun _ => true).cacheItems = [] :=
    ⟨_, rfl, by decide, by decide, by decide⟩
  obtain ⟨s, hexec, hitems, hrelies, hgone⟩ := hrun
  refine ⟨s, .of_exec _ hexec, hitems, hrelies, hgone, fun h => ?_⟩
  have hrefs := h.refs ⟨0, ⟨5, 10, 0⟩⟩ (by simp [hitems])
  rw [hrelies] at hrefs
  cases hrefs

end FalconFS.Store
