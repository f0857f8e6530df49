/-
# The pool of memory blocks

`mem_pool.h` keeps blocks that were freed for the next who asks.  It counts the blocks that are
handed out (`m_size`), and a block that comes back is kept when that number is below the capacity.
That the CACHED blocks are then never more than the capacity is not checked anywhere: as long as
something is cached, cached and handed out blocks together are fewer than the capacity
(`Inv.small`), since what is allocated beyond that was allocated when nothing was cached.

`aligned_alloc` is outside: it returns nothing, or a block that nobody has.  A block is its address.
There are fewer than `2 ^ 64` of them, so that the counter does not wrap.
-/
import FalconFS.Lib.Machine
import Mathlib.Data.List.ReduceOption

namespace FalconFS.MemPool

open Machine List

/-! ## 1. The pool -/

abbrev Block := Nat

structure Pool where
  isInit : Bool
  capacity : Nat
  size : Nat
  freeBlocks : List Block

namespace Pool

/-- `MemPool::alloc`; `mem` is what `aligned_alloc` returns. -/
def alloc (p : Pool) (mem : Option Block) : Pool × Option Block :=
  if p.isInit then
    match p.freeBlocks, mem with
    | block :: rest, _ => ({ p with freeBlocks := rest, size := p.size + 1 }, some block)
    | [], some block => ({ p with size := p.size + 1 }, some block)
    | [], none => (p, none)
  else (p, none)

/-- The loop of `calloc` over the cached blocks: `!m_freeBlocks.empty() && num--`.  It returns what
is taken, what is left, and `num`. -/
def takeCached : List Block → Int → List Block × List Block × Int
  | [], num => ([], [], num)
  | block :: rest, num =>
    if num = 0 then ([], block :: rest, num - 1)
    else
      let r := takeCached rest (num - 1)
      (block :: r.1, r.2)

/-- The loop over `aligned_alloc`, which returns the members of `mem` one after the other. -/
def takeFresh : List (Option Block) → Int → List Block × Int
  | some block :: mem, num =>
    if 0 < num then
      let r := takeFresh mem (num - 1)
      (block :: r.1, r.2)
    else ([], num)
  | _, num => ([], num)

/-- `MemPool::calloc` -/
def calloc (p : Pool) (num : Int) (mem : List (Option Block)) : Pool × List Block :=
  if p.isInit then
    let cached := takeCached p.freeBlocks num
    let fresh := takeFresh mem cached.2.2
    -- too few: the blocks are given back to the system
    if 0 < fresh.2 then ({ p with freeBlocks := cached.2.1 }, [])
    else
      let bulkMem := cached.1 ++ fresh.1
      ({ p with freeBlocks := cached.2.1, size := p.size + bulkMem.length }, bulkMem)
  else (p, [])

/-- `MemPool::free` -/
def free (p : Pool) (buf : Block) : Pool :=
  if p.isInit then
    if p.size < p.capacity then { p with size := p.size - 1, freeBlocks := p.freeBlocks ++ [buf] }
    else { p with size := p.size - 1 }
  else p

end Pool

/-- The pool and the blocks that were handed out and not freed. -/
structure State extends Pool where
  out : List Block

inductive Event
  | alloc (mem : Option Block)
  | calloc (num : Int) (mem : List (Option Block))
  | free (buf : Block)

/-- What `aligned_alloc` may return: blocks that are different, and that nobody has. -/
def State.Fresh (s : State) (mem : List (Option Block)) : Prop :=
  mem.reduceOption.Nodup ∧ ∀ b ∈ mem.reduceOption, b ∉ s.out ++ s.freeBlocks

instance (s : State) (mem : List (Option Block)) : Decidable (s.Fresh mem) :=
  inferInstanceAs (Decidable (_ ∧ _))

/-- A call.  Only who has a block frees it. -/
def step (s : State) : Event → Option State
  | .alloc mem =>
    if s.Fresh [mem] then
      let r := s.toPool.alloc mem
      some ⟨r.1, r.2.toList ++ s.out⟩
    else none
  | .calloc num mem =>
    if s.Fresh mem then
      let r := s.toPool.calloc num mem
      some ⟨r.1, r.2 ++ s.out⟩
    else none
  | .free buf => if buf ∈ s.out then some ⟨s.toPool.free buf, s.out.erase buf⟩ else none

/-- A new pool, or one after `init`; `memory` says whether there was memory for its lock. -/
def State.start (capacity : Nat) (memory : Bool) : State := ⟨⟨memory, capacity, 0, []⟩, []⟩

/-! ## 2. The two loops of `calloc` -/

theorem takeCached_spec (free : List Block) : ∀ num : Int, ∃ bulk rest n,
    Pool.takeCached free num = (bulk, rest, n) ∧ bulk ++ rest = free ∧
      (rest = [] ∧ n = num - bulk.length ∧ (0 ≤ num → 0 ≤ n) ∨
        rest ≠ [] ∧ num = bulk.length ∧ n = -1) := by
  induction free with
  | nil => exact fun num => ⟨[], [], num, rfl, rfl, .inl ⟨rfl, (Int.sub_zero num).symm, id⟩⟩
  | cons block free ih =>
    intro num
    by_cases hzero : num = 0
    · refine ⟨[], block :: free, num - 1, by simp [Pool.takeCached, hzero], rfl, .inr ?_⟩
      exact ⟨cons_ne_nil _ _, hzero, by rw [hzero]; rfl⟩
    · obtain ⟨bulk, rest, n, htake, happend, hnum⟩ := ih (num - 1)
      refine ⟨block :: bulk, rest, n, by simp [Pool.takeCached, hzero, htake],
        by simp [happend], ?_⟩
      rw [length_cons]
      rcases hnum with ⟨hrest, hn, hpos⟩ | ⟨hrest, hn, hminus⟩
      · exact .inl ⟨hrest, by omega, by omega⟩
      · exact .inr ⟨hrest, by omega, hminus⟩

theorem takeFresh_spec (mem : List (Option Block)) : ∀ num : Int, ∃ bulk n,
    Pool.takeFresh mem num = (bulk, n) ∧ bulk.Sublist mem.reduceOption ∧
      num = bulk.length + n ∧ (bulk = [] ∨ 0 ≤ n) := by
  induction mem with
  | nil => exact fun num => ⟨[], num, rfl, .slnil, by simp, .inl rfl⟩
  | cons o mem ih =>
    intro num
    cases o with
    | none => exact ⟨[], num, rfl, nil_sublist _, by simp, .inl rfl⟩
    | some block =>
      by_cases hpos : 0 < num
      · obtain ⟨bulk, n, htake, hsub, hnum, hn⟩ := ih (num - 1)
        refine ⟨block :: bulk, n, by simp [Pool.takeFresh, hpos, htake], hsub.cons_cons _, ?_, ?_⟩
        · rw [length_cons]
          omega
        · refine .inr (hn.elim (fun hnil => ?_) id)
          rw [hnil, length_nil] at hnum
          omega
      · exact ⟨[], num, by simp [Pool.takeFresh, hpos], nil_sublist _, by simp, .inl rfl⟩

/-! ## 3. The invariant -/

structure Inv (s : State) : Prop where
  /-- No block is with two holders, nor handed out and cached. -/
  nodup : (s.out ++ s.freeBlocks).Nodup
  size : s.size = s.out.length
  small : s.freeBlocks ≠ [] → s.out.length + s.freeBlocks.length < s.capacity
  unused : s.isInit = false → s.out = [] ∧ s.freeBlocks = []

variable {s s' : State}

theorem inv_start (capacity : Nat) (memory : Bool) : Inv (.start capacity memory) :=
  ⟨nodup_nil, rfl, absurd rfl, fun _ => ⟨rfl, rfl⟩⟩

/-- Blocks of the cache, and new ones when it is empty, are handed out. -/
theorem Inv.give (h : Inv s) {given fresh rest : List Block} {mem : List (Option Block)}
    (hfree : given ++ rest = s.freeBlocks) (hmem : s.Fresh mem)
    (hsub : fresh.Sublist mem.reduceOption) (hempty : fresh ≠ [] → rest = [])
    (hinit : s.isInit = true) :
    Inv ⟨{ s.toPool with freeBlocks := rest, size := s.size + (given ++ fresh).length },
      (given ++ fresh) ++ s.out⟩ := by
  have hperm : ((given ++ fresh ++ s.out) ++ rest).Perm (fresh ++ (s.out ++ s.freeBlocks)) := by
    rw [← hfree, perm_iff_count]
    intro b
    simp only [count_append]
    omega
  refine ⟨?_, ?_, fun hne => ?_, fun hfalse => absurd (hinit.symm.trans hfalse) (by simp)⟩
  · rw [hperm.nodup_iff, nodup_append]
    exact ⟨hsub.nodup hmem.1, h.nodup, fun b hb c hc heq => hmem.2 b (hsub.subset hb) (heq ▸ hc)⟩
  · simp only [h.size, length_append]
    omega
  · have hnil : fresh = [] := not_not.mp fun hfresh => hne (hempty hfresh)
    have hsmall := h.small (by simp [← hfree, hne])
    rw [← hfree, length_append] at hsmall
    simp only [hnil, append_nil, length_append]
    omega

/-- Blocks of the cache are given back to the system. -/
theorem Inv.drop (h : Inv s) {given rest : List Block} (hfree : given ++ rest = s.freeBlocks) :
    Inv { s with freeBlocks := rest } := by
  have hsub : rest.Sublist s.freeBlocks := hfree ▸ sublist_append_right given rest
  refine ⟨(hsub.append_left _).nodup h.nodup, h.size, fun hne => ?_, fun hfalse => ?_⟩
  · have hsmall := h.small fun hnil => hne (sublist_nil.mp (hnil ▸ hsub))
    exact Nat.lt_of_le_of_lt (Nat.add_le_add_left hsub.length_le _) hsmall
  · obtain ⟨hout, hnil⟩ := h.unused hfalse
    exact ⟨hout, sublist_nil.mp (hnil ▸ hsub)⟩

/-- **What `calloc` comes to**, and how many blocks it hands out. -/
theorem Inv.calloc (h : Inv s) {mem : List (Option Block)} (hmem : s.Fresh mem) (num : Int) :
    Inv ⟨(s.toPool.calloc num mem).1, (s.toPool.calloc num mem).2 ++ s.out⟩ ∧
      ((((s.toPool.calloc num mem).2.length : Int) = num ∨ (s.toPool.calloc num mem).2 = []) ↔
        (0 ≤ num ∨ s.freeBlocks = [])) := by
  obtain ⟨given, rest, n, hcached, hfree, hn⟩ := takeCached_spec s.freeBlocks num
  obtain ⟨fresh, n', hfresh, hsub, hn', hend⟩ := takeFresh_spec mem n
  have hnil : s.freeBlocks = [] ↔ given.length = 0 ∧ rest.length = 0 := by
    rw [← hfree, append_eq_nil_iff, length_eq_zero_iff, length_eq_zero_iff]
  rw [ne_eq, ← length_eq_zero_iff] at hn
  rw [← length_eq_zero_iff] at hend
  rw [Pool.calloc]
  split
  case isFalse hinit =>
    exact ⟨h, iff_of_true (.inr rfl) (.inr (h.unused (Bool.eq_false_iff.mpr hinit)).2)⟩
  case isTrue hinit =>
    simp only [hcached, hfresh]
    split
    case isTrue hlack =>
      exact ⟨h.drop hfree, iff_of_true (.inr rfl) (.inl (by omega))⟩
    case isFalse hdone =>
      refine ⟨h.give hfree hmem hsub (fun hne => ?_) hinit, ?_⟩
      · rw [ne_eq, ← length_eq_zero_iff] at hne
        exact length_eq_zero_iff.mp (by omega)
      · rw [hnil, ← length_eq_zero_iff, length_append]
        omega

theorem Inv.alloc (h : Inv s) {mem : Option Block} (hmem : s.Fresh [mem]) :
    Inv ⟨(s.toPool.alloc mem).1, (s.toPool.alloc mem).2.toList ++ s.out⟩ := by
  unfold Pool.alloc
  by_cases hinit : s.isInit = true
  · rw [if_pos hinit]
    cases hfree : s.freeBlocks with
    | cons block rest =>
      have hparts : [block] ++ rest = s.freeBlocks := hfree.symm
      exact h.give hparts hmem (nil_sublist _) (absurd rfl) hinit
    | nil =>
      cases mem with
      | none => exact h
      | some block =>
        have hparts : [] ++ [] = s.freeBlocks := hfree.symm
        exact h.give hparts hmem (.refl _) (fun _ => rfl) hinit
  · rw [if_neg hinit]
    exact h

/-- A block that comes back is cached only when fewer than the capacity are handed out. -/
theorem Inv.free (h : Inv s) {buf : Block} (hbuf : buf ∈ s.out) :
    Inv ⟨s.toPool.free buf, s.out.erase buf⟩ := by
  have hlen := length_erase_of_mem hbuf
  have hpos := length_pos_of_mem hbuf
  have hsize := h.size
  have hsmall := h.small
  rw [Pool.free]
  split
  case isFalse hinit =>
    rw [(h.unused (Bool.eq_false_iff.mpr hinit)).1] at hbuf
    cases hbuf
  case isTrue hinit =>
    have hunused : s.isInit = false → False := fun hfalse => by simp [hinit] at hfalse
    split
    case isTrue hroom =>
      have hperm : (s.out.erase buf ++ (s.freeBlocks ++ [buf])).Perm (s.out ++ s.freeBlocks) := by
        rw [← append_assoc]
        exact (perm_append_singleton buf _).trans ((perm_cons_erase hbuf).symm.append_right _)
      refine ⟨hperm.nodup_iff.mpr h.nodup, by dsimp only; omega, fun _ => ?_, fun hf =>
        (hunused hf).elim⟩
      dsimp only
      rw [length_append, length_singleton]
      by_cases hnil : s.freeBlocks = []
      · rw [hnil, length_nil]
        omega
      · have := hsmall hnil
        omega
    case isFalse hroom =>
      refine ⟨(erase_sublist.append_right _).nodup h.nodup, by dsimp only; omega, fun hne => ?_,
        fun hf => (hunused hf).elim⟩
      exact Nat.lt_of_le_of_lt (Nat.add_le_add_right erase_sublist.length_le _) (hsmall hne)

theorem inv_step (e : Event) (h : Inv s) (hs : step s e = some s') : Inv s' := by
  cases e with
  | alloc mem =>
    obtain ⟨hmem, hs⟩ := Option.ite_none_right_eq_some.mp hs
    cases hs
    exact h.alloc hmem
  | calloc num mem =>
    obtain ⟨hmem, hs⟩ := Option.ite_none_right_eq_some.mp hs
    cases hs
    exact (h.calloc hmem num).1
  | free buf =>
    obtain ⟨hbuf, hs⟩ := Option.ite_none_right_eq_some.mp hs
    cases hs
    exact h.free hbuf

/-! ## 4. What follows for every sequence of calls -/

/-- **The pool keeps its books.**  After every sequence of calls no block is with two holders, nor
handed out and cached; the counter is the number of blocks that are handed out; at most the capacity
is cached.  What `calloc(num)` returns is nobody's so far, and it is `num` blocks or none if and
only if `num` is not negative or nothing is cached. -/
theorem pool_exact (capacity : Nat) (memory : Bool) (s : State)
    (hreach : Reach step (.start capacity memory) s) :
    (s.out ++ s.freeBlocks).Nodup ∧ s.size = s.out.length ∧ s.freeBlocks.length ≤ s.capacity ∧
      ∀ num mem, s.Fresh mem → ((s.toPool.calloc num mem).2 ++ s.out).Nodup ∧
        ((((s.toPool.calloc num mem).2.length : Int) = num ∨ (s.toPool.calloc num mem).2 = []) ↔
          (0 ≤ num ∨ s.freeBlocks = [])) := by
  have h : Inv s := hreach.invariant (inv_start _ _) fun _ e _ h _ hs => inv_step e h hs
  refine ⟨h.nodup, h.size, ?_, fun num mem hmem => ?_⟩
  · by_cases hnil : s.freeBlocks = []
    · rw [hnil]
      exact Nat.zero_le _
    · have := h.small hnil
      omega
  · obtain ⟨h', hnum⟩ := h.calloc hmem num
    exact ⟨(nodup_append.mp h'.nodup).1, hnum⟩

/-- Three blocks are taken and two of them given back, to a pool for three. -/
def threeTaken : List Event :=
  [.calloc 3 [some 512, some 1024, some 1536], .free 1536, .free 512]

theorem pool_exact_threeTaken :
    ∃ s, exec step (.start 3 true) threeTaken = some s ∧ s.freeBlocks = [512] ∧
      s.size = s.out.length := by
  obtain ⟨s, hs, hfree⟩ : ∃ s, exec step (.start 3 true) threeTaken = some s ∧
    s.freeBlocks = [512] := ⟨_, rfl, rfl⟩
  exact ⟨s, hs, hfree, (pool_exact 3 true s (Run.of_exec _ hs)).2.1⟩

/-- `calloc(-1)` returns what is cached. -/
theorem calloc_negative :
    ∃ s, exec step (.start 3 true) threeTaken = some s ∧ (s.toPool.calloc (-1) []).2 = [512] :=
  ⟨_, rfl, rfl⟩

end FalconFS.MemPool
