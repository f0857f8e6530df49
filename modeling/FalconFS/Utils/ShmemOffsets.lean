/-
# The offsets of the shared-memory allocator, in the code's own types

`FALCON_SHMEM_ALLOCATOR_PAGE_SIZE * pageNo` is the product of an `int` and a `uint32_t`, so it is
a 32-bit number, although it is stored in 64 bits afterwards.  So is the product that
`falcon_meta_call_by_serialized_shmem_internal` compares an offset with.  A pool may have up to 64
GiB.

Up to 4096 MiB nothing overflows, and the invariant of the exact offsets holds for the code's
(`offsets_ok`).  From 4097 MiB on there are at least 4096 pages.  A block on page 4095 is within
reach (`fill_pages`: whole pages are handed out one after the other), and the bound check, whose
right side is then a multiple of the page size below that page, turns its offset away.  So 4096 is
exactly where the offsets stop being sound (`offsets_sound_iff`).
-/
import FalconFS.Utils.ShmemAllocator

namespace FalconFS.Shmem

open Function Machine Ownership

/-! ## 1. The pool -/

/-- `falcon_connection_pool.shmem_size` is in mebibytes. -/
def shmemSize (sizeInMB : Nat) : Nat := sizeInMB * 1024 * 1024

def sizeofPaddedAtomic64 : Nat := 128

/-- The page count that `FalconShmemAllocatorInit` computes. -/
def pageCountOf (size : Nat) : Nat :=
  (size - sizeofPaddedAtomic64 * (1 + freeListCount)) / (sizeofPaddedAtomic64 + pageSize) % 2 ^ 32

def poolPages (sizeInMB : Nat) : Nat := pageCountOf (shmemSize sizeInMB)

/-- The arithmetic of `uint32_t`. -/
def wrap32 (x : Nat) : Nat := x % 2 ^ 32

/-- The check of `falcon_meta_call_by_serialized_shmem_internal`. -/
def acceptsShift (pageCount paramShmemShift : Nat) : Bool :=
  !decide (wrap32 (pageCount * pageSize) < paramShmemShift)

/-- The bytes of a live block, its header included. -/
def Live.bytes (l : Live) : Set Nat :=
  {x | l.offset ≤ x + sizeofMemoryHdr ∧ x + sizeofMemoryHdr < l.offset + requiredSize l.size}

/-- What a state should satisfy: the live blocks are apart and inside the space, their offsets pass
the checks, and a call that frees an offset goes on to release the block it was returned for. -/
structure OffsetsOk (pageCount : Nat) (s : State) : Prop where
  apart : ∀ i j l l', i ≠ j → s.live i = some l → s.live j = some l' →
    ∀ x ∈ l.bytes, x ∉ l'.bytes
  inside : ∀ i l, s.live i = some l → ∀ x ∈ l.bytes, x < pageCount * pageSize
  accepted : ∀ i l, s.live i = some l → acceptsShift pageCount l.offset = true
  released : ∀ t shift b, s.pcs t = .freeReadHdr shift b →
    startFree s.shared.hdr shift b = .freeClear b.level b.pageNo b.first b

/-- Every run of a pool of this size. -/
def OffsetsSound (sizeInMB : Nat) : Prop :=
  ∀ s, Reach (step wrap32 (poolPages sizeInMB)) init s → OffsetsOk (poolPages sizeInMB) s

/-- The pages, their bitmaps and the eight words before them fit into the pool, and one page more
does not. -/
theorem poolPages_spec {sizeInMB : Nat} (hmin : 1 ≤ sizeInMB) (hmax : sizeInMB ≤ 65536) :
    1048704 * poolPages sizeInMB + 1024 ≤ 1048576 * sizeInMB ∧
      1048576 * sizeInMB < 1048704 * (poolPages sizeInMB + 1) + 1024 := by
  have hsize : shmemSize sizeInMB = 1048576 * sizeInMB := by
    unfold shmemSize
    omega
  have hpages : poolPages sizeInMB = (1048576 * sizeInMB - 1024) / 1048704 % 2 ^ 32 := by
    rw [poolPages, hsize]
    rfl
  have hle := Nat.mul_div_le (1048576 * sizeInMB - 1024) 1048704
  have hlt := Nat.lt_mul_div_succ (1048576 * sizeInMB - 1024) (show 0 < 1048704 by decide)
  generalize (1048576 * sizeInMB - 1024) / 1048704 = q at hpages hle hlt
  rw [hpages, Nat.mod_eq_of_lt (by omega)]
  omega

theorem poolPages_le {sizeInMB : Nat} (hmin : 1 ≤ sizeInMB) (h : sizeInMB ≤ 4096) :
    poolPages sizeInMB ≤ 4095 := by
  have := poolPages_spec hmin (by omega)
  omega

theorem le_poolPages {sizeInMB : Nat} (h : 4096 < sizeInMB) (hmax : sizeInMB ≤ 65536) :
    4096 ≤ poolPages sizeInMB := by
  have := poolPages_spec (by omega) hmax
  omega

/-! ## 2. Small pools -/

theorem exactFor_wrap32 {n : Nat} (h : n ≤ 4096) : ExactFor wrap32 n := by
  intro b hb
  have hpage := hb.page
  have hin := hb.run.inside
  have hpos := runLength_pos b.level
  have hmin : minBlockSize = 16384 := by decide
  have hsize : pageSize = 1048576 := by decide
  unfold allocatedShift wrap32 Block.base
  rw [hmin, hsize]
  omega

section Small

variable {n : Nat} {s : State}

theorem live_bytes (h : Inv wrap32 n s) (hw : ExactFor wrap32 n) {i : Nat} {l : Live}
    (hl : s.live i = some l) :
    owner s (.inr i) = some l.block ∧ l.block.Ok n ∧ l.offset = l.block.base + sizeofMemoryHdr ∧
      ∀ x, x ∈ l.bytes ↔ l.block.base ≤ x ∧ x < l.block.base + capacityOf l.block.level := by
  have ho : owner s (.inr i) = some l.block := by simp [owner, hl]
  have hok := h.ok _ _ ho
  have hlive := h.live i l hl
  have hoffset : l.offset = l.block.base + sizeofMemoryHdr := by rw [hlive.offset, hw _ hok]
  have hcap : requiredSize l.size = capacityOf l.block.level := by
    rw [hlive.level]
    exact (requiredSize_spec hlive.size).2.1
  refine ⟨ho, hok, hoffset, fun x => ?_⟩
  simp only [Live.bytes, Set.mem_ofPred_eq, hoffset, hcap]
  omega

/-- The last byte of a block is in its page. -/
theorem block_inside {b : Block} (hb : b.Ok n) : b.base + capacityOf b.level ≤ n * pageSize := by
  have hpage := hb.page
  have hin := hb.run.inside
  have hmin : minBlockSize = 16384 := by decide
  have hsize : pageSize = 1048576 := by decide
  rw [capacityOf_eq _ hb.run.le_six]
  unfold Block.base
  rw [hmin, hsize]
  omega

/-- **A pool of at most 4095 pages**: no product overflows. -/
theorem offsets_ok (hn : n ≤ 4095) (h : Reach (step wrap32 n) init s) : OffsetsOk n s := by
  have hw : ExactFor wrap32 n := exactFor_wrap32 (by omega)
  have hinv := inv_run hw h
  refine ⟨?_, ?_, ?_, ?_⟩
  · intro i j l l' hne hl hl' x hx hx'
    obtain ⟨ho, hok, -, hbytes⟩ := live_bytes hinv hw hl
    obtain ⟨ho', hok', -, hbytes'⟩ := live_bytes hinv hw hl'
    obtain ⟨hlo, hhi⟩ := (hbytes x).mp hx
    exact bytes_apart hok hok' (hinv.apart ho ho' fun e => hne (Sum.inr.inj e)) hlo hhi
      ((hbytes' x).mp hx')
  · intro i l hl x hx
    obtain ⟨-, hok, -, hbytes⟩ := live_bytes hinv hw hl
    exact lt_of_lt_of_le ((hbytes x).mp hx).2 (block_inside hok)
  · intro i l hl
    obtain ⟨-, hok, hoffset, -⟩ := live_bytes hinv hw hl
    have hin := block_inside hok
    have hcap := (capacityOf_bounds _ hok.run.le_six).1
    have hmin : minBlockSize = 16384 := by decide
    have hsize : pageSize = 1048576 := by decide
    have hhdr : sizeofMemoryHdr = 24 := rfl
    rw [hsize] at hin
    simp only [acceptsShift, Bool.not_eq_true', decide_eq_false_iff_not, wrap32, hsize]
    omega
  · intro t shift b hpc
    have hc := hinv.pcs t
    rw [hpc] at hc
    obtain ⟨rfl, hcap⟩ := hc
    have hok := hinv.ok (.inl t) b (by simp [owner, hpc, Pc.block])
    exact startFree_eq hok (hw b hok) hcap

end Small

/-! ## 3. Filling the pages -/

/-- The largest size, which takes a whole page. -/
def wholePage : Nat := pageSize - sizeofMemoryHdr

theorem supported_wholePage : Supported wholePage := le_refl _

theorem levelOf_wholePage : levelOf wholePage = 0 := by decide

/-- Thread 0 is at `pc`, the pages before `k` are taken and the others free, and only names below
`m` are in use. -/
structure Filling (n k m : Nat) (pc : Pc) (s : State) : Prop where
  reach : Reach (step wrap32 n) init s
  pc : s.pcs 0 = pc
  bits : ∀ p, s.shared.bitmap p = if p < k then ~~~0 else 0
  hint : s.shared.freeListHint 0 ≤ k
  names : ∀ i, m ≤ i → s.live i = none

section Fill

variable {n k m : Nat} {pc pc' : Pc} {s : State}

/-- An operation that leaves the bitmaps. -/
theorem Filling.step (h : Filling n k m pc s) {sh' : Shared}
    (hstep : threadStep wrap32 n s.shared pc = some (sh', pc'))
    (hbits : sh'.bitmap = s.shared.bitmap) (hhint : sh'.freeListHint 0 ≤ k) :
    ∃ s', Filling n k m pc' s' := by
  have hs : Shmem.step wrap32 n s (.step 0) =
      some { s with shared := sh', pcs := update s.pcs 0 pc' } := by
    simp [Shmem.step, h.pc, hstep]
  refine ⟨_, h.reach.tail trivial hs, by simp, ?_, hhint, h.names⟩
  intro p
  rw [hbits]
  exact h.bits p

theorem findBlock_taken : findBlock 0 (~~~0) = none := by decide

theorem findBlock_fresh : findBlock 0 0 = some (~~~0, 0) := by decide

/-- The scan passes over the pages that are taken.  The induction is on their number. -/
theorem Filling.scan (hk : k < n) (start : Nat) : ∀ r p, p + r = k → ∀ s,
    Filling n k m (.loadPage wholePage false start p) s →
      ∃ s', Filling n k m (.loadPage wholePage false start k) s' := by
  intro r
  induction r with
  | zero =>
    intro p hp s h
    obtain rfl : p = k := hp
    exact ⟨s, h⟩
  | succ r ih =>
    intro p hp s h
    have hbit : s.shared.bitmap p = ~~~0 := by rw [h.bits, if_pos (by omega)]
    have hnext : tryPage wrap32 n wholePage false start p (s.shared.bitmap p) false =
        .loadPage wholePage false start (p + 1) := by
      rw [tryPage, hbit, levelOf_wholePage, findBlock_taken]
      exact if_pos (by omega)
    obtain ⟨s', h'⟩ := h.step (congrArg (fun pc => some (s.shared, pc)) hnext) rfl h.hint
    exact ih (p + 1) (by omega) s' h'

/-- The swap on the first free page. -/
theorem Filling.take {start : Nat} (h : Filling n k m (.loadPage wholePage false start k) s) :
    ∃ s' pc', Filling n (k + 1) m pc' s' ∧ (pc' = .writeHdr wholePage ⟨k, 0, 0⟩ ∨
      pc' = .renewHint wholePage ⟨k, 0, 0⟩ start false) := by
  have hbit : s.shared.bitmap k = 0 := by rw [h.bits, if_neg (by omega)]
  have hload : tryPage wrap32 n wholePage false start k (s.shared.bitmap k) false =
      .swap wholePage false start k 0 false := by
    rw [tryPage, hbit, levelOf_wholePage, findBlock_fresh]
    rfl
  obtain ⟨s₁, h₁⟩ := h.step (congrArg (fun pc => some (s.shared, pc)) hload) rfl h.hint
  have hbit₁ : s₁.shared.bitmap k = 0 := by rw [h₁.bits, if_neg (by omega)]
  have hswap : Shmem.step wrap32 n s₁ (.step 0) = some { s₁ with
      shared := { s₁.shared with bitmap := update s₁.shared.bitmap k (~~~0) }
      pcs := update s₁.pcs 0 (afterSwap wholePage false start ⟨k, 0, 0⟩ false) } := by
    simp only [Shmem.step, h₁.pc, threadStep, hbit₁, if_true, levelOf_wholePage, findBlock_fresh,
      Option.map_some]
  refine ⟨_, afterSwap wholePage false start ⟨k, 0, 0⟩ false,
    ⟨h₁.reach.tail trivial hswap, by simp, ?_, h₁.hint.trans (Nat.le_succ k), h₁.names⟩, ?_⟩
  · intro p
    by_cases hp : p = k
    · subst hp
      simp
    · simp only [update_of_ne hp, h₁.bits]
      by_cases hlt : p < k
      · rw [if_pos hlt, if_pos (by omega)]
      · rw [if_neg hlt, if_neg (by omega)]
  · unfold afterSwap
    simp only [Bool.false_eq_true, if_false]
    split
    · exact Or.inr rfl
    · exact Or.inl rfl

/-- A call for a whole page, up to the first page it looks at. -/
theorem Filling.call (hk : k < n) (hk32 : k < 2 ^ 32) (h : Filling n k m .idle s) :
    ∃ start s', start ≤ k ∧ Filling n k m (.loadPage wholePage false start start) s' := by
  have hcall : Shmem.step wrap32 n s (.malloc 0 wholePage) =
      some { s with pcs := update s.pcs 0 (.loadHint wholePage) } :=
    if_pos ⟨h.pc, supported_wholePage⟩
  have h₀ : Filling n k m (.loadHint wholePage)
      { s with pcs := update s.pcs 0 (.loadHint wholePage) } :=
    ⟨h.reach.tail trivial hcall, by simp, h.bits, h.hint, h.names⟩
  have hhint : s.shared.freeListHint (levelOf wholePage) ≤ k := by
    rw [levelOf_wholePage]
    exact h.hint
  have hscan : scanFrom n wholePage false (s.shared.freeListHint (levelOf wholePage))
      (s.shared.freeListHint (levelOf wholePage) % 2 ^ 32) = .loadPage wholePage false
        (s.shared.freeListHint (levelOf wholePage))
        (s.shared.freeListHint (levelOf wholePage)) := by
    rw [Nat.mod_eq_of_lt (by omega)]
    exact if_pos (by omega)
  obtain ⟨s', h'⟩ := h₀.step (congrArg (fun pc => some (s.shared, pc)) hscan) rfl h.hint
  exact ⟨_, s', hhint, h'⟩

/-- **One more page**: a call for a whole page takes the first free one and returns its offset. -/
theorem Filling.page (hk : k < n) (hk32 : k < 2 ^ 32) (h : Filling n k k .idle s) :
    ∃ s', Filling n (k + 1) (k + 1) .idle s' ∧
      s'.live k = some ⟨wholePage, wrap32 (pageSize * k) + sizeofMemoryHdr, ⟨k, 0, 0⟩⟩ := by
  obtain ⟨start, s₁, hstart, h₁⟩ := h.call hk hk32
  obtain ⟨s₂, h₂⟩ := Filling.scan hk start (k - start) start (by omega) s₁ h₁
  obtain ⟨s₃, pc₃, h₃, hpc⟩ := h₂.take
  have hwrite : ∃ s₄, Filling n (k + 1) k (.writeHdr wholePage ⟨k, 0, 0⟩) s₄ := by
    rcases hpc with rfl | rfl
    · exact ⟨s₃, h₃⟩
    · refine h₃.step rfl ?_ ?_
      · split <;> rfl
      · split
        · simp
        · exact h₃.hint
  obtain ⟨s₄, h₄⟩ := hwrite
  obtain ⟨s₅, h₅⟩ := h₄.step rfl rfl h₄.hint
  have hfinish : Shmem.step wrap32 n s₅ (.finish 0 k) = some { s₅ with
      pcs := update s₅.pcs 0 .idle
      live := update s₅.live k (some ⟨wholePage,
        allocatedShift wrap32 ⟨k, 0, 0⟩ + sizeofMemoryHdr, ⟨k, 0, 0⟩⟩) } := by
    simp only [Shmem.step, h₅.pc, h₅.names k (le_refl k)]
  refine ⟨_, ⟨h₅.reach.tail trivial hfinish, by simp, h₅.bits, h₅.hint, ?_⟩, by
    simp [allocatedShift, Block.base]⟩
  intro i hi
  have hne : i ≠ k := by omega
  simp only [update_of_ne hne]
  exact h₅.names i (by omega)

theorem fill_pages (hk : k ≤ n) (hk32 : k ≤ 2 ^ 32) : ∃ s, Filling n k k .idle s := by
  induction k with
  | zero => exact ⟨init, .refl, rfl, fun p => by simp [init], le_refl 0, fun _ _ => rfl⟩
  | succ k ih =>
    obtain ⟨s, h⟩ := ih (by omega) (by omega)
    obtain ⟨s', h', -⟩ := h.page (by omega) (by omega)
    exact ⟨s', h'⟩

end Fill

/-! ## 4. Where the offsets are sound -/

/-- A block on page 4095 is turned away by the bound check. -/
theorem offsets_unsound {n : Nat} (hn : 4096 ≤ n) :
    ∃ s, Reach (step wrap32 n) init s ∧ ¬OffsetsOk n s := by
  obtain ⟨s, h⟩ := @fill_pages n 4095 (by omega) (by omega)
  obtain ⟨s', h', hlive⟩ := h.page (by omega) (by omega)
  refine ⟨s', h'.reach, fun hok => ?_⟩
  have haccept := hok.accepted 4095 _ hlive
  have hsize : pageSize = 1048576 := by decide
  simp only [acceptsShift, Bool.not_eq_true', decide_eq_false_iff_not, wrap32, sizeofMemoryHdr,
    hsize] at haccept
  omega

/-- **The offsets are sound exactly for pools of at most 4096 MiB**, of all the sizes that can be
configured. -/
theorem offsets_sound_iff (sizeInMB : Nat) (hmin : 32 ≤ sizeInMB) (hmax : sizeInMB ≤ 64 * 1024) :
    OffsetsSound sizeInMB ↔ sizeInMB ≤ 4096 := by
  constructor
  · intro hsound
    by_contra hbig
    have hpages : 4096 ≤ poolPages sizeInMB := le_poolPages (by omega) (by omega)
    obtain ⟨s, hreach, hbad⟩ := offsets_unsound hpages
    exact hbad (hsound s hreach)
  · intro hsmall s hreach
    exact offsets_ok (poolPages_le (by omega) hsmall) hreach

theorem offsets_sound_iff_default : 32 ≤ 256 ∧ 256 ≤ 64 * 1024 ∧ (OffsetsSound 256 ↔ 256 ≤ 4096) :=
  ⟨by decide, by decide, offsets_sound_iff 256 (by decide) (by decide)⟩

/-- In a pool of 4097 MiB the bound is 0, and the offset of the first block is above it. -/
theorem offsets_unsound_4097 : ¬OffsetsSound 4097 := by
  intro hsound
  obtain ⟨s, hs⟩ := Option.isSome_iff_exists.mp
    (show (exec (step wrap32 4096) init (allocates 0 100)).isSome = true by decide)
  have hlive : (exec (step wrap32 4096) init (allocates 0 100)).bind (fun s => s.live 0) =
    some ⟨100, 24, ⟨0, 0, 6⟩⟩ := by decide
  rw [hs] at hlive
  have hpages : poolPages 4097 = 4096 := by decide
  have hok := hsound s (hpages ▸ Run.of_exec _ hs)
  have haccept := hok.accepted 0 _ hlive
  rw [hpages] at haccept
  exact absurd haccept (by decide)

end FalconFS.Shmem
