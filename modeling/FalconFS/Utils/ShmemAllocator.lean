/-
# The shared-memory allocator

`FalconShmemAllocatorMalloc` and `FalconShmemAllocatorFree` run in any number of processes at
once, on bitmaps that they read, compare-and-swap and AND with a mask, one atomic operation at a
time.  The model is a machine whose step is one such operation of one thread; the local variables
of a call are its program counter `Pc`.

The offsets that the calls compute are a parameter: `wrap` is what the arithmetic does to a sum.
With the identity the numbers are exact, with `% 2 ^ 32` they are what the code's types make of
them.

* Section 4 says once what a step of a thread can do (`Effect`).
* Section 5 is the invariant: the set bits are exactly the cells that some call or some live block
  owns, and the header in front of a live block still says what it is.
* Section 6 is what follows for runs.

What the memory holds is kept per offset of a header.  The owner of a block may write over
everything behind its own header, and `use` lets it.
-/
import FalconFS.Lib.Machine
import FalconFS.Lib.Ownership
import FalconFS.Utils.ShmemBitmap

namespace FalconFS.Shmem

open Function Machine Ownership Option

/-! ## 1. Sizes -/

def pageSize : Nat := 1024 * 1024

def minBlockSize : Nat := pageSize / 64

def sizeofMemoryHdr : Nat := 24

structure MemoryHdr where
  signature : Int
  size : Nat
  capacity : Nat
  deriving DecidableEq, Repr

/-- `GetNextPowerOfTwo`; `64 - __builtin_clzll(num - 1)` is the number of bits of `num - 1`. -/
def getNextPowerOfTwo (num : Nat) : Nat :=
  if num = 0 ∨ 2 ^ 63 ≤ num then 0
  else if num = 1 then 1
  else 2 ^ (Nat.log2 (num - 1) + 1)

def requiredSize (size : Nat) : Nat :=
  if size + sizeofMemoryHdr < minBlockSize then minBlockSize
  else getNextPowerOfTwo (size + sizeofMemoryHdr)

/-- `__builtin_ctzll(PAGE_SIZE) - __builtin_ctzll(capacity)`. -/
def levelOfCapacity (capacity : Nat) : Nat :=
  ctz (BitVec.ofNat 64 pageSize) - ctz (BitVec.ofNat 64 capacity)

def levelOf (size : Nat) : Nat := levelOfCapacity (requiredSize size)

/-- The sizes that `FalconShmemAllocatorMalloc` does not turn away at once. -/
def Supported (size : Nat) : Prop := size ≤ pageSize - sizeofMemoryHdr

instance (size : Nat) : Decidable (Supported size) := inferInstanceAs (Decidable (_ ≤ _))

/-- How many bytes a block of a level has. -/
def capacityOf (level : Nat) : Nat := 2 ^ (20 - level)

theorem levelOfCapacity_capacityOf : ∀ level ≤ 6, levelOfCapacity (capacityOf level) = level := by
  decide

theorem capacityOf_shift : ∀ level ≤ 6, capacityOf level = pageSize >>> level := by
  decide

theorem capacityOf_bounds : ∀ level ≤ 6,
    minBlockSize ≤ capacityOf level ∧ capacityOf level ≤ pageSize := by
  decide

theorem capacityOf_eq : ∀ level ≤ 6, capacityOf level = minBlockSize * runLength level := by
  decide

theorem nextPowerOfTwo_spec {num : Nat} (hlo : 2 ^ 14 ≤ num) (hhi : num ≤ 2 ^ 20) :
    ∃ e, 14 ≤ e ∧ e ≤ 20 ∧ getNextPowerOfTwo num = 2 ^ e ∧ num ≤ 2 ^ e := by
  have hne : num - 1 ≠ 0 := by omega
  have hlog : Nat.log2 (num - 1) < 20 := (Nat.log2_lt hne).mpr (by omega)
  have hlog' : 13 ≤ Nat.log2 (num - 1) := (Nat.le_log2 hne).mpr (by omega)
  have hself := @Nat.lt_log2_self (num - 1)
  refine ⟨Nat.log2 (num - 1) + 1, by omega, by omega, ?_, by omega⟩
  rw [getNextPowerOfTwo, if_neg (by omega), if_neg (by omega)]

/-- **The size of a block is the size of its level**, and what was asked for fits behind the
header. -/
theorem requiredSize_spec {size : Nat} (h : Supported size) :
    levelOf size ≤ 6 ∧ requiredSize size = capacityOf (levelOf size) ∧
      size + sizeofMemoryHdr ≤ requiredSize size := by
  have hsize : ∃ level, level ≤ 6 ∧ requiredSize size = capacityOf level ∧
      size + sizeofMemoryHdr ≤ requiredSize size := by
    unfold requiredSize
    split
    · rename_i hlt
      exact ⟨6, le_refl 6, by decide, le_of_lt hlt⟩
    · rename_i hge
      have hmin : minBlockSize = 2 ^ 14 := by decide
      have hpage : pageSize = 2 ^ 20 := by decide
      unfold Supported at h
      obtain ⟨e, hlo, hhi, he, hle⟩ := @nextPowerOfTwo_spec (size + sizeofMemoryHdr)
        (by omega) (by unfold sizeofMemoryHdr at *; omega)
      refine ⟨20 - e, by omega, ?_, he ▸ hle⟩
      rw [he, capacityOf, show 20 - (20 - e) = e by omega]
  obtain ⟨level, hl, heq, hfits⟩ := hsize
  have hlevel : levelOf size = level := by
    rw [levelOf, heq, levelOfCapacity_capacityOf level hl]
  rw [hlevel]
  exact ⟨hl, heq, hfits⟩

/-! ## 2. Blocks -/

/-- A block of a page: its first bit, and its level. -/
structure Block where
  pageNo : Nat
  first : Nat
  level : Nat
  deriving DecidableEq, Repr

/-- The bits of a block, as pairs of a page and an index. -/
def Block.cells (b : Block) : Set (Nat × Nat) :=
  {c | c.1 = b.pageNo ∧ b.first ≤ c.2 ∧ c.2 < b.first + runLength b.level}

/-- Where the bytes of a block begin, in exact numbers. -/
def Block.base (b : Block) : Nat := pageSize * b.pageNo + minBlockSize * b.first

/-- `allocatedShift`. -/
def allocatedShift (wrap : Nat → Nat) (b : Block) : Nat := wrap b.base

structure Block.Ok (pageCount : Nat) (b : Block) : Prop where
  run : IsRun b.level b.first
  page : b.pageNo < pageCount

/-- Blocks without a common bit have no common byte. -/
theorem bytes_apart {b b' : Block} {n : Nat} (hb : b.Ok n) (hb' : b'.Ok n)
    (h : ∀ c ∈ b.cells, c ∉ b'.cells) {x : Nat} (hx : b.base ≤ x)
    (hx' : x < b.base + capacityOf b.level) :
    ¬(b'.base ≤ x ∧ x < b'.base + capacityOf b'.level) := by
  rintro ⟨hy, hy'⟩
  have hmin : minBlockSize = 16384 := by decide
  have hpage : pageSize = 1048576 := by decide
  have hin := hb.run.inside
  have hin' := hb'.run.inside
  rw [capacityOf_eq _ hb.run.le_six] at hx'
  rw [capacityOf_eq _ hb'.run.le_six] at hy'
  unfold Block.base at hx hx' hy hy'
  rw [hmin, hpage] at hx hx' hy hy'
  -- the byte lies in one page, and there in one of its 64 cells
  have hp : b.pageNo = x / 1048576 := by omega
  have hp' : b'.pageNo = x / 1048576 := by omega
  refine h (x / 1048576, x / 16384 - 64 * (x / 1048576)) ⟨hp.symm, ?_, ?_⟩ ⟨hp'.symm, ?_, ?_⟩ <;>
    dsimp only <;> omega

/-! ## 3. The machine -/

/-- The memory that all threads see. -/
structure Shared where
  bitmap : Nat → BitVec 64
  freeListHint : Nat → Nat
  hdr : Nat → MemoryHdr

/-- What a call has done and holds in its variables.  `secondScan` is the source's `scan == 1`.  In
the calls of `FalconShmemAllocatorFree` the block is not a variable of the code: it is the one the
caller got the offset for. -/
inductive Pc where
  | idle
  | loadHint (size : Nat)
  | loadPage (size : Nat) (secondScan : Bool) (start pageNo : Nat)
  | swap (size : Nat) (secondScan : Bool) (start pageNo : Nat) (bitmap : BitVec 64) (full : Bool)
  | renewHint (size : Nat) (b : Block) (start : Nat) (full : Bool)
  | readHint (size : Nat) (b : Block)
  | lowerHint (size : Nat) (b : Block) (freeHint : Nat)
  | writeHdr (size : Nat) (b : Block)
  | returns (size : Nat) (b : Block)
  | freeReadHdr (shift : Nat) (b : Block)
  | freeClear (level pageNo blockNo : Nat) (b : Block)
  | freeReadHint (level pageNo : Nat)
  | freeLowerHint (level pageNo freeHint : Nat)
  deriving DecidableEq, Repr

/-- The block that a call owns: between the swap that took it and the return, and between the call
to free it and the AND that clears its bits. -/
def Pc.block : Pc → Option Block
  | renewHint _ b _ _ | readHint _ b | lowerHint _ b _ | writeHdr _ b | returns _ b => some b
  | freeReadHdr _ b | freeClear _ _ _ b => some b
  | _ => none

/-- The heads of the two loops over the pages. -/
def scanFrom (pageCount size : Nat) (secondScan : Bool) (start pageNo : Nat) : Pc :=
  if pageNo < pageCount then .loadPage size secondScan start pageNo
  else if secondScan then .idle
  else if 0 < pageCount then .loadPage size true 0 0
  else .idle

/-- The `while` of a page, up to the compare-and-swap, with the bitmap it has just read.  `full` is
never reset, not even after a swap that failed. -/
def tryPage (wrap : Nat → Nat) (pageCount size : Nat) (secondScan : Bool) (start pageNo : Nat)
    (bitmap : BitVec 64) (full : Bool) : Pc :=
  match findBlock (levelOf size) bitmap with
  | none => scanFrom pageCount size secondScan start (pageNo + 1)
  | some (_, first) =>
    let last := allocatedShift wrap ⟨pageNo, first, levelOf size⟩ + requiredSize size == pageSize
    .swap size secondScan start pageNo bitmap (full || (levelOf size != 0 && last))

/-- What comes after a swap that has succeeded. -/
def afterSwap (size : Nat) (secondScan : Bool) (start : Nat) (b : Block) (full : Bool) : Pc :=
  if secondScan then
    if full then .writeHdr size b else .readHint size b
  else if full || b.pageNo != start then .renewHint size b start full
  else .writeHdr size b

/-- The compare-and-swap loop that lowers a hint: stop if it is low enough, go on with the value
found otherwise. -/
def lower (sh : Shared) (level pageNo freeHint : Nat) (stop : Pc) (again : Nat → Pc) :
    Shared × Pc :=
  if freeHint ≤ pageNo then (sh, stop)
  else if sh.freeListHint level = freeHint then
    ({ sh with freeListHint := update sh.freeListHint level pageNo }, stop)
  else (sh, again (sh.freeListHint level))

/-- The beginning of `FalconShmemAllocatorFree`, up to the AND. -/
def startFree (hdr : Nat → MemoryHdr) (shift : Nat) (b : Block) : Pc :=
  let shift := shift - sizeofMemoryHdr
  let capacity := (hdr shift).capacity
  if capacity < minBlockSize ∨ pageSize < capacity then .idle
  else
    let level := levelOfCapacity capacity
    if capacity ≠ pageSize >>> level then .idle
    else
      let pageNo := shift / pageSize
      .freeClear level pageNo ((shift / minBlockSize - pageNo * 64) % 2 ^ 32) b

/-- **One atomic operation of a call.** -/
def threadStep (wrap : Nat → Nat) (pageCount : Nat) (sh : Shared) : Pc → Option (Shared × Pc)
  | .idle => none
  | .loadHint size =>
    -- `uint32_t pageNo = start`
    let start := sh.freeListHint (levelOf size)
    some (sh, scanFrom pageCount size false start (start % 2 ^ 32))
  | .loadPage size secondScan start pageNo =>
    some (sh, tryPage wrap pageCount size secondScan start pageNo (sh.bitmap pageNo) false)
  | .swap size secondScan start pageNo bitmap full =>
    if sh.bitmap pageNo = bitmap then
      (findBlock (levelOf size) bitmap).map fun (desired, first) =>
        ({ sh with bitmap := update sh.bitmap pageNo desired },
          afterSwap size secondScan start ⟨pageNo, first, levelOf size⟩ full)
    else some (sh, tryPage wrap pageCount size secondScan start pageNo (sh.bitmap pageNo) full)
  | .renewHint size b start full =>
    let hint := if full then b.pageNo + 1 else b.pageNo
    some (if sh.freeListHint b.level = start then
        { sh with freeListHint := update sh.freeListHint b.level hint } else sh,
      .writeHdr size b)
  | .readHint size b => some (sh, .lowerHint size b (sh.freeListHint b.level))
  | .lowerHint size b freeHint =>
    some (lower sh b.level b.pageNo freeHint (.writeHdr size b) (.lowerHint size b))
  | .writeHdr size b =>
    let hdr : MemoryHdr := ⟨0, size, requiredSize size⟩
    some ({ sh with hdr := update sh.hdr (allocatedShift wrap b) hdr }, .returns size b)
  | .returns _ _ => none
  | .freeReadHdr shift b => some (sh, startFree sh.hdr shift b)
  | .freeClear level pageNo blockNo _ =>
    let cleared := sh.bitmap pageNo &&& ~~~(levelBlockOccupyBitMap level <<< blockNo)
    some ({ sh with bitmap := update sh.bitmap pageNo cleared }, .freeReadHint level pageNo)
  | .freeReadHint level pageNo => some (sh, .freeLowerHint level pageNo (sh.freeListHint level))
  | .freeLowerHint level pageNo freeHint =>
    some (lower sh level pageNo freeHint .idle (.freeLowerHint level pageNo))

/-- A block that a caller has: what it asked for, the offset it was given, and where that came
from. -/
structure Live where
  size : Nat
  offset : Nat
  block : Block
  deriving DecidableEq, Repr

structure State where
  shared : Shared
  pcs : Nat → Pc
  live : Nat → Option Live

inductive Event where
  | malloc (t size : Nat)
  | step (t : Nat)
  | weakFail (t : Nat)
  | finish (t id : Nat)
  | free (t id : Nat)
  | use (id : Nat) (write : Nat → MemoryHdr)
  | sign (id : Nat) (signature : Int)

/-- The compare-and-swaps that may fail without a reason. -/
def weakFailure : Pc → Bool
  | .lowerHint _ b freeHint => decide (b.pageNo < freeHint)
  | .freeLowerHint _ pageNo freeHint => decide (pageNo < freeHint)
  | _ => false

def step (wrap : Nat → Nat) (pageCount : Nat) (s : State) : Event → Option State
  | .malloc t size =>
    if s.pcs t = .idle ∧ Supported size then
      some { s with pcs := update s.pcs t (.loadHint size) } else none
  | .step t =>
    (threadStep wrap pageCount s.shared (s.pcs t)).map fun (sh, pc) =>
      { s with shared := sh, pcs := update s.pcs t pc }
  | .weakFail t => if weakFailure (s.pcs t) then some s else none
  | .finish t id =>
    match s.pcs t, s.live id with
    | .returns size b, none =>
      some { s with
        pcs := update s.pcs t .idle
        live := update s.live id
          (some ⟨size, allocatedShift wrap b + sizeofMemoryHdr, b⟩) }
    | _, _ => none
  | .free t id =>
    match s.pcs t, s.live id with
    | .idle, some l =>
      some { s with
        pcs := update s.pcs t (.freeReadHdr l.offset l.block)
        live := update s.live id none }
    | _, _ => none
  | .use id write =>
    match s.live id with
    | some l =>
      some { s with shared := { s.shared with
        hdr := fun x =>
          if l.offset ≤ x ∧ x < l.offset + l.size then write x else s.shared.hdr x } }
    | none => none
  | .sign id signature =>
    match s.live id with
    | some l =>
      let x := l.offset - sizeofMemoryHdr
      some { s with shared := { s.shared with
        hdr := update s.shared.hdr x { s.shared.hdr x with signature := signature } } }
    | none => none

/-- The memory of a new segment is zero. -/
def init : State where
  shared := ⟨fun _ => 0, fun _ => 0, fun _ => ⟨0, 0, 0⟩⟩
  pcs := fun _ => .idle
  live := fun _ => none

/-! ## 4. What a thread can do -/

/-- The variables of a call are consistent with the block it owns and with the header of that
block. -/
def Pc.Consistent (wrap : Nat → Nat) (pageCount : Nat) (hdr : Nat → MemoryHdr) : Pc → Prop
  | .loadHint size => Supported size
  | .loadPage size _ _ pageNo => Supported size ∧ pageNo < pageCount
  | .swap size _ _ pageNo _ _ => Supported size ∧ pageNo < pageCount
  | .renewHint size b _ _ | .readHint size b | .lowerHint size b _ | .writeHdr size b =>
    Supported size ∧ b.level = levelOf size
  | .returns size b =>
    Supported size ∧ b.level = levelOf size ∧
      (hdr (allocatedShift wrap b)).capacity = capacityOf b.level
  | .freeReadHdr shift b =>
    shift = allocatedShift wrap b + sizeofMemoryHdr ∧
      (hdr (allocatedShift wrap b)).capacity = capacityOf b.level
  | .freeClear level pageNo blockNo b => level = b.level ∧ pageNo = b.pageNo ∧ blockNo = b.first
  | .idle | .freeReadHint _ _ | .freeLowerHint _ _ _ => True

/-- **What one operation can do to the bitmaps and the headers.** -/
inductive Effect (wrap : Nat → Nat) (pageCount : Nat) (sh : Shared) (pc : Pc) (sh' : Shared)
    (pc' : Pc) : Prop
  | quiet (hbits : sh'.bitmap = sh.bitmap) (hhdr : sh'.hdr = sh.hdr) (hown : pc'.block = pc.block)
  | take (b : Block) (desired : BitVec 64)
      (hfound : Found b.level (sh.bitmap b.pageNo) desired b.first) (hpage : b.pageNo < pageCount)
      (hbits : sh'.bitmap = update sh.bitmap b.pageNo desired)
      (hhdr : sh'.hdr = sh.hdr) (hnone : pc.block = none) (hown : pc'.block = some b)
  | header (b : Block) (hdr : MemoryHdr) (hbits : sh'.bitmap = sh.bitmap)
      (hhdr : sh'.hdr = update sh.hdr (allocatedShift wrap b) hdr)
      (hown : pc.block = some b) (hown' : pc'.block = some b)
  | clear (b : Block)
      (hbits : sh'.bitmap = update sh.bitmap b.pageNo
        (sh.bitmap b.pageNo &&& ~~~(levelBlockOccupyBitMap b.level <<< b.first)))
      (hhdr : sh'.hdr = sh.hdr) (hown : pc.block = some b) (hnone : pc'.block = none)

section Thread

variable {wrap : Nat → Nat} {n : Nat} {sh sh' : Shared} {pc pc' : Pc}

theorem scanFrom_block (size : Nat) (second : Bool) (start pageNo : Nat) :
    (scanFrom n size second start pageNo).block = none := by
  unfold scanFrom
  (repeat' split) <;> rfl

variable {size pageNo : Nat} {b : Block} {hdr : Nat → MemoryHdr}

theorem scanFrom_consistent (hs : Supported size) (second : Bool) (start pageNo : Nat)
    (hdr : Nat → MemoryHdr) : (scanFrom n size second start pageNo).Consistent wrap n hdr := by
  unfold scanFrom
  (repeat' split) <;> first | exact ⟨hs, ‹_›⟩ | trivial

theorem tryPage_block (size : Nat) (second : Bool) (start pageNo : Nat) (bitmap : BitVec 64)
    (full : Bool) : (tryPage wrap n size second start pageNo bitmap full).block = none := by
  unfold tryPage
  split
  · exact scanFrom_block _ _ _ _
  · rfl

theorem tryPage_consistent (hs : Supported size) (hp : pageNo < n) (second : Bool) (start : Nat)
    (bitmap : BitVec 64) (full : Bool) (hdr : Nat → MemoryHdr) :
    (tryPage wrap n size second start pageNo bitmap full).Consistent wrap n hdr := by
  unfold tryPage
  split
  · exact scanFrom_consistent hs _ _ _ _
  · exact ⟨hs, hp⟩

theorem afterSwap_block (size : Nat) (second : Bool) (start : Nat) (b : Block) (full : Bool) :
    (afterSwap size second start b full).block = some b := by
  unfold afterSwap
  (repeat' split) <;> rfl

theorem afterSwap_consistent (hs : Supported size) (hb : b.level = levelOf size) (second : Bool)
    (start : Nat) (full : Bool) (hdr : Nat → MemoryHdr) :
    (afterSwap size second start b full).Consistent wrap n hdr := by
  unfold afterSwap
  (repeat' split) <;> exact ⟨hs, hb⟩

/-- The loop over a hint changes nothing but the hint, and ends in `stop` or goes on. -/
theorem lower_spec {level freeHint : Nat} {stop : Pc} {again : Nat → Pc}
    (h : lower sh level pageNo freeHint stop again = (sh', pc')) :
    sh'.bitmap = sh.bitmap ∧ sh'.hdr = sh.hdr ∧ (pc' = stop ∨ ∃ hint, pc' = again hint) := by
  unfold lower at h
  (repeat' split at h) <;> cases h
  · exact ⟨rfl, rfl, .inl rfl⟩
  · exact ⟨rfl, rfl, .inl rfl⟩
  · exact ⟨rfl, rfl, .inr ⟨_, rfl⟩⟩

/-- **The free of a block with an intact header goes on to clear that block**: none of the checks
turns it away, and the page and the bit it computes from the offset are the block's. -/
theorem startFree_eq (hb : b.Ok n) (hw : allocatedShift wrap b = b.base)
    (hcap : (hdr (allocatedShift wrap b)).capacity = capacityOf b.level) :
    startFree hdr (allocatedShift wrap b + sizeofMemoryHdr) b =
      .freeClear b.level b.pageNo b.first b := by
  have hl := hb.run.le_six
  have hbounds := capacityOf_bounds _ hl
  have hin := hb.run.inside
  have hpos := runLength_pos b.level
  have hmin : minBlockSize = 16384 := by decide
  have hpage : pageSize = 1048576 := by decide
  have hpageNo : b.base / pageSize = b.pageNo := by
    unfold Block.base
    rw [hmin, hpage]
    omega
  have hfirst : (b.base / minBlockSize - b.pageNo * 64) % 2 ^ 32 = b.first := by
    unfold Block.base
    rw [hmin, hpage]
    omega
  unfold startFree
  simp only [Nat.add_sub_cancel, hcap, levelOfCapacity_capacityOf _ hl]
  rw [if_neg (by omega), if_neg (not_not.mpr (capacityOf_shift _ hl)), hw, hpageNo, hfirst]

/-- **The step of a thread**: its effect, and that its variables stay consistent. -/
theorem threadStep_effect (h : threadStep wrap n sh pc = some (sh', pc'))
    (hc : pc.Consistent wrap n sh.hdr)
    (hok : ∀ b, pc.block = some b → b.Ok n ∧ allocatedShift wrap b = b.base) :
    Effect wrap n sh pc sh' pc' ∧ pc'.Consistent wrap n sh'.hdr := by
  cases pc with
  | idle => cases h
  | loadHint size =>
    cases h
    exact ⟨.quiet rfl rfl (scanFrom_block _ _ _ _), scanFrom_consistent hc _ _ _ _⟩
  | loadPage size second start pageNo =>
    cases h
    exact ⟨.quiet rfl rfl (tryPage_block _ _ _ _ _ _), tryPage_consistent hc.1 hc.2 _ _ _ _ _⟩
  | swap size second start pageNo bitmap full =>
    simp only [threadStep] at h
    split at h
    · rename_i heq
      obtain ⟨⟨desired, first⟩, hfind, hr⟩ := map_eq_some_iff.mp h
      cases hr
      have hfound := findBlock_found (requiredSize_spec hc.1).1 hfind
      rw [← heq] at hfound
      exact ⟨.take ⟨pageNo, first, levelOf size⟩ desired hfound hc.2 rfl rfl rfl
        (afterSwap_block _ _ _ _ _), afterSwap_consistent hc.1 rfl _ _ _ _⟩
    · cases h
      exact ⟨.quiet rfl rfl (tryPage_block _ _ _ _ _ _), tryPage_consistent hc.1 hc.2 _ _ _ _ _⟩
  | renewHint size b start full =>
    cases h
    refine ⟨.quiet ?_ ?_ rfl, hc⟩ <;> split <;> rfl
  | readHint size b =>
    cases h
    exact ⟨.quiet rfl rfl rfl, hc⟩
  | lowerHint size b freeHint =>
    obtain ⟨hbits, hhdr, rfl | ⟨hint, rfl⟩⟩ := lower_spec (some.inj h)
    all_goals exact ⟨.quiet hbits hhdr rfl, hc⟩
  | writeHdr size b =>
    cases h
    refine ⟨.header b _ rfl rfl rfl rfl, hc.1, hc.2, ?_⟩
    dsimp only
    rw [update_self, hc.2]
    exact (requiredSize_spec hc.1).2.1
  | returns size b => cases h
  | freeReadHdr shift b =>
    obtain ⟨rfl, hcap⟩ := hc
    obtain ⟨hb, hw⟩ := hok b rfl
    simp only [threadStep, startFree_eq hb hw hcap] at h
    cases h
    exact ⟨.quiet rfl rfl rfl, rfl, rfl, rfl⟩
  | freeClear level pageNo blockNo b =>
    obtain ⟨rfl, rfl, rfl⟩ := hc
    cases h
    exact ⟨.clear b rfl rfl rfl rfl, trivial⟩
  | freeReadHint level pageNo =>
    cases h
    exact ⟨.quiet rfl rfl rfl, trivial⟩
  | freeLowerHint level pageNo freeHint =>
    obtain ⟨hbits, hhdr, rfl | ⟨hint, rfl⟩⟩ := lower_spec (some.inj h)
    all_goals exact ⟨.quiet hbits hhdr rfl, trivial⟩

/-- Of the headers, a call relies on its own block's only. -/
theorem Pc.Consistent.congr {hdr' : Nat → MemoryHdr} (hc : pc.Consistent wrap n hdr)
    (h : ∀ b, pc.block = some b →
      (hdr' (allocatedShift wrap b)).capacity = (hdr (allocatedShift wrap b)).capacity) :
    pc.Consistent wrap n hdr' := by
  cases pc with
  | returns size b => exact ⟨hc.1, hc.2.1, (h b rfl).trans hc.2.2⟩
  | freeReadHdr shift b => exact ⟨hc.1, (h b rfl).trans hc.2⟩
  | _ => exact hc

end Thread

/-! ## 5. The invariant -/

/-- Those who can own a block: the call of a thread, or a caller under the name of a live block. -/
abbrev Owner := Nat ⊕ Nat

def owner (s : State) : Owner → Option Block
  | .inl t => (s.pcs t).block
  | .inr id => (s.live id).map Live.block

def cellsOf : Option Block → Set (Nat × Nat)
  | none => ∅
  | some b => b.cells

/-- The bits that are set. -/
def used (bitmap : Nat → BitVec 64) : Set (Nat × Nat) := {c | (bitmap c.1).getLsbD c.2 = true}

structure LiveOk (wrap : Nat → Nat) (hdr : Nat → MemoryHdr) (l : Live) : Prop where
  size : Supported l.size
  level : l.block.level = levelOf l.size
  offset : l.offset = allocatedShift wrap l.block + sizeofMemoryHdr
  capacity : (hdr (allocatedShift wrap l.block)).capacity = capacityOf l.block.level

structure Inv (wrap : Nat → Nat) (n : Nat) (s : State) : Prop where
  exact : Exact (fun o => cellsOf (owner s o)) (used s.shared.bitmap)
  ok : ∀ o b, owner s o = some b → b.Ok n
  pcs : ∀ t, (s.pcs t).Consistent wrap n s.shared.hdr
  live : ∀ id l, s.live id = some l → LiveOk wrap s.shared.hdr l

/-- The arithmetic is exact for every block of the pool. -/
def ExactFor (wrap : Nat → Nat) (n : Nat) : Prop :=
  ∀ b : Block, b.Ok n → allocatedShift wrap b = b.base

theorem inv_init (wrap : Nat → Nat) (n : Nat) : Inv wrap n init where
  exact := by
    have hcells : (fun o => cellsOf (owner init o)) = fun _ : Owner => (∅ : Set (Nat × Nat)) := by
      funext o
      cases o <;> rfl
    have hused : used init.shared.bitmap = ∅ := by
      ext c
      simp [used, init]
    rw [hcells, hused]
    exact Exact.empty
  ok o b h := by cases o <;> cases h
  pcs _ := trivial
  live _ _ h := by cases h

section Invariant

variable {wrap : Nat → Nat} {n : Nat} {s : State}

theorem owner_pcs (sh : Shared) (t : Nat) (pc : Pc) :
    owner { s with shared := sh, pcs := update s.pcs t pc } =
      update (owner s) (.inl t) pc.block := by
  funext o
  rcases o with t' | id
  · by_cases ht : t' = t <;> simp [owner, ht]
  · simp [owner]

theorem owner_both (t id : Nat) (pc : Pc) (l : Option Live) :
    owner { s with pcs := update s.pcs t pc, live := update s.live id l } =
      update (update (owner s) (.inl t) pc.block) (.inr id)
        (l.map Live.block) := by
  funext o
  rcases o with t' | id'
  · by_cases ht : t' = t <;> simp [owner, ht]
  · by_cases hid : id' = id <;> simp [owner, hid]

theorem cells_update (own : Owner → Option Block) (o : Owner) (b : Option Block) :
    (fun p => cellsOf (update own o b p)) =
      update (fun p => cellsOf (own p)) o (cellsOf b) := by
  funext p
  by_cases hp : p = o <;> simp [hp]

variable {o o' : Owner} {b b' : Block} {hdr' : Nat → MemoryHdr} {t id : Nat} {sh' : Shared}
  {pc' : Pc} {bitmap : Nat → BitVec 64} {l : Live}

/-- Different owners have no bit, hence no byte, in common. -/
theorem Inv.apart (h : Inv wrap n s) (ho : owner s o = some b) (ho' : owner s o' = some b')
    (hne : o ≠ o') : ∀ c ∈ b.cells, c ∉ b'.cells := by
  intro c hc hc'
  refine hne (h.exact.apart o o' c ?_ ?_)
  · simp only [ho]
    exact hc
  · simp only [ho']
    exact hc'

theorem base_lt (b : Block) : b.base < b.base + capacityOf b.level :=
  Nat.lt_add_of_pos_right (Nat.two_pow_pos _)

/-- A store to a byte of one owner's block is not to the header of another's. -/
theorem Inv.header_ne (h : Inv wrap n s) (hw : ExactFor wrap n) (ho : owner s o = some b)
    (ho' : owner s o' = some b') (hne : o ≠ o') {x : Nat} (hx : b.base ≤ x)
    (hx' : x < b.base + capacityOf b.level) : allocatedShift wrap b' ≠ x := by
  intro heq
  rw [hw b' (h.ok o' b' ho')] at heq
  exact bytes_apart (h.ok o b ho) (h.ok o' b' ho') (h.apart ho ho' hne) hx hx'
    ⟨heq.le, heq ▸ base_lt b'⟩

/-- What the other owners rely on survives any store into a block. -/
theorem Inv.stores (h : Inv wrap n s) (hw : ExactFor wrap n) (ho : owner s o = some b)
    (hdiff : ∀ x, hdr' x ≠ s.shared.hdr x → b.base ≤ x ∧ x < b.base + capacityOf b.level) :
    ∀ o' b', o ≠ o' → owner s o' = some b' →
      hdr' (allocatedShift wrap b') = s.shared.hdr (allocatedShift wrap b') := by
  intro o' b' hne ho'
  by_contra hx
  obtain ⟨hlo, hhi⟩ := hdiff _ hx
  exact h.header_ne hw ho ho' hne hlo hhi rfl

/-- Replace the shared memory and the program counter of one thread, and collect what is to be shown
of the others. -/
theorem Inv.thread (h : Inv wrap n s)
    (hexact : Exact (update (fun o => cellsOf (owner s o)) (.inl t) (cellsOf pc'.block))
      (used sh'.bitmap))
    (hok : ∀ b, pc'.block = some b → b.Ok n) (hpc : pc'.Consistent wrap n sh'.hdr)
    (hhdr : ∀ o b, .inl t ≠ o → owner s o = some b →
      sh'.hdr (allocatedShift wrap b) = s.shared.hdr (allocatedShift wrap b)) :
    Inv wrap n { s with shared := sh', pcs := update s.pcs t pc' } where
  exact := by
    rw [owner_pcs, cells_update]
    exact hexact
  ok o b ho := by
    rw [owner_pcs] at ho
    rcases eq_or_ne o (.inl t) with rfl | hot
    · rw [update_self] at ho
      exact hok b ho
    · rw [update_of_ne hot] at ho
      exact h.ok o b ho
  pcs t' := by
    rcases eq_or_ne t' t with rfl | ht
    · simpa using hpc
    · simp only [update_of_ne ht]
      refine (h.pcs t').congr fun b hb => ?_
      rw [hhdr (.inl t') b (fun e => ht (Sum.inl.inj e).symm) hb]
  live id l hl := by
    obtain ⟨hsize, hlevel, hoffset, hcap⟩ := h.live id l hl
    have ho : owner s (.inr id) = some l.block := by simp [owner, show s.live id = some l from hl]
    refine ⟨hsize, hlevel, hoffset, ?_⟩
    rw [hhdr (.inr id) l.block (fun e => nomatch e) ho]
    exact hcap

/-- The bits after a found block was swapped in. -/
theorem used_take {desired : BitVec 64} (hf : Found b.level (bitmap b.pageNo) desired b.first) :
    used (update bitmap b.pageNo desired) = used bitmap ∪ b.cells := by
  ext ⟨p, i⟩
  have hin := hf.run.inside
  by_cases hp : p = b.pageNo
  · subst hp
    by_cases hi : i < 64
    · have hd := hf.desired i hi
      simp only [used, Block.cells, Set.mem_ofPred_eq, Set.mem_union, update_self, hd,
        true_and]
    · have hd : desired.getLsbD i = false := BitVec.getLsbD_of_ge _ _ (by omega)
      have hb : (bitmap b.pageNo).getLsbD i = false := BitVec.getLsbD_of_ge _ _ (by omega)
      simp only [used, Block.cells, Set.mem_ofPred_eq, Set.mem_union, update_self, hd, hb,
        true_and, Bool.false_eq_true, false_or, false_iff]
      omega
  · simp [used, Block.cells, hp]

/-- The bits after a block was cleared. -/
theorem used_clear (hl : b.level ≤ 6) : used (update bitmap b.pageNo
      (bitmap b.pageNo &&& ~~~(levelBlockOccupyBitMap b.level <<< b.first))) =
      used bitmap \ b.cells := by
  ext ⟨p, i⟩
  by_cases hp : p = b.pageNo
  · subst hp
    by_cases hi : i < 64
    · have hc := @clear_bit _ b.first _ hl hi (bitmap b.pageNo)
      simp only [used, Block.cells, Set.mem_ofPred_eq, Set.mem_sdiff, update_self, hc,
        true_and]
    · have hb : (bitmap b.pageNo).getLsbD i = false := BitVec.getLsbD_of_ge _ _ (by omega)
      simp [used, Block.cells, BitVec.getLsbD_and, hb]
  · simp [used, Block.cells, hp]

section

variable (h : Inv wrap n s)

include h

/-- **An operation of a call keeps the invariant.** -/
theorem Inv.threadStep (hw : ExactFor wrap n)
    (hstep : Shmem.threadStep wrap n s.shared (s.pcs t) = some (sh', pc')) :
    Inv wrap n { s with shared := sh', pcs := update s.pcs t pc' } := by
  have hown : ∀ b, (s.pcs t).block = some b → owner s (.inl t) = some b := fun b hb => hb
  obtain ⟨heffect, hc⟩ := threadStep_effect hstep (h.pcs t) fun b hb =>
    ⟨h.ok (.inl t) b hb, hw b (h.ok (.inl t) b hb)⟩
  cases heffect with
  | quiet hbits hhdr hblock =>
    refine h.thread ?_ (fun b hb => h.ok (.inl t) b (hblock.symm.trans hb)) hc
      fun o b _ _ => by rw [hhdr]
    have hsame : cellsOf pc'.block = cellsOf (owner s (.inl t)) := congrArg cellsOf hblock
    rw [hbits, hsame, update_eq_self (Sum.inl t) fun o => cellsOf (owner s o)]
    exact h.exact
  | take b desired hfound hpage hbits hhdr hnone hblock =>
    refine h.thread ?_ ?_ hc fun o b _ _ => by rw [hhdr]
    · rw [hbits, used_take hfound, hblock]
      refine h.exact.acquire (congrArg cellsOf hnone) ?_
      rintro ⟨p, i⟩ ⟨hp, hlo, hhi⟩ hset
      have hfree := hfound.free i hlo hhi
      obtain rfl : p = b.pageNo := hp
      simp only [used, Set.mem_ofPred_eq, hfree] at hset
      cases hset
    · intro b' hb'
      obtain rfl : b = b' := some.inj (hblock.symm.trans hb')
      exact ⟨hfound.run, hpage⟩
  | header b hdr hbits hhdr hblock hblock' =>
    refine h.thread ?_ (fun b' hb' => h.ok (.inl t) b' ?_) hc ?_
    · have hsame : cellsOf pc'.block = cellsOf (owner s (.inl t)) :=
        congrArg cellsOf (hblock'.trans hblock.symm)
      rw [hbits, hsame, update_eq_self (Sum.inl t) fun o => cellsOf (owner s o)]
      exact h.exact
    · exact hblock.trans (hblock'.symm.trans hb')
    · intro o b' hne ho
      refine h.stores hw (hown b hblock) ?_ o b' hne ho
      intro x hx
      have hxb : x = allocatedShift wrap b := by
        by_contra hne'
        rw [hhdr, update_of_ne hne'] at hx
        exact hx rfl
      rw [hxb, hw b (h.ok (.inl t) b hblock)]
      exact ⟨le_refl _, base_lt b⟩
  | clear b hbits hhdr hblock hnone =>
    refine h.thread ?_ (fun b' hb' => ?_) hc fun o b _ _ => by rw [hhdr]
    · have hcells : b.cells = cellsOf (owner s (.inl t)) := (congrArg cellsOf hblock).symm
      rw [hbits, used_clear (h.ok (.inl t) b hblock).run.le_six, hnone, hcells]
      exact h.exact.release (.inl t)
    · rw [hnone] at hb'
      cases hb'

/-- A store by the owner of a live block, into its own bytes. -/
theorem Inv.store (hw : ExactFor wrap n) (hl : s.live id = some l)
    (hdiff : ∀ x, hdr' x ≠ s.shared.hdr x →
      l.block.base ≤ x ∧ x < l.block.base + capacityOf l.block.level)
    (hown : (hdr' (allocatedShift wrap l.block)).capacity = capacityOf l.block.level) :
    Inv wrap n { s with shared := { s.shared with hdr := hdr' } } := by
  have ho : owner s (.inr id) = some l.block := by simp [owner, hl]
  have hsame := h.stores hw ho hdiff
  refine ⟨h.exact, h.ok, ?_, ?_⟩
  · intro t
    refine (h.pcs t).congr fun b hb => ?_
    exact congrArg MemoryHdr.capacity (hsame (.inl t) b (fun e => nomatch e) hb)
  · intro id' l' hl'
    obtain ⟨hsize, hlevel, hoffset, hcap⟩ := h.live id' l' hl'
    refine ⟨hsize, hlevel, hoffset, ?_⟩
    rcases eq_or_ne id id' with rfl | hid
    · cases hl.symm.trans hl'
      exact hown
    · have ho' : owner s (.inr id') = some l'.block := by
        simp [owner, show s.live id' = some l' from hl']
      dsimp only
      rw [hsame (.inr id') l'.block (fun e => hid (Sum.inr.inj e)) ho']
      exact hcap

/-- Replace the program counter of one thread and one entry of the live blocks. -/
theorem Inv.both {pc : Pc} {l : Option Live}
    (hexact : Exact (update (update (fun o => cellsOf (owner s o)) (.inl t) (cellsOf pc.block))
      (.inr id) (cellsOf (l.map Live.block))) (used s.shared.bitmap))
    (hok : ∀ b, pc.block = some b ∨ l.map Live.block = some b → b.Ok n)
    (hpc : pc.Consistent wrap n s.shared.hdr)
    (hl : ∀ l', l = some l' → LiveOk wrap s.shared.hdr l') :
    Inv wrap n { s with pcs := update s.pcs t pc, live := update s.live id l } where
  exact := by
    rw [owner_both, cells_update, cells_update]
    exact hexact
  ok o b ho := by
    rw [owner_both] at ho
    rcases eq_or_ne o (.inr id) with rfl | hid
    · rw [update_self] at ho
      exact hok b (.inr ho)
    · rw [update_of_ne hid] at ho
      rcases eq_or_ne o (.inl t) with rfl | ht
      · rw [update_self] at ho
        exact hok b (.inl ho)
      · rw [update_of_ne ht] at ho
        exact h.ok o b ho
  pcs t' := by
    rcases eq_or_ne t' t with rfl | ht
    · simpa using hpc
    · simpa [ht] using h.pcs t'
  live id' l' hl' := by
    rcases eq_or_ne id' id with rfl | hid
    · simp only [update_self] at hl'
      exact hl l' hl'
    · simp only [update_of_ne hid] at hl'
      exact h.live id' l' hl'

/-- A block goes from the call that allocated it to the caller. -/
theorem Inv.finish {size : Nat} (hpc : s.pcs t = .returns size b) (hid : s.live id = none) :
    Inv wrap n { s with
      pcs := update s.pcs t .idle
      live := update s.live id
        (some ⟨size, allocatedShift wrap b + sizeofMemoryHdr, b⟩) } := by
  have ht : owner s (.inl t) = some b := by simp [owner, hpc, Pc.block]
  have hnone : owner s (.inr id) = none := by simp [owner, hid]
  have hc := h.pcs t
  rw [hpc] at hc
  refine h.both ?_ ?_ trivial ?_
  · have hmove := @Exact.handOver _ _ _ _ _ h.exact (.inl t) (.inr id) (fun e => nomatch e)
      (congrArg cellsOf hnone)
    simp only [ht] at hmove
    exact hmove
  · rintro b' (hb' | hb')
    · cases hb'
    · exact h.ok (.inl t) b' (ht.trans hb')
  · rintro l' hl'
    cases hl'
    exact ⟨hc.1, hc.2.1, rfl, hc.2.2⟩

/-- A block goes from its caller to the call that frees it. -/
theorem Inv.free (hpc : s.pcs t = .idle) (hl : s.live id = some l) : Inv wrap n { s with
      pcs := update s.pcs t (.freeReadHdr l.offset l.block)
      live := update s.live id none } := by
  have hid : owner s (.inr id) = some l.block := by simp [owner, hl]
  have hnone : owner s (.inl t) = none := by simp [owner, hpc, Pc.block]
  have hlive := h.live id l hl
  refine h.both ?_ ?_ ⟨hlive.offset, hlive.capacity⟩ (fun l' hl' => nomatch hl')
  · have hmove := @Exact.handOver _ _ _ _ _ h.exact (.inr id) (.inl t) (fun e => nomatch e)
      (congrArg cellsOf hnone)
    simp only [hid] at hmove
    rw [update_comm (by simp)]
    exact hmove
  · rintro b' (hb' | hb')
    · exact h.ok (.inr id) b' (hid.trans hb')
    · cases hb'

/-- **Every event keeps the invariant.** -/
theorem Inv.step (hw : ExactFor wrap n) {e : Event} {s' : State}
    (hstep : Shmem.step wrap n s e = some s') : Inv wrap n s' := by
  have hown : ∀ {id l}, s.live id = some l → allocatedShift wrap l.block = l.block.base :=
    fun {id l} hl => hw l.block (h.ok (.inr id) _ (by simp [owner, hl]))
  cases e with
  | malloc t size =>
    obtain ⟨hc, rfl⟩ := guard_eq_some hstep
    have hnone : cellsOf (Pc.loadHint size).block = cellsOf (owner s (.inl t)) := by
      simp [owner, hc.1, Pc.block]
    refine h.thread ?_ (fun b hb => nomatch hb) hc.2 fun _ _ _ _ => rfl
    rw [hnone, update_eq_self (Sum.inl t) fun o => cellsOf (owner s o)]
    exact h.exact
  | step t =>
    obtain ⟨⟨sh', pc'⟩, hthread, rfl⟩ := map_eq_some_iff.mp hstep
    exact h.threadStep hw hthread
  | weakFail t =>
    obtain ⟨_, rfl⟩ := guard_eq_some hstep
    exact h
  | finish t id =>
    simp only [Shmem.step] at hstep
    split at hstep <;> cases hstep
    exact h.finish ‹_› ‹_›
  | free t id =>
    simp only [Shmem.step] at hstep
    split at hstep <;> cases hstep
    exact h.free ‹_› ‹_›
  | use id write =>
    simp only [Shmem.step] at hstep
    split at hstep <;> cases hstep
    rename_i l hl
    have hlive := h.live id l hl
    have hbase := hown hl
    have hfits := requiredSize_spec hlive.size
    rw [← hlive.level] at hfits
    have hoffset := hlive.offset
    have hpos : 0 < sizeofMemoryHdr := by decide
    refine h.store hw hl (fun x hx => ?_) ?_
    · by_contra hout
      rw [if_neg (by omega)] at hx
      exact hx rfl
    · rw [if_neg (by omega)]
      exact hlive.capacity
  | sign id signature =>
    simp only [Shmem.step] at hstep
    split at hstep <;> cases hstep
    rename_i l hl
    have hlive := h.live id l hl
    rw [hlive.offset, Nat.add_sub_cancel]
    refine h.store hw hl (fun x hne => ?_) ?_
    · have hxb : x = allocatedShift wrap l.block := by
        by_contra hne'
        rw [update_of_ne hne'] at hne
        exact hne rfl
      rw [hxb, hown hl]
      exact ⟨le_refl _, base_lt _⟩
    · rw [update_self]
      exact hlive.capacity

end

theorem inv_run (hw : ExactFor wrap n) (h : Reach (Shmem.step wrap n) init s) : Inv wrap n s :=
  h.invariant (inv_init wrap n) fun _ _ _ hi _ hs => hi.step hw hs

end Invariant

/-! ## 6. Runs with exact offsets -/

theorem exactFor_id (n : Nat) : ExactFor id n := fun _ _ => rfl

/-- **Blocks, bits and owners**, in every state of every interleaving, for any number of pages.  A
live block owns an aligned run of the length of its size's level in one page; two live blocks have
no bit in common; a bit is set exactly if a live block or a call in progress owns it; and a call
that frees a block finds that block's header and then clears that block's bits and no others. -/
theorem blocks_exact (n : Nat) {s : State} (h : Reach (step id n) init s) :
    (∀ i l, s.live i = some l → l.block.level = levelOf l.size ∧ l.block.pageNo < n ∧
      IsRun l.block.level l.block.first) ∧
    (∀ i j l l', i ≠ j → s.live i = some l → s.live j = some l' →
      ∀ c ∈ l.block.cells, c ∉ l'.block.cells) ∧
    (∀ p i, (s.shared.bitmap p).getLsbD i = true ↔ ∃ o b, owner s o = some b ∧ (p, i) ∈ b.cells) ∧
    (∀ t shift b s', s.pcs t = .freeReadHdr shift b → step id n s (.step t) = some s' →
      s'.pcs t = .freeClear b.level b.pageNo b.first b) ∧
    (∀ t level pageNo blockNo b s', s.pcs t = .freeClear level pageNo blockNo b →
      step id n s (.step t) = some s' →
        used s'.shared.bitmap = used s.shared.bitmap \ b.cells) := by
  have hinv := inv_run (exactFor_id n) h
  have hlive : ∀ i l, s.live i = some l → owner s (.inr i) = some l.block := by
    intro i l hl
    simp [owner, hl]
  refine ⟨?_, ?_, ?_, ?_, ?_⟩
  · intro i l hl
    have hok := hinv.ok _ _ (hlive i l hl)
    exact ⟨(hinv.live i l hl).level, hok.page, hok.run⟩
  · intro i j l l' hne hl hl'
    exact hinv.apart (hlive i l hl) (hlive j l' hl') (fun e => hne (Sum.inr.inj e))
  · intro p i
    refine (hinv.exact.used_iff (p, i)).trans ⟨?_, ?_⟩
    · rintro ⟨o, ho⟩
      cases hb : owner s o with
      | none => simp [hb, cellsOf] at ho
      | some b => exact ⟨o, b, hb, by simpa [hb, cellsOf] using ho⟩
    · rintro ⟨o, b, hb, hc⟩
      exact ⟨o, by simpa [hb, cellsOf] using hc⟩
  · intro t shift b s' hpc hstep
    have hc := hinv.pcs t
    rw [hpc] at hc
    obtain ⟨rfl, hcap⟩ := hc
    have hok := hinv.ok (.inl t) b (by simp [owner, hpc, Pc.block])
    obtain ⟨⟨sh', pc'⟩, hthread, rfl⟩ := map_eq_some_iff.mp hstep
    simp only [hpc, threadStep, startFree_eq hok rfl hcap] at hthread
    cases hthread
    simp
  · intro t level pageNo blockNo b s' hpc hstep
    have hc := hinv.pcs t
    rw [hpc] at hc
    obtain ⟨rfl, rfl, rfl⟩ := hc
    have hok := hinv.ok (.inl t) b (by simp [owner, hpc, Pc.block])
    obtain ⟨⟨sh', pc'⟩, hthread, rfl⟩ := map_eq_some_iff.mp hstep
    simp only [hpc, threadStep] at hthread
    cases hthread
    exact used_clear hok.run.le_six

/-- One call, from beginning to end, in a pool where the first page has room. -/
def allocates (id size : Nat) : List Event :=
  [.malloc 0 size, .step 0, .step 0, .step 0, .step 0, .finish 0 id]

/-- Three blocks are allocated, and the first of them is freed. -/
def freesFirst : List Event :=
  allocates 0 100 ++ allocates 1 20000 ++ allocates 2 100 ++
    [.free 0 0, .step 0, .step 0, .step 0, .step 0]

theorem blocks_exact_freesFirst : ∃ s l l', Reach (step id 1) init s ∧ s.live 0 = none ∧
    s.live 1 = some l ∧ s.live 2 = some l' ∧ ∀ c ∈ l.block.cells, c ∉ l'.block.cells := by
  have hlive : (exec (step id 1) init freesFirst).map (fun s => (s.live 0, s.live 1, s.live 2)) =
    some (none, some ⟨20000, 32792, ⟨0, 2, 5⟩⟩, some ⟨100, 16408, ⟨0, 1, 6⟩⟩) := by decide
  obtain ⟨s, hs, hall⟩ := map_eq_some_iff.mp hlive
  obtain ⟨h₀, h₁, h₂⟩ : s.live 0 = none ∧ s.live 1 = _ ∧ s.live 2 = _ := by simpa using hall
  have hrun := Run.of_exec freesFirst hs
  exact ⟨s, _, _, hrun, h₀, h₁, h₂, (blocks_exact 1 hrun).2.1 1 2 _ _ (by decide) h₁ h₂⟩

end FalconFS.Shmem
