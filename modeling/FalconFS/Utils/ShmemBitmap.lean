/-
# The page bitmaps of the shared-memory allocator

A page of one mebibyte is 64 blocks of 16 KiB, one bit each.  A block of level `l` is a run of
`2 ^ (6 - l)` bits that starts at a multiple of its length.  `FalconShmemAllocatorMalloc` finds a
free one by folding the bitmap: each round ORs neighbouring bits together and keeps every second
one, so that after `6 - l` rounds the bit at the start of a run says whether any bit of the run is
set (`folded_bit`).  The results that the allocator uses are `findBlock_found`, about the run it
picks, and `clear_bit`, about the mask it clears.
-/
import Mathlib.Data.Nat.Basic
import Mathlib.Tactic.IntervalCases

namespace FalconFS.Shmem

/-! ## 1. The tables and the search -/

def freeListCount : Nat := 7

def levelBlockMask : Nat → BitVec 64
  | 0 => 0x0000000000000001
  | 1 => 0x0000000100000001
  | 2 => 0x0001000100010001
  | 3 => 0x0101010101010101
  | 4 => 0x1111111111111111
  | 5 => 0x5555555555555555
  | _ => 0xFFFFFFFFFFFFFFFF

def levelBlockOccupyBitMap : Nat → BitVec 64
  | 0 => 0xFFFFFFFFFFFFFFFF
  | 1 => 0x00000000FFFFFFFF
  | 2 => 0x000000000000FFFF
  | 3 => 0x00000000000000FF
  | 4 => 0x000000000000000F
  | 5 => 0x0000000000000003
  | _ => 0x0000000000000001

/-- The loop `for (j = 6; j > level; --j)`, as its first `rounds` rounds. -/
def folded (bitmap : BitVec 64) : Nat → BitVec 64
  | 0 => bitmap
  | rounds + 1 =>
    let b := folded bitmap rounds
    ((b >>> (2 ^ rounds)) ||| b) &&& levelBlockMask (freeListCount - 1 - rounds - 1)

/-- `__builtin_ctzll`, for an argument that is not zero. -/
def ctz (b : BitVec 64) : Nat := ((List.range 64).find? fun i => b.getLsbD i).getD 64

/-- One turn of the `while` of `FalconShmemAllocatorMalloc`: the value the bitmap should get, and
the first bit of the block, or none if there is no free block of this level in the bitmap. -/
def findBlock (level : Nat) (bitmap : BitVec 64) : Option (BitVec 64 × Nat) :=
  if level = 0 then
    if bitmap ≠ 0 then none else some (~~~0, 0)
  else
    let b := folded bitmap (freeListCount - 1 - level)
    if b = levelBlockMask level then none
    else
      let firstEmptyBlockInLevel := ctz (~~~b &&& levelBlockMask level)
      some (bitmap ||| (levelBlockOccupyBitMap level <<< firstEmptyBlockInLevel),
        firstEmptyBlockInLevel)

/-! ## 2. Bits of the tables -/

/-- How many bits a block of a level has. -/
def runLength (level : Nat) : Nat := 2 ^ (6 - level)

theorem runLength_pos (level : Nat) : 0 < runLength level := Nat.two_pow_pos _

theorem mask_bit : ∀ rounds ≤ 6, ∀ i < 64,
    (levelBlockMask (6 - rounds)).getLsbD i = decide (2 ^ rounds ∣ i) := by
  decide

theorem occupy_bit_base : ∀ level ≤ 6, ∀ i < 64,
    (levelBlockOccupyBitMap level).getLsbD i = decide (i < runLength level) := by
  decide

variable {level first : Nat} {bitmap : BitVec 64}

/-- **The bits that a block sets and clears.** -/
theorem occupy_bit {i : Nat} (hl : level ≤ 6) (hi : i < 64) :
    (levelBlockOccupyBitMap level <<< first).getLsbD i =
      decide (first ≤ i ∧ i < first + runLength level) := by
  rw [BitVec.getLsbD_shiftLeft]
  by_cases hlt : i < first
  · simp [hlt]
  · have hbase := occupy_bit_base level hl (i - first) (by omega)
    simp only [hbase, hlt, hi, decide_true, decide_false, Bool.not_false, Bool.true_and,
      decide_eq_decide]
    omega

/-! ## 3. Folding -/

/-- Whether a bit is set among the `n` ones from `p` on. -/
def anySet (b : BitVec 64) (p n : Nat) : Prop := ∃ i, p ≤ i ∧ i < p + n ∧ b.getLsbD i = true

theorem anySet_add (b : BitVec 64) (p m n : Nat) :
    anySet b p (m + n) ↔ anySet b p m ∨ anySet b (p + m) n := by
  unfold anySet
  constructor
  · rintro ⟨i, hp, hi, hb⟩
    by_cases h : i < p + m
    · exact .inl ⟨i, hp, h, hb⟩
    · exact .inr ⟨i, by omega, by omega, hb⟩
  · rintro (⟨i, hp, hi, hb⟩ | ⟨i, hp, hi, hb⟩)
    · exact ⟨i, hp, by omega, hb⟩
    · exact ⟨i, by omega, by omega, hb⟩

/-- **A folded bit stands for its run.**  The induction is on the rounds: a run of the next length
is two runs of this one, and the mask drops the bits that are not at the start of a longer run. -/
theorem folded_bit (b : BitVec 64) : ∀ rounds ≤ 6, ∀ i < 64,
    (folded b rounds).getLsbD i = true ↔ 2 ^ rounds ∣ i ∧ anySet b i (2 ^ rounds) := by
  intro rounds
  induction rounds with
  | zero =>
    intro _ i _
    constructor
    · intro h
      exact ⟨Nat.one_dvd i, i, le_refl i, by omega, h⟩
    · rintro ⟨-, j, hij, hj, h⟩
      obtain rfl : j = i := by omega
      exact h
  | succ rounds ih =>
    intro hr i hi
    have hpow : 2 ^ (rounds + 1) = 2 ^ rounds + 2 ^ rounds := by omega
    have hmask := mask_bit (rounds + 1) hr i hi
    have hindex : freeListCount - 1 - rounds - 1 = 6 - (rounds + 1) := by
      unfold freeListCount
      omega
    simp only [folded, hindex, BitVec.getLsbD_and, BitVec.getLsbD_or, BitVec.getLsbD_ushiftRight,
      hmask, Bool.and_eq_true, Bool.or_eq_true, decide_eq_true_eq]
    rw [and_comm]
    refine and_congr_right fun hdvd => ?_
    have hdvd' : 2 ^ rounds ∣ i := (Nat.pow_dvd_pow 2 (Nat.le_succ rounds)).trans hdvd
    have hhere := ih (by omega) i hi
    -- a run that starts below 64 at a multiple of its length ends there at the latest
    have hnext : 2 ^ rounds + i < 64 := by
      obtain ⟨q, rfl⟩ := hdvd
      have h64 : 2 ^ (rounds + 1) * 2 ^ (5 - rounds) = 64 := by
        rw [← Nat.pow_add, show rounds + 1 + (5 - rounds) = 6 by omega]
      have hq : q < 2 ^ (5 - rounds) := by
        by_contra hge
        have := Nat.mul_le_mul_left (2 ^ (rounds + 1)) (Nat.le_of_not_lt hge)
        omega
      have := Nat.mul_le_mul_left (2 ^ (rounds + 1)) (Nat.succ_le_of_lt hq)
      rw [Nat.mul_succ] at this
      omega
    have hthere := ih (by omega) (2 ^ rounds + i) hnext
    rw [hhere, hthere, hpow, anySet_add, Nat.add_comm (2 ^ rounds) i]
    constructor
    · rintro (⟨-, h⟩ | ⟨-, h⟩)
      · exact .inr h
      · exact .inl h
    · rintro (h | h)
      · exact .inr ⟨hdvd', h⟩
      · exact .inl ⟨Nat.dvd_add hdvd' (dvd_refl _), h⟩

/-! ## 4. The block that is found -/

theorem ctz_spec {b : BitVec 64} (h : b ≠ 0) : ctz b < 64 ∧ b.getLsbD (ctz b) = true := by
  unfold ctz
  cases hf : (List.range 64).find? fun i => b.getLsbD i with
  | none =>
    exfalso
    apply h
    apply BitVec.eq_of_getLsbD_eq
    intro i hi
    have := List.find?_eq_none.mp hf i (List.mem_range.mpr hi)
    simpa using this
  | some i =>
    have hmem := List.mem_of_find?_eq_some hf
    have hbit := List.find?_some hf
    exact ⟨List.mem_range.mp hmem, hbit⟩

/-- A run of bits that a block of a level may take: aligned, and inside the page. -/
structure IsRun (level first : Nat) : Prop where
  le_six : level ≤ 6
  aligned : runLength level ∣ first
  inside : first + runLength level ≤ 64

theorem isRun_of_dvd (hl : level ≤ 6) (hd : runLength level ∣ first) (hlt : first < 64) :
    IsRun level first := by
  refine ⟨hl, hd, ?_⟩
  have h64 : runLength level ∣ 64 := by
    unfold runLength
    exact Nat.pow_dvd_pow 2 (show 6 - level ≤ 6 by omega)
  obtain ⟨q, hq⟩ := hd
  obtain ⟨m, hm⟩ := h64
  have hqm : q < m := by
    by_contra hge
    have := Nat.mul_le_mul_left (runLength level) (Nat.le_of_not_lt hge)
    omega
  have := Nat.mul_le_mul_left (runLength level) (Nat.succ_le_of_lt hqm)
  rw [Nat.mul_succ] at this
  omega

/-- What a found block is: a run of free bits, and the bitmap with exactly these added. -/
structure Found (level : Nat) (bitmap desired : BitVec 64) (first : Nat) : Prop where
  run : IsRun level first
  free : ∀ i, first ≤ i → i < first + runLength level → bitmap.getLsbD i = false
  desired : ∀ i, i < 64 → (desired.getLsbD i = true ↔
    bitmap.getLsbD i = true ∨ (first ≤ i ∧ i < first + runLength level))

theorem found_page (h : bitmap = 0) : Found 0 bitmap (~~~0) 0 := by
  subst h
  refine ⟨isRun_of_dvd (by omega) (Nat.dvd_zero _) (by omega), ?_, ?_⟩
  · intro i _ _
    exact BitVec.getLsbD_zero
  · intro i hi
    have hin : i < 0 + runLength 0 := hi
    have hzero : (0 : BitVec 64).getLsbD i = false := BitVec.getLsbD_zero
    rw [BitVec.getLsbD_not, hzero]
    simp only [hi, decide_true, Bool.not_false, Bool.and_self, true_iff]
    exact .inr ⟨Nat.zero_le i, hin⟩

/-- A level that is not full has a start of a run whose folded bit is not set. -/
theorem exists_empty (hl : level ≤ 6) (hne : folded bitmap (6 - level) ≠ levelBlockMask level) :
    ~~~folded bitmap (6 - level) &&& levelBlockMask level ≠ 0 := by
  intro h0
  apply hne
  apply BitVec.eq_of_getLsbD_eq
  intro i hi
  have hmask := mask_bit (6 - level) (by omega) i hi
  rw [show 6 - (6 - level) = level by omega] at hmask
  have hbit := congrArg (fun b => b.getLsbD i) h0
  have hfold := folded_bit bitmap (6 - level) (by omega) i hi
  simp only [BitVec.getLsbD_and, BitVec.getLsbD_not, hi, decide_true, Bool.true_and] at hbit
  cases hm : (levelBlockMask level).getLsbD i with
  | true => simpa [hm] using hbit
  | false =>
    rw [hm] at hmask
    by_contra hset
    have := (hfold.mp (by simpa using hset)).1
    simp [this] at hmask

theorem found_run (hl : level ≤ 6) (hne : folded bitmap (6 - level) ≠ levelBlockMask level) :
    Found level bitmap
      (bitmap ||| (levelBlockOccupyBitMap level <<<
        ctz (~~~folded bitmap (6 - level) &&& levelBlockMask level)))
      (ctz (~~~folded bitmap (6 - level) &&& levelBlockMask level)) := by
  obtain ⟨hlt, hbit⟩ := ctz_spec (exists_empty hl hne)
  generalize ctz (~~~folded bitmap (6 - level) &&& levelBlockMask level) = first at hlt hbit
  have hmask := mask_bit (6 - level) (by omega) first hlt
  rw [show 6 - (6 - level) = level by omega] at hmask
  simp only [BitVec.getLsbD_and, BitVec.getLsbD_not, hlt, decide_true, Bool.true_and, hmask,
    Bool.and_eq_true, Bool.not_eq_true', decide_eq_true_eq] at hbit
  obtain ⟨hclear, hdvd⟩ := hbit
  have hfold := folded_bit bitmap (6 - level) (by omega) first hlt
  refine ⟨isRun_of_dvd hl hdvd hlt, ?_, ?_⟩
  · intro i hi hi'
    by_contra hset
    have := hfold.mpr ⟨hdvd, i, hi, hi', by simpa using hset⟩
    rw [hclear] at this
    cases this
  · intro i hi
    simp [BitVec.getLsbD_or, occupy_bit hl hi]

/-- **The search finds free runs only.** -/
theorem findBlock_found (hl : level ≤ 6) {desired : BitVec 64}
    (h : findBlock level bitmap = some (desired, first)) : Found level bitmap desired first := by
  unfold findBlock at h
  split at h
  · rename_i h0
    subst h0
    split at h
    · cases h
    · rename_i hz
      cases h
      exact found_page (not_not.mp hz)
  · dsimp only at h
    split at h
    · cases h
    · rename_i hne
      cases h
      exact found_run hl hne

/-- **It misses none.** -/
theorem findBlock_none (hl : level ≤ 6) (h : findBlock level bitmap = none)
    (hr : IsRun level first) : anySet bitmap first (runLength level) := by
  have hin := hr.inside
  unfold findBlock at h
  split at h
  · rename_i h0
    subst h0
    split at h
    · rename_i hne
      by_contra hno
      have hlen : runLength 0 = 64 := rfl
      refine hne (BitVec.eq_of_getLsbD_eq fun i hi => ?_)
      by_contra hset
      exact hno ⟨i, by omega, by omega, by simpa using hset⟩
    · cases h
  · dsimp only at h
    split at h
    · rename_i hfull
      have hlt : first < 64 := by
        have := runLength_pos level
        omega
      have hmask := mask_bit (6 - level) (by omega) first hlt
      rw [show 6 - (6 - level) = level by omega, ← hfull] at hmask
      refine ((folded_bit bitmap (6 - level) (by omega) first hlt).mp ?_).2
      exact hmask.trans (decide_eq_true hr.aligned)
    · cases h

/-- **Clearing a run** leaves every other bit. -/
theorem clear_bit {level first i : Nat} (hl : level ≤ 6) (hi : i < 64) (b : BitVec 64) :
    (b &&& ~~~(levelBlockOccupyBitMap level <<< first)).getLsbD i = true ↔
      b.getLsbD i = true ∧ ¬(first ≤ i ∧ i < first + runLength level) := by
  simp only [BitVec.getLsbD_and, BitVec.getLsbD_not, hi, occupy_bit hl hi, decide_true,
    Bool.true_and, Bool.and_eq_true, Bool.not_eq_true', decide_eq_false_iff_not]

end FalconFS.Shmem
