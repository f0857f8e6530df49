/-
# Room for a segment, at the top of the 32-bit range

`SerializedDataApplyForSegment` and `SerializedDataAppend` (`serialized_data.h`) both add up what
the buffer has to hold, let `SerializedDataEnlarge` make room for the sum, and write.  The sum, the
padding and the doubled capacity are all `sd_size_t`, so each of the three can wrap.

Two things go wrong, and this file separates them.

* **The sum wraps.**  `SerializedDataEnlarge` is then asked for less than is needed, finds that it
  has it, and the segment that is handed out ends behind the buffer (`growth_sound_iff`, the second
  half of `Fits`).
* **The capacity wraps.**  A capacity that is doubled 32 times is 0 and stays 0, so the loop that
  waits for it to reach the sum has no last round (`doubled_none_forever`).  From a capacity that
  doubling has made this happens for every sum above `2 ^ 31` (`reaches_of_grown`).

Where neither happens both operations end, and what they report as a success has its room.
-/
import Mathlib.Tactic
import FalconFS.Connection.SerializedData

namespace FalconFS.Connection

/-! ## 1. The loop that doubles the capacity -/

/-- What the loop of `SerializedDataEnlarge` starts from. -/
def firstCapacity (capacity : Nat) : Nat :=
  if capacity = 0 then serializedDataDefaultCapacity else capacity * 2 % 2 ^ 32

/-- **Some doubling reaches the sum**, as 32 bits have it. -/
def Reaches (size newCapacity : Nat) : Prop := ∃ k ≤ 32, size ≤ newCapacity * 2 ^ k % 2 ^ 32

instance (size newCapacity : Nat) : Decidable (Reaches size newCapacity) :=
  decidable_of_iff (∃ k ∈ List.range 33, size ≤ newCapacity * 2 ^ k % 2 ^ 32) <| by
    simp only [Reaches, List.mem_range, Nat.lt_succ_iff]

/-- The capacity after `k` more rounds, seen from one round later. -/
theorem doubled_mod (c k : Nat) : c * 2 % 2 ^ 32 * 2 ^ k % 2 ^ 32 = c * 2 ^ (k + 1) % 2 ^ 32 := by
  rw [Nat.mod_mul_mod, Nat.mul_assoc, ← Nat.pow_succ']

/-- **The loop ends within `rounds` rounds exactly when one of the capacities it goes through is
large enough.** -/
theorem doubled_isSome_iff {size : Nat} : ∀ (rounds c : Nat), c < 2 ^ 32 →
      ((doubled size rounds c).isSome ↔ ∃ k < rounds, size ≤ c * 2 ^ k % 2 ^ 32) := by
  intro rounds
  induction rounds with
  | zero =>
    intro c _
    simp [doubled]
  | succ rounds ih =>
    intro c hc
    have h0 : c * 2 ^ 0 % 2 ^ 32 = c := by
      rw [Nat.pow_zero, Nat.mul_one, Nat.mod_eq_of_lt hc]
    rw [doubled]
    split
    case isTrue hlt =>
      rw [ih _ (Nat.mod_lt _ (by decide))]
      constructor
      · rintro ⟨k, hk, h⟩
        exact ⟨k + 1, Nat.succ_lt_succ hk, by rwa [← doubled_mod]⟩
      · rintro ⟨k, hk, h⟩
        cases k with
        | zero =>
          rw [h0] at h
          omega
        | succ k => exact ⟨k, Nat.lt_of_succ_lt_succ hk, by rwa [doubled_mod]⟩
    case isFalse hge =>
      exact iff_of_true rfl ⟨0, Nat.succ_pos _, by rw [h0]; omega⟩

/-- What the loop ends with is enough, and is a 32-bit number. -/
theorem doubled_some {size : Nat} :
    ∀ {rounds c m : Nat}, c < 2 ^ 32 → doubled size rounds c = some m → size ≤ m ∧ m < 2 ^ 32 := by
  intro rounds
  induction rounds with
  | zero =>
    intro c m _ h
    cases h
  | succ rounds ih =>
    intro c m hc h
    rw [doubled] at h
    split at h
    case isTrue => exact ih (Nat.mod_lt _ (by decide)) h
    case isFalse hge =>
      obtain rfl : c = m := Option.some.inj h
      exact ⟨Nat.le_of_not_lt hge, hc⟩

theorem doubled_isSome_iff_reaches {size c : Nat} (hc : c < 2 ^ 32) :
    (doubled size 33 c).isSome ↔ Reaches size c := by
  simp only [doubled_isSome_iff 33 c hc, Reaches, Nat.lt_succ_iff]

/-- **A loop that has not ended after 33 rounds never ends**: from the 32nd doubling on the capacity
is 0. -/
theorem doubled_none_forever {size c : Nat} (hc : c < 2 ^ 32) (h : doubled size 33 c = none) :
    ∀ rounds, doubled size rounds c = none := by
  intro rounds
  rw [← Option.not_isSome_iff_eq_none, doubled_isSome_iff rounds c hc]
  rintro ⟨k, -, hk⟩
  have hno : ¬ Reaches size c := by
    rw [← doubled_isSome_iff_reaches hc, h]
    exact Bool.false_ne_true
  rcases Nat.le_total k 32 with hle | hge
  · exact hno ⟨k, hle, hk⟩
  · refine hno ⟨32, Nat.le_refl _, ?_⟩
    have hzero : ∀ j, 32 ≤ j → c * 2 ^ j % 2 ^ 32 = 0 := by
      intro j hj
      exact Nat.mod_eq_zero_of_dvd (Dvd.dvd.mul_left (Nat.pow_dvd_pow 2 hj) c)
    rwa [hzero k hge, ← hzero 32 (Nat.le_refl _)] at hk

theorem firstCapacity_lt (capacity : Nat) : firstCapacity capacity < 2 ^ 32 := by
  unfold firstCapacity
  split
  · decide
  · exact Nat.mod_lt _ (by decide)

/-- A power of two, as 32 bits have it, is at most `2 ^ 31`. -/
theorem two_pow_mod_le (m : Nat) : 2 ^ m % 2 ^ 32 ≤ 2 ^ 31 := by
  rcases Nat.lt_or_ge m 32 with hlt | hge
  · have hle : 2 ^ m ≤ 2 ^ 31 := Nat.pow_le_pow_right (by decide) (by omega)
    exact (Nat.mod_le _ _).trans hle
  · rw [Nat.mod_eq_zero_of_dvd (Nat.pow_dvd_pow 2 hge)]
    exact Nat.zero_le _

/-- **Over capacities that doubling has made, `2 ^ 31` is the limit**: every larger sum keeps the
loop going for ever, every smaller one ends it. -/
theorem reaches_of_grown {capacity size : Nat} (hg : Grown capacity) (hlt : capacity < size) :
    Reaches size (firstCapacity capacity) ↔ size ≤ 2 ^ 31 := by
  -- the loop starts from a power of two, or from 0 once the capacity is `2 ^ 31`
  have hfirst : ∃ m, firstCapacity capacity = 2 ^ m % 2 ^ 32 ∧ (capacity < 2 ^ 31 → m ≤ 31) := by
    rcases hg with rfl | ⟨k, hk, rfl⟩
    · exact ⟨7, rfl, fun _ => by decide⟩
    · have hne : 2 ^ k ≠ 0 := (Nat.two_pow_pos k).ne'
      refine ⟨k + 1, by rw [firstCapacity, if_neg hne, ← Nat.pow_succ], fun h => ?_⟩
      exact (Nat.pow_lt_pow_iff_right (by decide)).mp h
  obtain ⟨m, hm, hm31⟩ := hfirst
  rw [hm]
  constructor
  · rintro ⟨j, -, hj⟩
    rw [Nat.mod_mul_mod, ← Nat.pow_add] at hj
    exact hj.trans (two_pow_mod_le _)
  · intro hs
    have hle := hm31 (by omega)
    refine ⟨31 - m, by omega, ?_⟩
    rw [Nat.mod_mul_mod, ← Nat.pow_add, Nat.add_sub_cancel' hle]
    exact hs

/-! ## 2. Making room -/

section Enlarge

variable {alloc : Alloc} {d : SerializedData} {size : Nat}

theorem enlarge_room (h : size ≤ d.capacity) : serializedDataEnlarge alloc d size = .ok d := by
  rw [serializedDataEnlarge, if_pos h]

theorem enlarge_fixed (h : d.capacity < size) (hm : d.memoryManager = false) :
    serializedDataEnlarge alloc d size = .error .refused := by
  rw [serializedDataEnlarge, if_neg (Nat.not_le_of_lt h), hm]
  rfl

section

variable (h : d.capacity < size) (hm : d.memoryManager = true)

include h hm

/-- With a memory manager and too little room, the loop decides. -/
theorem enlarge_eq : serializedDataEnlarge alloc d size =
      match doubled size 33 (firstCapacity d.capacity), alloc with
      | none, _ => .error .neverReturns
      | some _, none => .error .refused
      | some newCapacity, some fresh =>
        .ok { d with buffer :=
          d.buffer ++ (List.range' d.capacity (newCapacity - d.capacity)).map fresh } := by
  rw [serializedDataEnlarge, if_neg (Nat.not_le_of_lt h), hm]
  rfl

theorem enlarge_never (hr : ¬ Reaches size (firstCapacity d.capacity)) :
    serializedDataEnlarge alloc d size = .error .neverReturns := by
  have hnone : doubled size 33 (firstCapacity d.capacity) = none := by
    rwa [← Option.not_isSome_iff_eq_none, doubled_isSome_iff_reaches (firstCapacity_lt _)]
  rw [enlarge_eq h hm, hnone]

theorem enlarge_refused (hr : Reaches size (firstCapacity d.capacity)) :
    serializedDataEnlarge none d size = .error .refused := by
  obtain ⟨c, hc⟩ := Option.isSome_iff_exists.mp
    ((doubled_isSome_iff_reaches (firstCapacity_lt _)).mpr hr)
  rw [enlarge_eq h hm, hc]

end

/-- **A loop that ends makes the room it was asked for**, in a capacity of 32 bits. -/
theorem enlarge_grown {fresh : Nat → Byte} (h : d.capacity < size) (hm : d.memoryManager = true)
    (hr : Reaches size (firstCapacity d.capacity)) :
    ∃ d', serializedDataEnlarge (some fresh) d size = .ok d' ∧ d'.size = d.size ∧
      size ≤ d'.capacity ∧ d'.capacity < 2 ^ 32 := by
  obtain ⟨c, hc⟩ := Option.isSome_iff_exists.mp
    ((doubled_isSome_iff_reaches (firstCapacity_lt _)).mpr hr)
  obtain ⟨hle, hlt⟩ := doubled_some (firstCapacity_lt _) hc
  have henlarge : serializedDataEnlarge (some fresh) d size = _ := enlarge_eq h hm
  rw [hc] at henlarge
  refine ⟨_, henlarge, rfl, ?_⟩
  rw [SerializedData.capacity] at h ⊢
  rw [List.length_append, List.length_map, List.length_range', SerializedData.capacity]
  omega

end Enlarge

/-! ## 3. The two operations as one -/

/-- A call that lets the buffer grow. -/
inductive Growth where
  | segment (size : Nat)
  | append (src : SerializedData)

namespace Growth

/-- The bytes that the caller of the segment may fill in, or that are copied. -/
def length : Growth → Nat
  | segment size => padded size
  | append src => src.size

/-- Where they start behind the old end: a segment has its length in front. -/
def header : Growth → Nat
  | segment _ => 4
  | append _ => 0

/-- **The true sum**: old size, header and padded new size. -/
def needed (g : Growth) (d : SerializedData) : Nat := d.size + g.header + g.length

/-- What the code itself writes at the old end. -/
def bytes (host : Host) : Growth → List Byte
  | segment size => putSize host (alignSize size)
  | append src => src.buffer.take src.size

/-- The call, with the place that the caller may write to, or that was copied to. -/
def run (host : Host) (alloc : Alloc) (d : SerializedData) :
    Growth → Except Trouble (SerializedData × Nat)
  | segment size => serializedDataApplyForSegment host alloc d size
  | append src => (serializedDataAppend alloc d src).map fun dest => (dest, d.size)

/-- **The call is sound**: it comes back, and what it reports as a success has room for the true sum
and for the segment it returns. -/
def Sound (g : Growth) (d : SerializedData) : Except Trouble (SerializedData × Nat) → Prop
  | .error .refused => True
  | .error .outOfBounds => False
  | .error .neverReturns => False
  | .ok (d', p) => g.needed d ≤ d'.capacity ∧ p + g.length ≤ d'.capacity

/-- **The two ways a call can go wrong do not happen.**  The loop ends if it is entered, and the
true sum is a 32-bit number unless the call is refused anyway. -/
def Fits (g : Growth) (alloc : Alloc) (d : SerializedData) : Prop :=
  (d.capacity < g.needed d % 2 ^ 32 → d.memoryManager = true →
    Reaches (g.needed d % 2 ^ 32) (firstCapacity d.capacity)) ∧
  (g.needed d < 2 ^ 32 ∨
    d.capacity < g.needed d % 2 ^ 32 ∧ (d.memoryManager = false ∨ alloc = none))

/-- The sum as the code has it, whose padding may have wrapped already. -/
theorem alignSize_mod (n size : Nat) :
    (n + alignSize size) % 2 ^ 32 = (n + padded size) % 2 ^ 32 := by
  unfold alignSize padded
  omega

section Run

variable {host : Host} {alloc : Alloc} {d d' : SerializedData} {g : Growth}

theorem run_error {e : Trouble}
    (h : serializedDataEnlarge alloc d (g.needed d % 2 ^ 32) = .error e) :
    g.run host alloc d = .error e := by
  cases g with
  | segment size =>
    rw [needed, header, length, ← alignSize_mod] at h
    rw [run, serializedDataApplyForSegment]
    simp only [h, Bind.bind, Except.bind]
  | append src =>
    rw [needed, header, length, Nat.add_zero] at h
    rw [run, serializedDataAppend]
    simp only [h, Bind.bind, Except.bind, Except.map]

/-- Once there is room, what is left of the call is its own write at the old end. -/
theorem run_write (h : serializedDataEnlarge alloc d (g.needed d % 2 ^ 32) = .ok d')
    (hs : d'.size = d.size) :
    g.run host alloc d = (d'.write d.size (g.bytes host)).map fun d'' =>
      ({ d'' with size := g.needed d'' % 2 ^ 32 }, d.size + g.header) := by
  cases g with
  | segment size =>
    rw [needed, header, length, ← alignSize_mod] at h
    simp only [run, serializedDataApplyForSegment, h, hs, bytes, Bind.bind, Except.bind, Except.map,
      needed, header, length, ← alignSize_mod]
    rfl
  | append src =>
    rw [needed, header, length, Nat.add_zero] at h
    simp only [run, serializedDataAppend, h, hs, bytes, Bind.bind, Except.bind, Except.map,
      needed, header, length, Nat.add_zero]
    cases d'.write d.size (src.buffer.take src.size) <;> rfl

/-- The code's own write is no longer than the sum. -/
theorem length_bytes_le (host : Host) (g : Growth) (d : SerializedData) :
    d.size + (g.bytes host).length ≤ g.needed d := by
  cases g with
  | segment size =>
    have hlen : (putSize host (alignSize size)).length = 4 := (sizeCodec host).length_enc _
    rw [bytes, hlen, needed, header]
    exact Nat.le_add_right _ _
  | append src =>
    rw [bytes, List.length_take, needed, header, length]
    omega

section

variable (h : serializedDataEnlarge alloc d (g.needed d % 2 ^ 32) = .ok d')
  (hs : d'.size = d.size)

include h hs

/-- With room for the true sum, the call succeeds and is sound. -/
theorem sound_of_room (hroom : g.needed d ≤ d'.capacity) : g.Sound d (g.run host alloc d) := by
  have hin := (length_bytes_le host g d).trans hroom
  rw [run_write h hs]
  cases hw : d'.write d.size (g.bytes host) with
  | error e =>
    rw [SerializedData.write, if_pos hin] at hw
    cases hw
  | ok d'' =>
    have hcap : d''.capacity = d'.capacity := write_length hw
    have hroom' : g.needed d ≤ d''.capacity := hroom.trans hcap.ge
    exact ⟨hroom', hroom'⟩

/-- **With less room than the true sum, no outcome of the write is sound.** -/
theorem not_sound_of_short (hshort : d'.capacity < g.needed d) :
    ¬ g.Sound d (g.run host alloc d) := by
  rw [run_write h hs]
  cases hw : d'.write d.size (g.bytes host) with
  | error e =>
    rw [SerializedData.write] at hw
    split at hw
    · cases hw
    · obtain rfl := Except.error.inj hw
      exact id
  | ok d'' =>
    have hcap : d''.capacity = d'.capacity := write_length hw
    rintro ⟨hroom, -⟩
    have hroom' : g.needed d ≤ d'.capacity := hroom.trans hcap.le
    omega

/-- Room for the sum as 32 bits have it is room for the true sum exactly when the sum has not
wrapped. -/
theorem sound_iff_of_enlarged (hle : g.needed d % 2 ^ 32 ≤ d'.capacity)
    (hlt : d'.capacity < 2 ^ 32) : g.Sound d (g.run host alloc d) ↔ g.needed d < 2 ^ 32 := by
  constructor
  · intro hsound
    by_contra hwrap
    exact not_sound_of_short h hs (by omega) hsound
  · intro hn
    rw [Nat.mod_eq_of_lt hn] at hle
    exact sound_of_room h hs hle

end

end Run

/-- **`SerializedDataApplyForSegment` and `SerializedDataAppend` end and make the room they report,
for exactly the states and sizes in `Fits`.** -/
theorem growth_sound_iff (host : Host) (alloc : Alloc) (d : SerializedData)
    (hd : d.capacity < 2 ^ 32) (g : Growth) : g.Sound d (g.run host alloc d) ↔ g.Fits alloc d := by
  rcases Nat.lt_or_ge d.capacity (g.needed d % 2 ^ 32) with hlt | hge
  · cases hm : d.memoryManager with
    | false =>
      -- nothing to grow with: the call is refused
      rw [run_error (enlarge_fixed hlt hm)]
      have hno : ¬ d.memoryManager = true := by
        rw [hm]
        exact Bool.false_ne_true
      exact iff_of_true trivial ⟨fun _ h => absurd h hno, Or.inr ⟨hlt, Or.inl hm⟩⟩
    | true =>
      by_cases hr : Reaches (g.needed d % 2 ^ 32) (firstCapacity d.capacity)
      · cases alloc with
        | none =>
          rw [run_error (enlarge_refused hlt hm hr)]
          exact iff_of_true trivial ⟨fun _ _ => hr, Or.inr ⟨hlt, Or.inr rfl⟩⟩
        | some fresh =>
          obtain ⟨d', hd', hs, hle, hlt'⟩ := @enlarge_grown d _ fresh hlt hm hr
          rw [sound_iff_of_enlarged hd' hs hle hlt']
          constructor
          · intro hn
            exact ⟨fun _ _ => hr, Or.inl hn⟩
          · rintro ⟨-, hn | ⟨-, hno | hno⟩⟩
            · exact hn
            · exact nomatch hm.symm.trans hno
            · cases hno
      · rw [run_error (enlarge_never hlt hm hr)]
        exact iff_of_false id fun h => hr (h.1 hlt hm)
  · rw [sound_iff_of_enlarged (enlarge_room hge) rfl hge hd]
    constructor
    · intro hn
      exact ⟨fun hlt => absurd hlt (Nat.not_lt_of_ge hge), Or.inl hn⟩
    · rintro ⟨-, hn | ⟨hlt, -⟩⟩
      · exact hn
      · exact absurd hlt (Nat.not_lt_of_ge hge)

/-- An empty buffer and a segment of 100 bytes. -/
theorem growth_sound_iff_small : serializedDataInitEmpty.capacity < 2 ^ 32 ∧
      (Growth.segment 100).Sound serializedDataInitEmpty
        ((Growth.segment 100).run .little (some fun _ => 0#8) serializedDataInitEmpty) := by
  have hsmall : serializedDataInitEmpty.capacity < 2 ^ 32 := by decide
  have hiff :=
    growth_sound_iff .little (some fun _ => 0#8) serializedDataInitEmpty hsmall (.segment 100)
  refine ⟨hsmall, ?_⟩
  rw [hiff]
  exact ⟨fun _ _ => ⟨0, Nat.zero_le _, by decide⟩, Or.inl (by decide)⟩

/-- **Neither limit is respected.**  A segment of 2 GiB keeps an empty buffer's call in its loop for
ever, and a segment of `2 ^ 32 - 4` bytes is handed out in a buffer of four. -/
theorem growth_wraps :
    (Growth.segment (2 ^ 31)).run .little (some fun _ => 0#8) serializedDataInitEmpty
        = .error .neverReturns ∧
      (∀ rounds, doubled (2 ^ 31 + 4) rounds serializedDataDefaultCapacity = none) ∧
      ∃ d', (Growth.segment (2 ^ 32 - 4)).run .little (some fun _ => 0#8) ⟨[0, 0, 0, 0], 0, true⟩
          = .ok (d', 4) ∧ d'.capacity = 4 := by
  have hnot : ¬ Reaches (2 ^ 31 + 4) serializedDataDefaultCapacity := by
    have h := reaches_of_grown (Or.inl rfl) (show 0 < 2 ^ 31 + 4 by decide)
    exact fun hr => absurd (h.mp hr) (by decide)
  refine ⟨run_error (enlarge_never (by decide) rfl hnot), ?_, ?_⟩
  · apply doubled_none_forever (by decide)
    rwa [← Option.not_isSome_iff_eq_none, doubled_isSome_iff_reaches (by decide)]
  · exact ⟨⟨[0xFC, 0xFF, 0xFF, 0xFF], 0, true⟩, by decide +kernel, rfl⟩

end Growth
end FalconFS.Connection
