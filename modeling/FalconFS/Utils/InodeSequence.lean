/-
# Inode ids

A server makes its inode ids from the numbers of the sequence `pg_dfs_inodeid_seq` and its own id.
The sequence goes up by 32, and a backend that has drawn a value uses it and the 31 numbers after
it before it draws again (`GetNextSequenceNum`); what it has not used when it exits is lost.

`nextval` is PostgreSQL's: it hands out values of the sequence, each at most once.  Which one
comes next is left open, since values are lost in crashes, too.
-/
import FalconFS.DirPathHash.Model
import FalconFS.Lib.Machine
import FalconFS.Metadb.MetaHandle
import Mathlib.Data.BitVec
import Mathlib.Data.Nat.Bitwise

namespace FalconFS.InodeSequence

open Machine Function BitVec List

/-! ## 1. Numbers and ids -/

/-- The static variables of `GetNextSequenceNum`. -/
structure Backend where
  remainNumberCount : Nat
  currentSequenceNumber : Nat
  deriving DecidableEq

/-- `GetNextSequenceNum`, when a call of `nextval` would return `value`. -/
def getNextSequenceNum (b : Backend) (value : Nat) : Backend × Nat :=
  let b := if b.remainNumberCount = 0 then ⟨32, value⟩ else b
  (⟨b.remainNumberCount - 1, b.currentSequenceNumber + 1⟩, b.currentSequenceNumber)

/-- `GenerateInodeIdBySeqAndNodeId` -/
def generateInodeIdBySeqAndNodeId (seq : BitVec 64) (nodeId : BitVec 32) : BitVec 64 :=
  (seq <<< 12) ||| (nodeId &&& 0xFFF).setWidth 64

/-- `nextval`: `MINVALUE 1`, `INCREMENT BY 32`, `MAXVALUE 9223372036854775807`. -/
def IsNextval (drawn : List Nat) (value : Nat) : Prop :=
  value % 32 = 1 ∧ value ≤ 9223372036854775807 ∧ value ∉ drawn

instance (drawn : List Nat) (value : Nat) : Decidable (IsNextval drawn value) :=
  inferInstanceAs (Decidable (_ ∧ _ ∧ _))

/-- A number that `GetNextSequenceNum` has not returned yet on a server.  Other models use this in
place of the blocks (`new_number_of_step`). -/
def IsNewNumber (numbers : List Nat) (n : Nat) : Prop := 0 < n ∧ n ∉ numbers

instance (numbers : List Nat) (n : Nat) : Decidable (IsNewNumber numbers n) :=
  inferInstanceAs (Decidable (_ ∧ _))

/-! ## 2. Servers and their backends -/

structure Servers where
  /-- The backends of a server, by their process ids. -/
  backends : ServerId → Nat → Option Backend
  /-- The values that the sequence of a server has handed out. -/
  drawn : ServerId → List Nat
  /-- The numbers that were returned, with the server on which it was. -/
  issued : List (ServerId × Nat)

inductive Event
  | start (server : ServerId) (pid : Nat)
  | exit (server : ServerId) (pid : Nat)
  /-- A backend makes an inode id; `value` is for `nextval`, if it comes to that. -/
  | generate (server : ServerId) (pid : Nat) (value : Nat)

namespace Servers

def init : Servers := ⟨fun _ _ => none, fun _ => [], []⟩

def setBackend (s : Servers) (i : ServerId) (p : Nat) (b : Option Backend) : Servers :=
  { s with backends := update s.backends i (update (s.backends i) p b) }

def step (s : Servers) : Event → Option Servers
  | .start i p => if (s.backends i p).isSome then none else some (s.setBackend i p (some ⟨0, 0⟩))
  | .exit i p => if (s.backends i p).isSome then some (s.setBackend i p none) else none
  | .generate i p value =>
    match s.backends i p with
    | none => none
    | some b =>
      let (b', seq) := getNextSequenceNum b value
      let s' := { s.setBackend i p (some b') with issued := (i, seq) :: s.issued }
      if b.remainNumberCount = 0 then
        if IsNextval (s.drawn i) value then
          some { s' with drawn := update s.drawn i (value :: s.drawn i) }
        else none
      else some s'

/-- The numbers that were returned on a server. -/
def numbers (s : Servers) (i : ServerId) : List Nat := (s.issued.filter (·.1 = i)).map (·.2)

/-- All inode ids that were ever made. -/
def ids (s : Servers) : List (BitVec 64) :=
  s.issued.map fun x => generateInodeIdBySeqAndNodeId (BitVec.ofNat 64 x.2) (BitVec.ofNat 32 x.1)

@[simp] theorem setBackend_self (s : Servers) (i : ServerId) (p : Nat) (b : Option Backend) :
    (s.setBackend i p b).backends i p = b := by simp [setBackend]

end Servers

/-! ## 3. Blocks of numbers -/

/-- Values of the sequence are the same or a block apart. -/
theorem block_apart {v w : Nat} (hv : v % 32 = 1) (hw : w % 32 = 1) (h : v ≠ w) :
    v + 32 ≤ w ∨ w + 32 ≤ v := by omega

structure Inv (s : Servers) : Prop where
  nodup : s.issued.Nodup
  drawn : ∀ i, ∀ v ∈ s.drawn i, v % 32 = 1
  /-- A number belongs to the block of a value. -/
  issued : ∀ i n, (i, n) ∈ s.issued → ∃ v ∈ s.drawn i, v ≤ n ∧ n < v + 32
  /-- A backend has the rest of a block for itself. -/
  live : ∀ i p b, s.backends i p = some b → 0 < b.remainNumberCount → ∃ v ∈ s.drawn i,
    b.remainNumberCount ≤ 32 ∧ b.currentSequenceNumber + b.remainNumberCount = v + 32 ∧
      ∀ n, (i, n) ∈ s.issued → n < b.currentSequenceNumber ∨ v + 32 ≤ n
  apart : ∀ i p q b c, p ≠ q → s.backends i p = some b → s.backends i q = some c →
    0 < b.remainNumberCount → 0 < c.remainNumberCount →
      b.currentSequenceNumber + b.remainNumberCount ≠
        c.currentSequenceNumber + c.remainNumberCount

theorem inv_init : Inv .init where
  nodup := nodup_nil
  drawn _ _ hv := by cases hv
  issued _ _ h := by cases h
  live _ _ _ h := by cases h
  apart _ _ _ _ _ _ h := by cases h

section Steps

variable {s : Servers} {i : ServerId} {p : Nat} {b : Backend} {value : Nat}

/-- A backend starts or exits: it has no numbers, or gives them up. -/
theorem Inv.setBackend (h : Inv s) (i : ServerId) (p : Nat) {x : Option Backend}
    (hx : ∀ b, x = some b → b.remainNumberCount = 0) : Inv (s.setBackend i p x) := by
  obtain ⟨hnodup, hdrawn, hissued, hlive, hapart⟩ := h
  constructor <;> simp only [Servers.setBackend, update_apply] <;> grind

/-- **A backend draws a new block.** -/
theorem Inv.fetch (h : Inv s) (i : ServerId) (p : Nat) (hnew : IsNextval (s.drawn i) value) :
    Inv { s.setBackend i p (some ⟨32, value⟩) with
      drawn := update s.drawn i (value :: s.drawn i) } := by
  obtain ⟨hmod, -, hfresh⟩ := hnew
  -- the block is none of those that other backends have or numbers come from
  have hblock : ∀ v ∈ s.drawn i, v + 32 ≤ value ∨ value + 32 ≤ v := fun v hv =>
    block_apart (h.drawn i v hv) hmod fun heq => hfresh (heq ▸ hv)
  have hother : ∀ q c, s.backends i q = some c → 0 < c.remainNumberCount →
      c.currentSequenceNumber + c.remainNumberCount ≠ value + 32 := by
    intro q c hc hpos
    obtain ⟨v, hv, -, hend, -⟩ := h.live i q c hc hpos
    have := hblock v hv
    omega
  have hnumbers : ∀ n, (i, n) ∈ s.issued → n < value ∨ value + 32 ≤ n := by
    intro n hn
    obtain ⟨v, hv, hle, hlt⟩ := h.issued i n hn
    have := hblock v hv
    omega
  obtain ⟨hnodup, hdrawn, hissued, hlive, hapart⟩ := h
  constructor <;> simp only [Servers.setBackend, update_apply] <;> grind [mem_cons_self]

/-- **A backend uses the next number of its block.** -/
theorem Inv.next (h : Inv s) (hb : s.backends i p = some b) (hpos : 0 < b.remainNumberCount) :
    Inv { s.setBackend i p (some ⟨b.remainNumberCount - 1, b.currentSequenceNumber + 1⟩) with
      issued := (i, b.currentSequenceNumber) :: s.issued } := by
  obtain ⟨v, hv, hle, hend, hall⟩ := h.live i p b hb hpos
  -- the blocks of the other backends of this server are others
  have hother : ∀ q c w, q ≠ p → s.backends i q = some c → 0 < c.remainNumberCount →
      w ∈ s.drawn i → c.currentSequenceNumber + c.remainNumberCount = w + 32 →
      v + 32 ≤ w ∨ w + 32 ≤ v := by
    intro q c w hq hc hcpos hw hwend
    refine block_apart (h.drawn i v hv) (h.drawn i w hw) ?_
    rintro rfl
    exact h.apart i p q b c hq.symm hb hc hpos hcpos (hend.trans hwend.symm)
  obtain ⟨hnodup, hdrawn, hissued, hlive, hapart⟩ := h
  constructor <;> simp only [Servers.setBackend, update_apply] <;> grind

/-- ... and of a new block, the first one. -/
theorem Inv.draw (h : Inv s) (i : ServerId) (p : Nat) (hnew : IsNextval (s.drawn i) value) :
    Inv { s.setBackend i p (some ⟨31, value + 1⟩) with
      issued := (i, value) :: s.issued
      drawn := update s.drawn i (value :: s.drawn i) } := by
  have hnext := (h.fetch i p hnew).next (Servers.setBackend_self s i p _)
    (Nat.zero_lt_succ 31)
  simpa [Servers.setBackend] using hnext

end Steps

variable {s s' : Servers} {e : Event} {i n : Nat}

open Servers

/-- **One step.** -/
theorem inv_step (h : Inv s) (hs : s.step e = some s') : Inv s' := by
  match e, hs with
  | .start i p, hs =>
    simp only [step] at hs
    split at hs <;> cases hs
    refine h.setBackend i p fun b hb => ?_
    cases hb
    rfl
  | .exit i p, hs =>
    obtain ⟨_, rfl⟩ := guard_eq_some hs
    exact h.setBackend i p fun b hb => by cases hb
  | .generate i p value, hs =>
    simp only [step] at hs
    simp only [getNextSequenceNum] at hs
    (repeat' split at hs) <;> cases hs
    · exact h.draw i p ‹_›
    · exact h.next ‹_› (Nat.pos_of_ne_zero ‹_›)

/-! ## 4. The ids -/

/-- Below `2 ^ 52` no bit of the number is lost. -/
theorem toNat_generateInodeIdBySeqAndNodeId {seq : Nat} (hseq : seq < 2 ^ 52) (node : ServerId) :
    (generateInodeIdBySeqAndNodeId (BitVec.ofNat 64 seq) (BitVec.ofNat 32 node)).toNat =
      seq * 2 ^ 12 + node % 2 ^ 12 := by
  have hmask : (node % 2 ^ 32) &&& (4095 : BitVec 32).toNat = node % 2 ^ 12 := by
    rw [show (4095 : BitVec 32).toNat = 2 ^ 12 - 1 from rfl, Nat.and_two_pow_sub_one_eq_mod]
    exact Nat.mod_mod_of_dvd node (by decide)
  have hshift : (seq % 2 ^ 64) <<< 12 % 2 ^ 64 = seq <<< 12 := by
    rw [Nat.mod_eq_of_lt (by omega : seq < 2 ^ 64), Nat.shiftLeft_eq]
    exact Nat.mod_eq_of_lt (by omega)
  have hnode : node % 2 ^ 12 < 2 ^ 12 := Nat.mod_lt _ (by decide)
  have hwide : node % 2 ^ 12 % 2 ^ 64 = node % 2 ^ 12 := Nat.mod_eq_of_lt (by omega)
  calc _ = seq <<< 12 ||| node % 2 ^ 12 := by
        simp only [generateInodeIdBySeqAndNodeId, toNat_or, toNat_shiftLeft,
          toNat_ofNat, toNat_setWidth, toNat_and]
        rw [hshift, hmask, hwide]
    _ = seq <<< 12 + node % 2 ^ 12 := (Nat.shiftLeft_add_eq_or_of_lt hnode seq).symm
    _ = _ := by rw [Nat.shiftLeft_eq]

theorem packed_inj {j m : Nat} (hi : i < 4096) (hj : j < 4096)
    (h : m * 2 ^ 12 + i % 2 ^ 12 = n * 2 ^ 12 + j % 2 ^ 12) : i = j ∧ m = n := by omega

theorem not_special {id : Nat} (hid : id = n * 2 ^ 12 + i % 2 ^ 12) (hi : i < 4096)
    (hpos : 0 < n) (hn : n < 2 ^ 52) (hlast : ¬ (n = 2 ^ 52 - 1 ∧ 4094 ≤ i)) :
    id ≠ 0 ∧ id ≠ pathNotExist ∧ id ≠ DirPathHash.pathUnknown := by
  suffices h : id ≠ 0 ∧ id ≠ 2 ^ 64 - 1 ∧ id ≠ 2 ^ 64 - 2 from h
  omega

/-- The server has one of the ids that fit into an inode id, and so does the number. -/
def Below (s : Servers) : Event → Prop
  | .generate i p value => i < 4096 ∧ ∀ b ∈ s.backends i p, (getNextSequenceNum b value).2 < 2 ^ 52
  | _ => True

/-- ... and the number is not the last one, on the last two servers. -/
def Within (s : Servers) : Event → Prop
  | .generate i p value => i < 4096 ∧ ∀ b ∈ s.backends i p,
      (getNextSequenceNum b value).2 < 2 ^ 52 ∧
        ¬ ((getNextSequenceNum b value).2 = 2 ^ 52 - 1 ∧ 4094 ≤ i)
  | _ => True

instance (s : Servers) : (e : Event) → Decidable (Within s e)
  | .start _ _ => isTrue trivial
  | .exit _ _ => isTrue trivial
  | .generate i p _ => inferInstanceAs (Decidable (i < 4096 ∧ ∀ b ∈ s.backends i p, _ ∧ _))

/-- What is known of the numbers that went into the ids of a run. -/
def NumbersOk (s : Servers) : Prop :=
  ∀ i n, (i, n) ∈ s.issued → i < 4096 ∧ n < 2 ^ 52 ∧ ¬ (n = 2 ^ 52 - 1 ∧ 4094 ≤ i)

/-- A number is only added by `generate`, and it is the one `GetNextSequenceNum` returned. -/
theorem issued_step (hs : s.step e = some s') :
    s'.issued = s.issued ∨ ∃ i p value b, e = .generate i p value ∧ s.backends i p = some b ∧
      s'.issued = (i, (getNextSequenceNum b value).2) :: s.issued := by
  match e, hs with
  | .start i p, hs =>
    simp only [step] at hs
    split at hs <;> cases hs
    exact Or.inl rfl
  | .exit i p, hs =>
    obtain ⟨_, rfl⟩ := guard_eq_some hs
    exact Or.inl rfl
  | .generate i p value, hs =>
    simp only [step] at hs
    (repeat' split at hs) <;> cases hs <;> exact Or.inr ⟨i, p, value, _, rfl, ‹_›, rfl⟩

theorem Inv.pos (h : Inv s) (hn : (i, n) ∈ s.issued) : 0 < n := by
  obtain ⟨v, hv, hle, -⟩ := h.issued i n hn
  have := h.drawn i v hv
  omega

/-- **The blocks are for nothing but new numbers.** -/
theorem new_number_of_step {C : Servers → Event → Prop} (h : Run step C .init s)
    (hs : s.step e = some s') (hi : s'.issued = (i, n) :: s.issued) :
    IsNewNumber (s.numbers i) n := by
  have hinv : Inv s := h.invariant inv_init fun _ _ _ hinv _ hs => inv_step hinv hs
  have hinv' := inv_step hinv hs
  refine ⟨hinv'.pos (by rw [hi]; exact mem_cons_self), fun hmem => ?_⟩
  obtain ⟨⟨j, m⟩, hm, rfl⟩ := mem_map.mp hmem
  obtain ⟨hold, hj⟩ := mem_filter.mp hm
  obtain rfl : j = i := by simpa using hj
  have hnodup := hinv'.nodup
  rw [hi] at hnodup
  exact (nodup_cons.mp hnodup).1 hold

theorem numbersOk_step (h : NumbersOk s) (hc : Within s e) (hs : s.step e = some s') :
    NumbersOk s' := by
  intro i n hn
  rcases issued_step hs with heq | ⟨j, p, value, b, rfl, hb, heq⟩
  · exact h i n (heq ▸ hn)
  · rw [heq] at hn
    rcases mem_cons.mp hn with hnew | hn
    · obtain ⟨rfl, rfl⟩ := Prod.mk.inj hnew
      obtain ⟨hi, hall⟩ := hc
      exact ⟨hi, hall b hb⟩
    · exact h i n hn

/-- **Every inode id is made once**, and none of them is 0 or one of the values that the directory
cache keeps for a path that does not exist or is not known. -/
theorem inode_ids_distinct {s : Servers} (h : Run Servers.step Within .init s) :
    s.ids.Nodup ∧
      ∀ id ∈ s.ids, id.toNat ≠ 0 ∧ id.toNat ≠ pathNotExist ∧
        id.toNat ≠ DirPathHash.pathUnknown := by
  obtain ⟨hinv, hok⟩ : Inv s ∧ NumbersOk s := by
    refine h.invariant (I := fun s => Inv s ∧ NumbersOk s)
      ⟨inv_init, fun _ _ hn => by cases hn⟩ ?_
    intro s e s' hboth hc hs
    exact ⟨inv_step hboth.1 hs, numbersOk_step hboth.2 hc hs⟩
  constructor
  · refine hinv.nodup.map_on ?_
    rintro ⟨i, m⟩ hm ⟨j, n⟩ hn heq
    obtain ⟨hi, hm, -⟩ := hok i m hm
    obtain ⟨hj, hn, -⟩ := hok j n hn
    have hnat := congrArg BitVec.toNat heq
    rw [toNat_generateInodeIdBySeqAndNodeId hm, toNat_generateInodeIdBySeqAndNodeId hn] at hnat
    obtain ⟨rfl, rfl⟩ := packed_inj hi hj hnat
    rfl
  · intro id hid
    obtain ⟨⟨i, n⟩, hmem, rfl⟩ := mem_map.mp hid
    obtain ⟨hi, hn, hlast⟩ := hok i n hmem
    exact not_special (toNat_generateInodeIdBySeqAndNodeId hn i) hi (hinv.pos hmem) hn hlast

/-- Two backends of server 1 with a block each, one of them on its second number, and a third one on
server 2, which has a sequence of its own. -/
theorem inode_ids_distinct_three_backends :
    ∃ s : Servers, s.issued = [(2, 1), (1, 2), (1, 33), (1, 1)] ∧ s.ids.Nodup ∧
      ∀ id ∈ s.ids, id.toNat ≠ 0 ∧ id.toNat ≠ pathNotExist ∧ id.toNat ≠ DirPathHash.pathUnknown :=
  ⟨_, rfl, inode_ids_distinct (Run.of_exec_if
    [.start 1 0, .generate 1 0 1, .start 1 1, .generate 1 1 33, .generate 1 0 0, .exit 1 0,
      .start 2 0, .generate 2 0 1] rfl)⟩

/-! ## 5. The last number

The bound `2 ^ 52` alone leaves the number `2 ^ 52 - 1`, whose id on server 4095 is the value for
a path that does not exist.  It is reached with no gap in the sequence. -/

/-- The sequence hands out its values one after the other. -/
def Consecutive (s : Servers) : Event → Prop
  | .generate i _ value => value = 1 + 32 * (s.drawn i).length
  | _ => True

section Last

variable {i : ServerId} {p : Nat}

/-- Runs with every value of the sequence used, and every number below `2 ^ 52`. -/
def Dense (s : Servers) (e : Event) : Prop := Below s e ∧ Consecutive s e

variable {s : Servers} {b : Backend}

/-- A backend makes an id with the first number of a new block. -/
theorem step_generate_draw {value : Nat} (hb : s.backends i p = some ⟨0, 0⟩)
    (hnew : IsNextval (s.drawn i) value) : s.step (.generate i p value) =
      some { s.setBackend i p (some ⟨31, value + 1⟩) with
        issued := (i, value) :: s.issued
        drawn := update s.drawn i (value :: s.drawn i) } := by
  simp [step, hb, getNextSequenceNum, hnew]

/-- A new backend draws the next value, when all values up to it were drawn before. -/
theorem draw_next {n : Nat} (hi : i < 4096) (hn : 1 + 32 * n < 2 ^ 52)
    (hrun : Run step Dense .init s) (hnone : s.backends i p = none)
    (hlen : (s.drawn i).length = n) (hall : ∀ v ∈ s.drawn i, v < 1 + 32 * n) :
    ∃ s', Run step Dense .init s' ∧
      s'.backends i p = some ⟨31, 1 + 32 * n + 1⟩ ∧ s'.drawn i = (1 + 32 * n) :: s.drawn i := by
  have hstart : s.step (.start i p) = some (s.setBackend i p (some ⟨0, 0⟩)) := by
    simp [step, hnone]
  have hnew : IsNextval (s.drawn i) (1 + 32 * n) :=
    ⟨by omega, by omega, fun hmem => absurd (hall _ hmem) (lt_irrefl _)⟩
  have hbelow : Below (s.setBackend i p (some ⟨0, 0⟩)) (.generate i p (1 + 32 * n)) := by
    refine ⟨hi, fun b hb => ?_⟩
    obtain rfl : (⟨0, 0⟩ : Backend) = b := by simpa using hb
    exact hn
  have hdense : Dense (s.setBackend i p (some ⟨0, 0⟩)) (.generate i p (1 + 32 * n)) :=
    ⟨hbelow, by rw [← hlen]; rfl⟩
  have hdrawn := step_generate_draw (setBackend_self s i p (some ⟨0, 0⟩)) hnew
  have hstarted : Run step Dense .init (s.setBackend i p (some ⟨0, 0⟩)) :=
    hrun.tail (e := .start i p) ⟨trivial, trivial⟩ hstart
  exact ⟨_, hstarted.tail hdense hdrawn, setBackend_self ..,
    by simp [setBackend]⟩

/-- Backends that start, make an id and exit. -/
theorem rounds (hi : i < 4096) (p n : Nat) (hn : 32 * n < 2 ^ 52) :
    ∃ s, Run step Dense .init s ∧ s.backends i p = none ∧
      (s.drawn i).length = n ∧ ∀ v ∈ s.drawn i, v < 1 + 32 * n := by
  induction n with
  | zero => exact ⟨.init, .refl, rfl, rfl, fun v hv => by cases hv⟩
  | succ n ih =>
    obtain ⟨s, hrun, hnone, hlen, hall⟩ := ih (by omega)
    obtain ⟨t, hrun, hb, hdrawn⟩ := draw_next hi (by omega) hrun hnone hlen hall
    have hexit : t.step (.exit i p) = some (t.setBackend i p none) := by
      simp [step, hb]
    refine ⟨_, hrun.tail (e := .exit i p) ⟨trivial, trivial⟩ hexit, setBackend_self .., ?_, ?_⟩
    · show (t.drawn i).length = n + 1
      rw [hdrawn, length_cons, hlen]
    · intro v hv
      replace hv : v ∈ t.drawn i := hv
      rw [hdrawn] at hv
      rcases mem_cons.mp hv with rfl | hv
      · omega
      · have := hall v hv
        omega

/-- A backend makes an id with the next number of its block. -/
theorem generate_next (hi : i < 4096) (hb : s.backends i p = some b)
    (hpos : 0 < b.remainNumberCount) (hlt : b.currentSequenceNumber < 2 ^ 52)
    (hrun : Run step Dense .init s) :
    ∃ s', Run step Dense .init s' ∧
      s'.backends i p = some ⟨b.remainNumberCount - 1, b.currentSequenceNumber + 1⟩ ∧
      s'.issued = (i, b.currentSequenceNumber) :: s.issued := by
  have hne : b.remainNumberCount ≠ 0 := hpos.ne'
  have hstep : s.step (.generate i p (1 + 32 * (s.drawn i).length)) =
      some { s.setBackend i p (some ⟨b.remainNumberCount - 1, b.currentSequenceNumber + 1⟩) with
        issued := (i, b.currentSequenceNumber) :: s.issued } := by
    simp [step, hb, getNextSequenceNum, hne]
  have hbelow : Below s (.generate i p (1 + 32 * (s.drawn i).length)) := by
    refine ⟨hi, fun c hc => ?_⟩
    obtain rfl : b = c := Option.some.inj (hb.symm.trans hc)
    simpa [getNextSequenceNum, hne] using hlt
  exact ⟨_, hrun.tail ⟨hbelow, rfl⟩ hstep, setBackend_self .., rfl⟩

/-- The numbers that are left in a block can all be used. -/
theorem use_block (hi : i < 4096) (m : Nat) (hb : s.backends i p = some b)
    (hm : m < b.remainNumberCount) (hlt : b.currentSequenceNumber + m < 2 ^ 52)
    (hrun : Run step Dense .init s) :
    ∃ s', Run step Dense .init s' ∧ (i, b.currentSequenceNumber + m) ∈ s'.issued := by
  induction m generalizing s b with
  | zero =>
    obtain ⟨t, ht, -, hissued⟩ := generate_next hi hb hm hlt hrun
    exact ⟨t, ht, hissued ▸ mem_cons_self⟩
  | succ m ih =>
    obtain ⟨t, ht, hbt, -⟩ := generate_next hi hb (by omega) (by omega) hrun
    obtain ⟨u, hu, hmem⟩ := ih hbt (by dsimp only; omega) (by dsimp only; omega) ht
    refine ⟨u, hu, ?_⟩
    rwa [Nat.add_right_comm, Nat.add_assoc] at hmem

end Last

/-- **The last number on the last server**: with numbers below `2 ^ 52` and a sequence that hands
out one value after the other, the id `DIR_HASH_TABLE_PATH_NOT_EXIST` is made. -/
theorem special_id_made :
    ∃ s : Servers, Run Servers.step Dense .init s ∧
      ∃ id ∈ s.ids, id.toNat = pathNotExist := by
  obtain ⟨s, hrun, hnone, hlen, hall⟩ := rounds (i := 4095) (by decide) 0 (2 ^ 47 - 1) (by decide)
  obtain ⟨t, hrun, hb, -⟩ := draw_next (by decide) (by decide) hrun hnone hlen hall
  obtain ⟨u, hrun, hmem⟩ := use_block (by decide) 29 hb (by decide) (by decide) hrun
  refine ⟨u, hrun, _, mem_map.mpr ⟨_, hmem, rfl⟩, ?_⟩
  rw [toNat_generateInodeIdBySeqAndNodeId (by decide)]
  rfl

end FalconFS.InodeSequence
