/-
# Ranges of slice ids

`FETCH_SLICE_ID` hands out ids from a counter that is one row of a table: it reads the row through
its snapshot, writes back the counter increased by the requested count, and returns the two values
as a range.  The first call finds no row and inserts one.  Reading and writing are separate steps;
between them other transactions run.

The two facts about PostgreSQL that this rests on are in the step `write`: it waits while another
transaction has an uncommitted version of the row, and it raises an error if the row is not the
version that was read, be it that the row was updated or that it was inserted by then.

`committed_disjoint`: the committed ranges follow each other without a gap, so that no id is handed
out twice.
-/
import FalconFS.Basic
import FalconFS.Lib.Machine

namespace FalconFS.SliceIds

open Machine Function

/-! ## 1. The table and its transactions -/

/-- A version of the row with key `slice_id`. -/
structure Version where
  id : Nat
  sliceId : UInt64
  deriving DecidableEq

/-- The counter that a row stands for. -/
def counter (row : Option Version) : Nat := row.elim 0 fun v => v.sliceId.toNat

/-- The answer to a call: `[start, stop)`, for `count` ids. -/
structure Range where
  start : UInt64
  stop : UInt64
  count : UInt32
  deriving DecidableEq

/-- What `FalconFetchSliceIdHandle` computes from the row it has found. -/
def falconFetchSliceIdHandle (seen : Option Version) (count : UInt32) : Range :=
  match seen with
  | some v => ⟨v.sliceId, v.sliceId + count.toUInt64, count⟩
  | none => ⟨0, count.toUInt64, count⟩

/-- Where a session is: outside a transaction; in one, with the ranges it has got so far and what
its snapshot shows of the row; or in a call, between the scan and the write. -/
inductive Pc
  | idle
  | active (calls : List Range) (snapshot : Option Version)
  | scanned (calls : List Range) (seen : Option Version) (count : UInt32)
  deriving DecidableEq

def Pc.calls : Pc → List Range
  | .idle => []
  | .active calls _ => calls
  | .scanned calls _ _ => calls

/-- The table: its committed row, and the version that the transaction of `writer` has put there. -/
structure State where
  next : Nat
  latest : Option Version
  writer : Option Sid
  own : Option Version
  pcs : Sid → Pc
  committed : List Range

namespace State

def init (row : Option UInt64) : State where
  next := 1
  latest := row.map (⟨0, ·⟩)
  writer := none
  own := none
  pcs _ := .idle
  committed := []

variable (s : State) (b : Sid)

/-- The row as it is for the session: its own version, if it has written one. -/
def current : Option Version := if s.writer = some b then s.own else s.latest

def setPc (pc : Pc) : State := { s with pcs := update s.pcs b pc }

/-- The update or the insert goes through. -/
def put (calls : List Range) (r : Range) : State :=
  { s with
    next := s.next + 1
    writer := some b
    own := some ⟨s.next, r.stop⟩
    pcs := update s.pcs b (.active (calls ++ [r]) (some ⟨s.next, r.stop⟩)) }

/-- The transaction ends, by an error or otherwise, and its version is gone. -/
def rollback : State :=
  if s.writer = some b then { s.setPc b .idle with writer := none, own := none }
  else s.setPc b .idle

def commit (calls : List Range) : State :=
  if s.writer = some b then
    { s.setPc b .idle with
      latest := s.own
      writer := none
      own := none
      committed := s.committed ++ calls }
  else { s.setPc b .idle with committed := s.committed ++ calls }

/-- The counter stays below 2^63. -/
def Below : Prop := counter s.latest < 2 ^ 63 ∧ counter s.own < 2 ^ 63

instance : Decidable s.Below := inferInstanceAs (Decidable (_ ∧ _))

end State

inductive Event
  | begin (b : Sid)
  /-- a new statement takes a new snapshot, where the isolation level says so -/
  | snapshot (b : Sid)
  | scan (b : Sid) (count : UInt32)
  | write (b : Sid)
  | commit (b : Sid)
  | abort (b : Sid)

def step (s : State) : Event → Option State
  | .begin b =>
    match s.pcs b with
    | .idle => some (s.setPc b (.active [] s.latest))
    | _ => none
  | .snapshot b =>
    match s.pcs b with
    | .active calls _ => some (s.setPc b (.active calls (s.current b)))
    | _ => none
  | .scan b count =>
    match s.pcs b with
    | .active calls seen => some (s.setPc b (.scanned calls seen count))
    | _ => none
  | .write b =>
    match s.pcs b with
    | .scanned calls seen count =>
      -- another transaction's version is waited for
      if s.writer ≠ none ∧ s.writer ≠ some b then none
      -- the row is the one that was read, or there is still none
      else if seen = s.current b then
        some (s.put b calls (falconFetchSliceIdHandle seen count))
      else some (s.rollback b)
    | _ => none
  | .commit b =>
    match s.pcs b with
    | .active calls _ => some (s.commit b calls)
    | _ => none
  | .abort b => if s.pcs b = .idle then none else some (s.rollback b)

/-! ## 2. Ranges that follow each other -/

/-- Ranges without a gap from `a` to `c`, each as long as its count says. -/
def Follows (a : Nat) : List Range → Nat → Prop
  | [], c => a = c
  | r :: rs, c =>
    r.start.toNat = a ∧ r.stop.toNat = a + r.count.toNat ∧ Follows r.stop.toNat rs c

variable {a c : Nat} {rs : List Range} {b : Sid} {pc : Pc}

theorem Follows.append {b : Nat} {rs' : List Range} (h : Follows a rs b) (h' : Follows b rs' c) :
    Follows a (rs ++ rs') c := by
  induction rs generalizing a with
  | nil => exact (show a = b from h) ▸ h'
  | cons r rs ih => exact ⟨h.1, h.2.1, ih h.2.2⟩

theorem Follows.le_start (h : Follows a rs c) : ∀ r ∈ rs, a ≤ r.start.toNat := by
  induction rs generalizing a with
  | nil => nofun
  | cons r rs ih =>
    obtain ⟨hstart, hstop, hrest⟩ := h
    rintro r' (_ | ⟨_, hr'⟩)
    · exact Nat.le_of_eq hstart.symm
    · exact Nat.le_trans (by omega) (ih hrest r' hr')

/-- `[start, stop)` -/
def Range.Has (r : Range) (id : Nat) : Prop := r.start.toNat ≤ id ∧ id < r.stop.toNat

/-- Ranges that follow each other have the requested lengths and no id in common. -/
theorem Follows.disjoint (h : Follows a rs c) :
    (∀ r ∈ rs, r.stop.toNat = r.start.toNat + r.count.toNat) ∧
      rs.Pairwise fun r r' => ∀ id, r.Has id → ¬ r'.Has id := by
  induction rs generalizing a with
  | nil => exact ⟨nofun, .nil⟩
  | cons r rs ih =>
    obtain ⟨hstart, hstop, hrest⟩ := h
    refine ⟨?_, .cons (fun r' hr' id hid hid' => ?_) (ih hrest).2⟩
    · rintro r' (_ | ⟨_, hr'⟩)
      · omega
      · exact (ih hrest).1 r' hr'
    · have := hrest.le_start r' hr'
      exact absurd hid.2 (by have := hid'.1; omega)

/-! ## 3. The committed ranges -/

/-- Below 2^63 the addition of the handler does not wrap. -/
theorem fetch_follows {seen : Option Version} (count : UInt32) (h : counter seen < 2 ^ 63) :
    Follows (counter seen) [falconFetchSliceIdHandle seen count]
      (falconFetchSliceIdHandle seen count).stop.toNat := by
  have hcount := count.toNat_lt
  cases seen with
  | none => simp [Follows, counter, falconFetchSliceIdHandle]
  | some v =>
    simp only [counter, Option.elim_some] at h
    have hstop : (v.sliceId + count.toUInt64).toNat = v.sliceId.toNat + count.toNat := by
      rw [UInt64.toNat_add, UInt32.toNat_toUInt64]
      exact Nat.mod_eq_of_lt (by omega)
    exact ⟨rfl, hstop, rfl⟩

/-- The committed ranges lead to the counter of the row, those of the transaction that has written
it from there to its own version, and nobody else has got any. -/
structure Inv (base : Nat) (s : State) : Prop where
  followed : Follows base s.committed (counter s.latest)
  writing : ∀ b, s.writer = some b → Follows (counter s.latest) (s.pcs b).calls (counter s.own)
  others : ∀ b, s.writer ≠ some b → (s.pcs b).calls = []

variable {base : Nat} {s s' : State}

theorem Inv.setPc (h : Inv base s) (hpc : pc.calls = (s.pcs b).calls) :
    Inv base (s.setPc b pc) := by
  have hcalls : ∀ b', ((s.setPc b pc).pcs b').calls = (s.pcs b').calls := by
    intro b'
    simp only [State.setPc, update_apply]
    split_ifs with hb
    · rw [hpc, hb]
    · rfl
  exact ⟨h.followed, fun b' hb' => (hcalls b').symm ▸ h.writing b' hb',
    fun b' hb' => (hcalls b').trans (h.others b' hb')⟩

theorem Inv.put (h : Inv base s) {count : UInt32} (hpc : s.pcs b = pc)
    (hw : s.writer = none ∨ s.writer = some b) (hbelow : s.Below) :
    Inv base (s.put b pc.calls (falconFetchSliceIdHandle (s.current b) count)) := by
  have hcur : Follows (counter s.latest) pc.calls (counter (s.current b)) := by
    rw [State.current]
    split_ifs with hb
    · exact hpc ▸ h.writing b hb
    · rw [← hpc, h.others b hb]
      rfl
  have hlt : counter (s.current b) < 2 ^ 63 := by
    rw [State.current]
    split_ifs
    · exact hbelow.2
    · exact hbelow.1
  refine ⟨h.followed, ?_, fun b' hb' => ?_⟩
  · rintro _ ⟨⟩
    simp only [State.put, update_self, Pc.calls]
    exact hcur.append (fetch_follows count hlt)
  · have hne : b' ≠ b := fun heq => hb' (heq ▸ rfl)
    simp only [State.put, update_of_ne hne]
    refine h.others b' fun hb'' => hne ?_
    rcases hw with hw | hw <;> simp_all

/-- When the transaction that has written is over, nobody has any range. -/
theorem Inv.calls_idle (h : Inv base s) (hb : s.writer = some b) (b' : Sid) :
    ((s.setPc b .idle).pcs b').calls = [] := by
  simp only [State.setPc, update_apply]
  split_ifs with hb'
  · rfl
  · exact h.others b' fun heq => hb' (Option.some.inj (heq.symm.trans hb))

theorem Inv.rollback (h : Inv base s) (b : Sid) : Inv base (s.rollback b) := by
  rw [State.rollback]
  split_ifs with hb
  · exact ⟨h.followed, nofun, fun b' _ => h.calls_idle hb b'⟩
  · exact h.setPc (h.others b hb).symm

theorem Inv.commit (h : Inv base s) (hpc : s.pcs b = pc) : Inv base (s.commit b pc.calls) := by
  subst hpc
  rw [State.commit]
  split_ifs with hb
  · exact ⟨h.followed.append (h.writing b hb), nofun, fun b' _ => h.calls_idle hb b'⟩
  · rw [h.others b hb, List.append_nil]
    exact h.setPc (h.others b hb).symm

theorem inv_step (e : Event) (h : Inv base s) (hbelow : s.Below) (hs : step s e = some s') :
    Inv base s' := by
  cases e with
  | begin | snapshot | scan =>
    simp only [step] at hs
    split at hs <;> cases hs
    case h_1 hpc => exact h.setPc (by rw [hpc]; rfl)
  | write b =>
    simp only [step] at hs
    split at hs
    case h_1 calls seen count hpc =>
      split_ifs at hs with hw hseen <;> cases hs
      · exact hseen ▸ h.put hpc (by tauto) hbelow
      · exact h.rollback b
    case h_2 => cases hs
  | commit b =>
    simp only [step] at hs
    split at hs <;> cases hs
    case h_1 hpc => exact h.commit hpc
  | abort b =>
    simp only [step] at hs
    split_ifs at hs
    cases hs
    exact h.rollback b

/-- **No id is handed out twice.**  In every interleaving the ranges of the committed calls have the
requested lengths and are pairwise disjoint, as long as the counter stays below 2^63. -/
theorem committed_disjoint (row : Option UInt64) (s : State)
    (hrun : Run step (fun s _ => s.Below) (State.init row) s) :
    (∀ r ∈ s.committed, r.stop.toNat = r.start.toNat + r.count.toNat) ∧
      s.committed.Pairwise fun r r' => ∀ id, r.Has id → ¬ r'.Has id := by
  have hinit : Inv (counter (State.init row).latest) (State.init row) :=
    ⟨rfl, nofun, fun _ _ => rfl⟩
  have h := hrun.invariant hinit fun s e s' h hbelow hs => inv_step e h hbelow hs
  exact h.followed.disjoint

/-- Two first calls at once: the insert of the second one fails, and it calls again. -/
def firstCalls : List Event :=
  [.begin 1, .begin 2, .scan 1 5, .scan 2 3, .write 1, .commit 1, .write 2,
    .begin 2, .scan 2 3, .write 2, .commit 2]

theorem first_calls_disjoint :
    ∃ s, Run step (fun s _ => s.Below) (State.init none) s ∧
      s.committed = [⟨0, 5, 5⟩, ⟨5, 8, 3⟩] ∧
      s.committed.Pairwise fun r r' => ∀ id, r.Has id → ¬ r'.Has id := by
  let last := exec (fun s e => if s.Below then step s e else none) (State.init none) firstCalls
  have hrun : Run step (fun s _ => s.Below) (State.init none) (last.get (by decide)) :=
    Run.of_exec_if firstCalls (Option.some_get _).symm
  exact ⟨_, hrun, by decide, (committed_disjoint none _ hrun).2⟩

end FalconFS.SliceIds
