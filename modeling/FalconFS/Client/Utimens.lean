/-
# Times on their way to the inode row and back

`DoUtimens` of `fuse_main.cpp` gets two times in the form of `utimensat`: seconds since 1970 and
nanoseconds, with two values of the nanoseconds that say "now" and "omit".  It passes the seconds
on, `FalconUtimeNsHandle` stores them in columns that count microseconds since 2000, and
`ConvertTimestampFromPGToUnix` reads the columns as such and returns microseconds for nanoseconds.
Only the first time is asked for "now", "omit" is never asked for, and the handler takes its clock
for both when one of the numbers is -1.

`utimens_survives_iff` says which times come back: those of the clock at a whole second, and others
only if the numbers happen to be the same.  A time that is given and stored never does.
-/
import FalconFS.Metadb.RowRequests

namespace FalconFS.Utimens

open ShardTable (Byte)
open InodeRows

/-! ## 1. The client -/

/-- `struct timespec` -/
@[ext] structure Timespec where
  tvSec : BitVec 64
  tvNsec : BitVec 64
  deriving DecidableEq

def utimeNow : BitVec 64 := (1 <<< 30) - 1
def utimeOmit : BitVec 64 := (1 <<< 30) - 2

abbrev Times := Timespec × Timespec

/-- The two arguments of `FalconUtimens`, whose default is -1. -/
def utimensArgs : Option Times → BitVec 64 × BitVec 64
  | none => (-1, -1)
  | some (a, m) => if a.tvNsec = utimeNow then (-1, -1) else (a.tvSec, m.tvSec)

section Calls

/-! `resolve` is what parsing a path leads to, and `self` the worker that the client asks. -/

variable (cfg : Placement) (resolve : List Byte → Option Parsed) (self : ServerId)

/-- `DoUtimens`, with the two readings of the server's clock; `none` is an error. -/
def doUtimens (t : Tables) (path : List Byte) (tv : Option Times) (now now' : BitVec 64) :
    Option Tables :=
  if path = [] then none
  else (resolve path).bind fun p =>
    handle cfg t (.utimeNs self p (utimensArgs tv).1 (utimensArgs tv).2 now now')

def secondsDiffBetweenPgAndUnix : BitVec 64 := 946684800

/-- `ConvertTimestampFromPGToUnix` -/
def convertTimestampFromPGToUnix (t : BitVec 64) : Timespec where
  tvSec := t / 1000000 + secondsDiffBetweenPgAndUnix
  tvNsec := t % 1000000

/-- `st_atim` and `st_mtim` of `FalconGetStat` -/
def falconGetStat (t : Tables) (path : List Byte) : Option Times :=
  (resolve path).bind fun p =>
    if cfg.home (cfg.key p) = self then
      (t self (cfg.key p)).map fun r =>
        (convertTimestampFromPGToUnix r.stAtim, convertTimestampFromPGToUnix r.stMtim)
    else none

end Calls

/-! ## 2. What was asked for -/

/-- A clock in microseconds since 2000, as a time. -/
def clockTime (clock : BitVec 64) : Timespec where
  tvSec := .ofInt 64 (clock.toInt / 1000000 + 946684800)
  tvNsec := .ofInt 64 (clock.toInt % 1000000 * 1000)

/-- What one of the two times should be afterwards, when it was `previous` before. -/
def Timespec.requested (tv : Timespec) (clock : BitVec 64) (previous : Timespec) : Timespec :=
  if tv.tvNsec = utimeNow then clockTime clock
  else if tv.tvNsec = utimeOmit then previous
  else ⟨tv.tvSec, tv.tvNsec / 1000 * 1000⟩

def requested (tv : Option Times) (now now' : BitVec 64) (previous : Times) : Times :=
  match tv with
  | none => (clockTime now, clockTime now')
  | some (a, m) => (a.requested now previous.1, m.requested now' previous.2)

/-! ## 3. Which times come back -/

/-- The column `v` is read as `tv`. -/
def ReadAs (v : BitVec 64) (tv : Timespec) : Prop :=
  v.toNat / 1000000 + 946684800 = tv.tvSec.toNat ∧ v.toNat % 1000000 = tv.tvNsec.toNat

/-- The clock stands at a whole second, after 2000. -/
def WholeSecond (clock : BitVec 64) : Prop := clock.toNat < 2 ^ 63 ∧ clock.toNat % 1000000 = 0

/-- The column has the time of the clock. -/
def FromClock (tv : Timespec) (clock : BitVec 64) (previous : Timespec) : Prop :=
  if tv.tvNsec = utimeNow then WholeSecond clock
  else if tv.tvNsec = utimeOmit then ReadAs clock previous
  else ReadAs clock ⟨tv.tvSec, tv.tvNsec / 1000 * 1000⟩

/-- The column has the seconds of the time, whatever they stand for. -/
def FromSeconds (tv : Timespec) (clock : BitVec 64) (previous : Timespec) : Prop :=
  if tv.tvNsec = utimeNow then ReadAs tv.tvSec (clockTime clock)
  else tv.tvNsec = utimeOmit ∧ ReadAs tv.tvSec previous

/-- **The condition.** -/
def Survives (tv : Option Times) (now now' : BitVec 64) (previous : Times) : Prop :=
  match tv with
  | none => WholeSecond now ∧ WholeSecond now'
  | some (a, m) =>
    if a.tvNsec = utimeNow ∨ a.tvSec = -1 ∨ m.tvSec = -1 then
      FromClock a now previous.1 ∧ FromClock m now' previous.2
    else FromSeconds a now previous.1 ∧ FromSeconds m now' previous.2

instance (clock : BitVec 64) : Decidable (WholeSecond clock) :=
  inferInstanceAs (Decidable (_ ∧ _))

variable {tv previous : Timespec} {clock : BitVec 64}

theorem convert_eq_iff {v : BitVec 64} : convertTimestampFromPGToUnix v = tv ↔ ReadAs v tv := by
  have hsec : (convertTimestampFromPGToUnix v).tvSec.toNat = v.toNat / 1000000 + 946684800 := by
    have hdiv : (v / 1000000).toNat = v.toNat / 1000000 := BitVec.toNat_udiv
    have hdiff : secondsDiffBetweenPgAndUnix.toNat = 946684800 := rfl
    rw [convertTimestampFromPGToUnix, BitVec.toNat_add, hdiv, hdiff]
    omega
  have hnsec : (convertTimestampFromPGToUnix v).tvNsec.toNat = v.toNat % 1000000 :=
    BitVec.toNat_umod
  rw [Timespec.ext_iff, ← BitVec.toNat_inj, ← BitVec.toNat_inj, ReadAs, ← hsec, ← hnsec]

theorem readAs_clockTime_iff : ReadAs clock (clockTime clock) ↔ WholeSecond clock := by
  have hint := BitVec.toInt_eq_toNat_cond clock
  have hword : ((2 ^ 64 : Nat) : Int) = 18446744073709551616 := by decide
  unfold ReadAs WholeSecond clockTime
  rw [BitVec.toNat_ofInt, BitVec.toNat_ofInt]
  generalize clock.toInt = i at *
  generalize clock.toNat = n at *
  rw [hword] at hint ⊢
  split at hint
  case isTrue hpos =>
    have hsec : (i / 1000000 + 946684800) % 18446744073709551616 =
        ((n / 1000000 + 946684800 : Nat) : Int) := by
      rw [Int.emod_eq_of_lt] <;> omega
    have hnsec :
        i % 1000000 * 1000 % 18446744073709551616 = ((n % 1000000 * 1000 : Nat) : Int) := by
      rw [Int.emod_eq_of_lt] <;> omega
    rw [hsec, hnsec, Int.toNat_natCast, Int.toNat_natCast]
    omega
  case isFalse hneg =>
    -- the unsigned seconds are those of a time far in the future
    have hsec : n / 1000000 + 946684800 ≠
        ((i / 1000000 + 946684800) % 18446744073709551616).toNat := by omega
    exact iff_of_false (fun h => hsec h.1) (by omega)

/-- **A time that is given and stored does not come back.** -/
theorem not_readAs_given (tv : Timespec) :
    ¬ ReadAs tv.tvSec ⟨tv.tvSec, tv.tvNsec / 1000 * 1000⟩ := by
  rintro ⟨hsec, hnsec⟩
  -- the first equation has one solution, and its microseconds are no whole thousands
  have hmul : (tv.tvNsec / 1000 * 1000).toNat = tv.tvNsec.toNat / 1000 * 1000 := by
    have hdiv : (tv.tvNsec / 1000).toNat = tv.tvNsec.toNat / 1000 := BitVec.toNat_udiv
    rw [BitVec.toNat_mul, hdiv, show (1000 : BitVec 64).toNat = 1000 from rfl]
    omega
  rw [hmul] at hnsec
  dsimp only at hsec
  omega

theorem fromClock_iff :
    convertTimestampFromPGToUnix clock = tv.requested clock previous ↔
      FromClock tv clock previous := by
  unfold Timespec.requested FromClock
  split
  · rw [convert_eq_iff, readAs_clockTime_iff]
  · split <;> exact convert_eq_iff

theorem fromSeconds_iff :
    convertTimestampFromPGToUnix tv.tvSec = tv.requested clock previous ↔
      FromSeconds tv clock previous := by
  unfold Timespec.requested FromSeconds
  split
  · exact convert_eq_iff
  · split
    case isTrue h => rw [convert_eq_iff, and_iff_right h]
    case isFalse h =>
      rw [convert_eq_iff, iff_false_intro (not_readAs_given tv), false_iff, not_and]
      exact fun h' => absurd h' h

/-- The columns after the request. -/
theorem changeRow_utimeNs {cfg : Placement} {self : ServerId} {rel rel' : InodeRelation}
    {p : Parsed} {stAtim stMtim now now' : BitVec 64}
    (h : changeRow cfg self (utimeNsArgs stAtim stMtim now now') rel p = some rel') :
    cfg.home (cfg.key p) = self ∧ ∃ r r', rel (cfg.key p) = some r ∧ rel' (cfg.key p) = some r' ∧
      (r'.stAtim, r'.stMtim) =
        if stAtim = -1 ∨ stMtim = -1 then (now, now') else (stAtim, stMtim) := by
  unfold changeRow at h
  dsimp only at h
  split at h
  case isFalse => cases h
  case isTrue hhome =>
    obtain ⟨⟨found, rel₁⟩, hsearch, hrel⟩ := Option.bind_eq_some_iff.mp h
    obtain ⟨r, hfound, rfl⟩ := Option.map_eq_some_iff.mp hrel
    obtain ⟨hr, ⟨hnone, -⟩ | ⟨r', v, hr', happly, hupdate⟩⟩ := searchAndUpdate_some hsearch
    · rw [hr, hnone] at hfound
      cases hfound
    · have hmodified : (utimeNsArgs stAtim stMtim now now').apply r' =
          some (some ((utimeNsArgs stAtim stMtim now now').modified r')) := by
        unfold utimeNsArgs
        split <;> rfl
      refine ⟨hhome, r', (utimeNsArgs stAtim stMtim now now').modified r', hr', ?_, ?_⟩
      · dsimp only at hupdate ⊢
        rw [hupdate, Function.update_self]
        exact Option.some.inj (happly.symm.trans hmodified)
      · unfold utimeNsArgs
        split <;> rfl

/-- **Which times come back**: after a `DoUtimens` without an error, `FalconGetStat` returns what
was asked for exactly under the condition. -/
theorem utimens_survives_iff (cfg : Placement) (resolve : List Byte → Option Parsed)
    (self : ServerId) (t t' : Tables) (path : List Byte) (tv : Option Times)
    (now now' : BitVec 64) (h : doUtimens cfg resolve self t path tv now now' = some t') :
    ∃ previous, falconGetStat cfg resolve self t path = some previous ∧
      (falconGetStat cfg resolve self t' path = some (requested tv now now' previous) ↔
        Survives tv now now' previous) := by
  unfold doUtimens at h
  split at h
  case isTrue => cases h
  case isFalse =>
    obtain ⟨p, hp, hhandle⟩ := Option.bind_eq_some_iff.mp h
    obtain ⟨rel', hchange, rfl⟩ := Option.map_eq_some_iff.mp hhandle
    obtain ⟨hhome, r, r', hr, hr', hcolumns⟩ := changeRow_utimeNs hchange
    refine ⟨(convertTimestampFromPGToUnix r.stAtim, convertTimestampFromPGToUnix r.stMtim),
      by simp [falconGetStat, hp, hhome, hr], ?_⟩
    have hstat : falconGetStat cfg resolve self (Function.update t self rel') path =
        some (convertTimestampFromPGToUnix r'.stAtim, convertTimestampFromPGToUnix r'.stMtim) := by
      simp [falconGetStat, hp, hhome, hr']
    rw [hstat, Option.some.injEq]
    match tv with
    | none =>
      rw [utimensArgs, if_pos (.inl rfl)] at hcolumns
      obtain ⟨ha, hm⟩ := Prod.mk.inj hcolumns
      rw [requested, Prod.mk.injEq, ha, hm, convert_eq_iff, convert_eq_iff, readAs_clockTime_iff,
        readAs_clockTime_iff, Survives]
    | some (a, m) =>
      by_cases hnow : a.tvNsec = utimeNow
      · rw [utimensArgs, if_pos hnow, if_pos (.inl rfl)] at hcolumns
        obtain ⟨ha, hm⟩ := Prod.mk.inj hcolumns
        rw [requested, Prod.mk.injEq, ha, hm, fromClock_iff, fromClock_iff, Survives,
          if_pos (.inl hnow)]
      · by_cases hminus : a.tvSec = -1 ∨ m.tvSec = -1
        · rw [utimensArgs, if_neg hnow, if_pos hminus] at hcolumns
          obtain ⟨ha, hm⟩ := Prod.mk.inj hcolumns
          rw [requested, Prod.mk.injEq, ha, hm, fromClock_iff, fromClock_iff, Survives,
            if_pos (.inr hminus)]
        · rw [utimensArgs, if_neg hnow, if_neg hminus] at hcolumns
          obtain ⟨ha, hm⟩ := Prod.mk.inj hcolumns
          rw [requested, Prod.mk.injEq, ha, hm, fromSeconds_iff, fromSeconds_iff, Survives,
            if_neg (by tauto)]

/-- One server, on which every path leads to a file of the beginning of 2000. -/
private def oneServer : Placement := ⟨true, fun _ => 0⟩
private def newFile : Tables := fun _ _ => some (createTuple 0 ⟨⟨0, [97]⟩, 7, 0⟩)
private def oneFile : List Byte → Option Parsed := fun _ => some ⟨0, [97]⟩

/-- "Now" comes back when the clock stands at a whole second. -/
theorem utimens_now_survives :
    ∃ t', doUtimens oneServer oneFile 0 newFile [97] none 1000000 2000000 = some t' ∧
      falconGetStat oneServer oneFile 0 t' [97] = some (⟨946684801, 0⟩, ⟨946684802, 0⟩) := by
  refine ⟨_, rfl, ?_⟩
  obtain ⟨previous, -, hiff⟩ := utimens_survives_iff oneServer oneFile 0 newFile _ [97] none
    1000000 2000000 rfl
  exact hiff.mpr ⟨by decide, by decide⟩

/-- The second 1000000000, of 2001, comes back as a second of January 2000. -/
theorem utimens_given_lost :
    let time : Timespec := ⟨1000000000, 0⟩
    ∃ t', doUtimens oneServer oneFile 0 newFile [97] (some (time, time)) 0 0 = some t' ∧
      falconGetStat oneServer oneFile 0 t' [97] = some (⟨946685800, 0⟩, ⟨946685800, 0⟩) ∧
      ∀ previous, requested (some (time, time)) 0 0 previous = (time, time) := by
  exact ⟨_, rfl, by decide, fun _ => rfl⟩

end FalconFS.Utimens
