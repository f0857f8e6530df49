/-
# Listing a directory from the client

`FalconReadDir` goes through a directory in epochs.  In each it asks every worker that is not done
for a page, puts the names of all pages into `partialEntryVec` and their modes into `fileModes`,
and gives them to the filler of FUSE.  When the filler refuses an entry, the call returns and the
next one goes on with it; when all are given, the next call starts the next epoch.

An epoch clears `partialEntryVec` but not `fileModes`.  So the modes of an epoch stand behind
those of all the epochs before, while they are read at the index of the name.  Every name arrives,
and arrives once; its mode is the one of the entry that had its index in the first epochs.  The
exact condition is `OwnModes`.

Two more conditions come from the numbers.  With more than `2 ^ 20` workers a page has room for no
entry.  The offsets given to the filler are counted in an `int`, whose overflow is undefined; an
offset of 0 would start the listing again.

Sections 1 and 2 are the source.  Section 3 says what the epochs are, from the entries alone, and
section 4 is about the loop over the entries.  `ReadDirListing.lean` follows the calls through the
epochs, whatever the filler accepts.
-/
import Mathlib.Data.List.Perm.Basic
import Mathlib.Data.List.Nodup
import FalconFS.Basic

namespace FalconFS.ClientReadDir

/-! ## 1. One call -/

/-- `OneReadDirResponse` -/
structure DirEntry (Name : Type) where
  fileName : Name
  stMode : BitVec 32
  deriving DecidableEq

/-- `ReadDirResponse`.  A null `last_file_name` is `none`. -/
structure Response (Name : Type) where
  lastShardIndex : Int
  lastFileName : Option Name
  resultList : List (DirEntry Name)

/-- A map of connections is the list of its keys, `ipPort`.  In `lastFileNames` no key and the
empty name are the same to every reader, and are `none`. -/
structure DirOpenInstance (Id Name : Type) where
  workers : List Id
  partialEntryVec : List Name
  fileModes : List (BitVec 32)
  lastFileNames : Id → Option Name
  lastShardIndexes : Id → Option Int
  offset : Nat
  workingWorkers : List Id

/-- What a call finds outside: the workers that `GetAllWorkerConnection` returns,
`Connection::ReadDir` of each, and the order in which a map is gone through.  That may depend on
the past of the map; here it may depend on the number of entries read so far. -/
structure Client (Id Name : Type) where
  workerInfo : List Id
  readDir : Id → Nat → Int → Option Name → Except ErrorCode (Response Name)
  order : Nat → List Id → List Id

variable {Id Name : Type}

section Calls

variable [DecidableEq Id]

namespace DirOpenInstance

def new : DirOpenInstance Id Name := ⟨[], [], [], fun _ => none, fun _ => none, 0, []⟩

/-- `SetAllWorkerInfo`; `emplace` leaves a value that is there. -/
def setAllWorkerInfo (d : DirOpenInstance Id Name) (tmpWorkers : List Id) :
    DirOpenInstance Id Name :=
  { d with
    workers := tmpWorkers
    workingWorkers := tmpWorkers
    lastShardIndexes := fun id =>
      if id ∈ tmpWorkers then some ((d.lastShardIndexes id).getD (-1)) else d.lastShardIndexes id }

/-- The answer of one worker. -/
def takePage (d : DirOpenInstance Id Name) (fileNumberPerWorker : Nat) (ipPort : Id)
    (r : Response Name) : DirOpenInstance Id Name :=
  let finished := r.resultList.length < fileNumberPerWorker
  { d with
    lastShardIndexes := Function.update d.lastShardIndexes ipPort (some r.lastShardIndex)
    lastFileNames :=
      Function.update d.lastFileNames ipPort (if finished then none else r.lastFileName)
    partialEntryVec := d.partialEntryVec ++ r.resultList.map (·.fileName)
    fileModes := d.fileModes ++ r.resultList.map (·.stMode)
    workingWorkers := if finished then d.workingWorkers else d.workingWorkers ++ [ipPort] }

end DirOpenInstance

/-- `std::min(FILE_NUMBER_PER_EPOCH / workerNotFinished, FILE_NUMBER_PER_WORKER)` -/
def fileNumberPerWorker (workerNotFinished : Nat) : Nat := min (1048576 / workerNotFinished) 4096

/-- The loop over the workers; an error ends the call. -/
def readWorkers (c : Client Id Name) (size : Nat) :
    List Id → DirOpenInstance Id Name → DirOpenInstance Id Name × ErrorCode
  | [], d => (d, .success)
  | ipPort :: ids, d =>
    match c.readDir ipPort size ((d.lastShardIndexes ipPort).getD 0) (d.lastFileNames ipPort) with
    | .error e => (d, e)
    | .ok r => readWorkers c size ids (d.takePage size ipPort r)

/-- An epoch, when there is nothing left to give and some worker is not done. -/
def load (c : Client Id Name) (d : DirOpenInstance Id Name) : DirOpenInstance Id Name × ErrorCode :=
  if d.partialEntryVec.length ≤ d.offset ∧ d.workingWorkers ≠ [] then
    let workers := c.order d.fileModes.length d.workingWorkers
    readWorkers c (fileNumberPerWorker d.workingWorkers.length) workers
      { d with workers := workers, workingWorkers := [], partialEntryVec := [], offset := 0 }
  else (d, .success)

/-- What the filler is given; "." and ".." come without a `stat`. -/
inductive Given (Name : Type) where
  | dot
  | dotDot
  | entry (e : DirEntry Name)

/-- The buffer of a call: for how many entries it has room, and those it has taken with their
offsets. -/
structure Buf (Name : Type) where
  room : Nat
  taken : List (Given Name × Int)

/-- `filler`, which returns 1 when the buffer is full. -/
def filler (b : Buf Name) (g : Given Name) (off : Int) : Buf Name × Bool :=
  if b.room = 0 then (b, true) else (⟨b.room - 1, b.taken ++ [(g, off)]⟩, false)

/-- `idx++` of an `int`: undefined at `INT_MAX`. -/
def increment (idx : Int) : Option Int := if idx < 2 ^ 31 - 1 then some (idx + 1) else none

/-- The loop over the entries, with `n` of them left from index `i` on, and the index of the entry
that was refused.  `none` is undefined behaviour. -/
def fill (d : DirOpenInstance Id Name) : Nat → Nat → Int → Buf Name → Option (Option Nat × Buf Name)
  | 0, _, _, b => some (none, b)
  | n + 1, i, idx, b => do
    let name ← d.partialEntryVec[i]?
    let mode ← d.fileModes[i]?
    let next ← increment idx
    let r := filler b (.entry ⟨name, mode⟩) idx
    if r.2 then some (some i, r.1) else fill d n (i + 1) next r.1

/-- "." and ".." in an empty buffer; what the filler returns is not looked at. -/
def dots (room : Nat) : Buf Name := (filler (filler ⟨room, []⟩ .dot 1).1 .dotDot 2).1

/-- The start of a call: at offset 0 the instance gets the workers, and "." and ".." come first. -/
def start (c : Client Id Name) (d : DirOpenInstance Id Name) (offset : Int) (room : Nat) :
    DirOpenInstance Id Name × Int × Buf Name :=
  if offset = 0 then
    (d.setAllWorkerInfo c.workerInfo, 3, dots room)
  else (d, offset.bmod (2 ^ 32), ⟨room, []⟩)

/-- The end of a call, `offset` being an `uint32_t`. -/
def give (d : DirOpenInstance Id Name) (idx : Int) (b : Buf Name) :
    Option (DirOpenInstance Id Name × Buf Name × ErrorCode) :=
  let size := d.partialEntryVec.length
  (fill d (size - d.offset) d.offset idx b).map fun r =>
    ({ d with offset := r.1.getD size % 2 ^ 32 }, r.2, .success)

/-- `FalconReadDir`, with the instance of its handle and a filler that has room for `room`
entries. -/
def falconReadDir (c : Client Id Name) (d : DirOpenInstance Id Name) (offset : Int) (room : Nat) :
    Option (DirOpenInstance Id Name × Buf Name × ErrorCode) :=
  let s := start c d offset room
  let l := load c s.1
  if l.2 = .success then give l.1 s.2.1 s.2.2 else some (l.1, s.2.2, l.2)

/-! ## 2. A sequence of calls -/

/-- One handle: the offset to go on with, and all that the calls have delivered. -/
structure Session (Id Name : Type) where
  inst : DirOpenInstance Id Name
  offset : Int
  taken : List (Given Name × Int)

/-- The offset of the last entry that was taken. -/
def lastOffset (offset : Int) (taken : List (Given Name × Int)) : Int :=
  (taken.getLast?.map Prod.snd).getD offset

def call (c : Client Id Name) (room : Nat) (s : Session Id Name) : Option (Session Id Name) :=
  (falconReadDir c s.inst s.offset room).map fun r =>
    ⟨r.1, lastOffset s.offset r.2.1.taken, s.taken ++ r.2.1.taken⟩

/-- The first `n` calls; the filler of call `n` has room for `rooms n` entries. -/
def calls (c : Client Id Name) (rooms : Nat → Nat) : Nat → Option (Session Id Name)
  | 0 => some ⟨.new, 0, []⟩
  | n + 1 => (calls c rooms n).bind (call c (rooms n))

/-- The entries among what was taken. -/
def delivered (taken : List (Given Name × Int)) : List (DirEntry Name) :=
  taken.filterMap fun
    | (.entry e, _) => some e
    | _ => none

end Calls

/-! ## 3. The directory and its epochs -/

/-- **A directory that does not change**, on any number of workers.  `entries` is what each worker
has, in the order of its listing.  `Behind id n` says of a shard index and a name that they stand
behind the first `n` of them: with those the worker answers with the next entries, as many as it
is asked for, and with an index and a name that stand behind these. -/
structure Directory (Id Name : Type) where
  workerInfo : List Id
  order : Nat → List Id → List Id
  entries : Id → List (DirEntry Name)
  answer : Id → Nat → Int → Option Name → Response Name
  Behind : Id → Nat → Int → Option Name → Prop
  workers_nodup : workerInfo.Nodup
  order_perm : ∀ n ids, (order n ids).Perm ids
  names_nodup : ((workerInfo.flatMap entries).map (·.fileName)).Nodup
  behind_zero : ∀ id ∈ workerInfo, Behind id 0 (-1) none
  answer_length : ∀ id m i name, (answer id m i name).resultList.length ≤ m
  answer_page : ∀ id ∈ workerInfo, ∀ n i name, Behind id n i name → n ≤ (entries id).length →
    ∀ m, (answer id m i name).resultList = ((entries id).drop n).take m
  answer_behind : ∀ id ∈ workerInfo, ∀ n i name, Behind id n i name → ∀ m, 0 < m →
    n + m ≤ (entries id).length →
      Behind id (n + m) (answer id m i name).lastShardIndex (answer id m i name).lastFileName

/-- The state between two epochs: the entries read so far, how many each worker that is not done has
returned, and those workers. -/
structure Epoch (Id Name : Type) where
  read : List (DirEntry Name)
  position : Nat
  working : List Id

/-- The entries a page has room for. -/
def Epoch.size (e : Epoch Id Name) : Nat := fileNumberPerWorker e.working.length

namespace Directory

variable (dir : Directory Id Name)

def client : Client Id Name :=
  ⟨dir.workerInfo, fun id m i name => .ok (dir.answer id m i name), dir.order⟩

def all : List (DirEntry Name) := dir.workerInfo.flatMap dir.entries

section

variable (e : Epoch Id Name)

def rest (id : Id) : List (DirEntry Name) := (dir.entries id).drop e.position

def page (id : Id) : List (DirEntry Name) := (dir.rest e id).take (e.size)

/-- The workers of an epoch as it goes through them. -/
def asked : List Id := dir.order e.read.length e.working

def pages : List (DirEntry Name) := (dir.asked e).flatMap (dir.page e)

/-- A worker is done when its page is not full. -/
def next : Epoch Id Name :=
  ⟨e.read ++ dir.pages e, e.position + e.size,
    (dir.asked e).filter fun id => e.size ≤ (dir.page e id).length⟩

end

def epoch : Nat → Epoch Id Name
  | 0 => ⟨[], 0, dir.workerInfo⟩
  | r + 1 => dir.next (epoch r)

/-- **The entries of every epoch find their modes**: where `fileModes` is read for an epoch, at its
beginning, it has the modes of the epoch. -/
def OwnModes : Prop :=
  ∀ r, (dir.pages (dir.epoch r)).map (·.stMode) <+: (dir.epoch (r + 1)).read.map (·.stMode)

/-- Every call of a filler that takes all has offsets below `INT_MAX`. -/
def OffsetsFit : Prop := ∀ r, (dir.epoch (r + 1)).read.length + 3 < 2 ^ 31 + r

/-- There is room for an entry on each page, or there is no entry. -/
def PagesFit : Prop := dir.workerInfo.length ≤ 1048576 ∨ dir.all = []

end Directory

/-- What is asked of the calls: none is undefined, and from some call on they have delivered every
entry once, with its mode. -/
def Delivers [DecidableEq Id] (dir : Directory Id Name) (rooms : Nat → Nat) : Prop :=
  (∀ n, (calls dir.client rooms n).isSome) ∧
    ∃ n₀, ∀ n ≥ n₀, ∀ s, calls dir.client rooms n = some s → (delivered s.taken).Perm dir.all
/-! ## 4. The loop over the entries -/

section Fill

open List

theorem map_fileName_zipWith (names : List Name) : ∀ modes : List (BitVec 32),
    names.length ≤ modes.length → (names.zipWith DirEntry.mk modes).map (·.fileName) = names := by
  induction names with
  | nil => exact fun _ _ => rfl
  | cons name names ih =>
    rintro (_ | ⟨mode, modes⟩) hlen
    · cases hlen
    · rw [zipWith_cons_cons, map_cons, ih modes (Nat.le_of_succ_le_succ hlen)]

/-- What the filler is given: the names with the modes at their index. -/
def DirOpenInstance.shown (d : DirOpenInstance Id Name) : List (DirEntry Name) :=
  d.partialEntryVec.zipWith DirEntry.mk d.fileModes

theorem delivered_append (xs ys : List (Given Name × Int)) :
    delivered (xs ++ ys) = delivered xs ++ delivered ys := filterMap_append

theorem lastOffset_append (o : Int) (xs ys : List (Given Name × Int)) :
    lastOffset o (xs ++ ys) = lastOffset (lastOffset o xs) ys := by
  unfold lastOffset
  rw [getLast?_append]
  cases ys.getLast? <;> rfl

variable {d : DirOpenInstance Id Name}

section

variable (hmodes : d.partialEntryVec.length ≤ d.fileModes.length)

include hmodes

/-- The names that are given, whatever their modes. -/
theorem DirOpenInstance.map_fileName_shown_drop (i : Nat) :
    (d.shown.drop i).map (·.fileName) = d.partialEntryVec.drop i := by
  rw [map_drop, DirOpenInstance.shown, map_fileName_zipWith _ _ hmodes]

theorem fill_succ {n i : Nat}
    (hi : i + (n + 1) = d.partialEntryVec.length) (idx : Int) (b : Buf Name) :
    ∃ e, d.shown.drop i = e :: d.shown.drop (i + 1) ∧
      fill d (n + 1) i idx b = (increment idx).bind fun next =>
        if b.room = 0 then some (some i, b)
        else fill d n (i + 1) next ⟨b.room - 1, b.taken ++ [(.entry e, idx)]⟩ := by
  have hlt : i < d.partialEntryVec.length := by omega
  have hlt' : i < d.fileModes.length := by omega
  have hshown : i < d.shown.length := by
    rw [DirOpenInstance.shown, length_zipWith]
    omega
  refine ⟨⟨d.partialEntryVec[i], d.fileModes[i]⟩, ?_, ?_⟩
  · rw [drop_eq_getElem_cons hshown]
    simp [DirOpenInstance.shown]
  · rw [fill, getElem?_eq_getElem hlt, getElem?_eq_getElem hlt']
    show (increment idx).bind _ = _
    congr 1
    funext next
    unfold filler
    split <;> rfl

/-- **The loop gives the entries in order, as many as there is room for.**  It is defined when the
offsets are that it counts, which are one more than it gives if an entry is refused. -/
theorem fill_spec (n : Nat) :
    ∀ {i : Nat} {idx : Int} (b : Buf Name), i + n = d.partialEntryVec.length →
      ∃ taken, fill d n i idx b =
          (if n = 0 ∨ idx + min n (b.room + 1) < 2 ^ 31 then
            some (if n ≤ b.room then none else some (i + b.room), ⟨b.room - n, b.taken ++ taken⟩)
          else none) ∧
        delivered taken = (d.shown.drop i).take b.room ∧
        ∀ o, lastOffset o taken = if min n b.room = 0 then o else idx + min n b.room - 1 := by
  induction n with
  | zero =>
    intro i idx b hi
    have hend : d.shown.drop i = [] := by
      rw [drop_eq_nil_iff, DirOpenInstance.shown, length_zipWith]
      omega
    exact ⟨[], by simp [fill], by simp [hend, delivered], by simp [lastOffset]⟩
  | succ n ih =>
    intro i idx b hi
    obtain ⟨e, hdrop, hfill⟩ := fill_succ hmodes hi idx b
    obtain ⟨room, old⟩ := b
    rw [hfill, increment]
    match room with
    | 0 =>
      refine ⟨[], ?_, rfl, fun o => rfl⟩
      by_cases hidx : idx < 2 ^ 31 - 1
      · rw [if_pos hidx, if_pos (by simp only; omega)]
        simp
      · rw [if_neg hidx, if_neg (by simp only; omega), Option.bind_none]
    | room + 1 =>
      obtain ⟨taken, hrun, hgiven, hlast⟩ :=
        @ih (i + 1) (idx + 1) ⟨room, old ++ [(.entry e, idx)]⟩ (by omega)
      refine ⟨(.entry e, idx) :: taken, ?_, ?_, ?_⟩
      · by_cases hidx : idx < 2 ^ 31 - 1
        · have hdef : (n = 0 ∨ idx + 1 + (min n (room + 1) : Nat) < 2 ^ 31) ↔
              n + 1 = 0 ∨ idx + (min (n + 1) (room + 1 + 1) : Nat) < 2 ^ 31 := by
            omega
          rw [if_pos hidx, Option.bind_some, if_neg (by simp), Nat.add_sub_cancel, hrun]
          simp only [hdef, Nat.add_le_add_iff_right, Nat.add_sub_add_right, append_assoc,
            singleton_append, Nat.add_assoc, Nat.add_comm 1]
        · rw [if_neg hidx, if_neg (by simp only; omega), Option.bind_none]
      · rw [hdrop, take_succ_cons, ← hgiven]
        rfl
      · intro o
        rw [← singleton_append, lastOffset_append, hlast, Nat.add_min_add_right,
          if_neg (Nat.succ_ne_zero _)]
        show (if min n room = 0 then idx else _) = _
        split <;> push_cast <;> omega

end

section Bounds

variable {n i : Nat} {idx : Int} {b : Buf Name} (hi : i + n = d.partialEntryVec.length)
  (hmodes : d.partialEntryVec.length ≤ d.fileModes.length)

include hi hmodes

/-- What the loop has done when it is defined. -/
theorem fill_some {res : Option Nat × Buf Name} (h : fill d n i idx b = some res) :
    ∃ taken, res = (if n ≤ b.room then none else some (i + b.room),
      ⟨b.room - n, b.taken ++ taken⟩) ∧
      delivered taken = (d.shown.drop i).take b.room ∧
      (∀ o, lastOffset o taken = if min n b.room = 0 then o else idx + min n b.room - 1) ∧
      (min n b.room = 0 ∨ idx + min n b.room < 2 ^ 31) := by
  obtain ⟨taken, hfill, htaken, hlast⟩ := fill_spec hmodes n b hi
  rw [hfill] at h
  split at h <;> cases h
  exact ⟨taken, rfl, htaken, hlast, by omega⟩

/-- The loop is defined when all its offsets are. -/
theorem fill_isSome (hidx : idx + n < 2 ^ 31) : (fill d n i idx b).isSome := by
  obtain ⟨taken, hfill, -⟩ := fill_spec hmodes n b hi
  rw [hfill, if_pos (by omega)]
  rfl

end Bounds

end Fill

/-! ## 5. What a call begins with -/

section Start

variable {dir : Directory Id Name} {d : DirOpenInstance Id Name} {id : Id}

/-- The instance asks this worker for what comes behind its first `n` entries. -/
def HasCursor (dir : Directory Id Name) (d : DirOpenInstance Id Name) (id : Id) (n : Nat) : Prop :=
  ∃ i, d.lastShardIndexes id = some i ∧ dir.Behind id n i (d.lastFileNames id)

theorem HasCursor.congr {d' : DirOpenInstance Id Name} {n : Nat} (h : HasCursor dir d id n)
    (hd : d'.lastShardIndexes id = d.lastShardIndexes id ∧
      d'.lastFileNames id = d.lastFileNames id) : HasCursor dir d' id n := by
  obtain ⟨i, hshard, hbehind⟩ := h
  exact ⟨i, hd.1.trans hshard, hd.2 ▸ hbehind⟩

variable [DecidableEq Id]

theorem load_eq_self (h : ¬(d.partialEntryVec.length ≤ d.offset ∧ d.workingWorkers ≠ []))
    (c : Client Id Name) :
    load c d = (d, .success) := if_neg h

theorem start_later {offset : Int} (hpos : 1 ≤ offset) (hlt : offset < 2 ^ 31)
    (d : DirOpenInstance Id Name) (room : Nat) :
    start dir.client d offset room = (d, offset, ⟨room, []⟩) := by
  rw [start, if_neg (by omega), Int.bmod_eq_of_le (by omega) (by omega)]

theorem dots_spec {N : Type} (room : Nat) : (dots room : Buf N).room = room - 2 ∧
    delivered (dots room : Buf N).taken = [] ∧
      lastOffset 0 (dots room : Buf N).taken = min room 2 := by
  match room with
  | 0 => exact ⟨rfl, rfl, rfl⟩
  | 1 => exact ⟨rfl, rfl, rfl⟩
  | room + 2 =>
    rw [show min (room + 2) 2 = 2 by omega]
    exact ⟨rfl, rfl, rfl⟩

end Start

end FalconFS.ClientReadDir
