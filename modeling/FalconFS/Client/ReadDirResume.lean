/-
# Going on with a listing

The handle may come from anywhere: it has a buffer of names of which some are given, a set of
workers that are not done, and a cursor for each of them.  What the calls deliver from there on is
the rest of the buffer and what lies behind the cursors, whatever the filler accepts (`resume_iff`).

Section 1 says what the epochs are from there on, from the entries and the cursors alone.  Sections
2 to 4 follow the calls through them: an epoch, a call, and all the calls.

Names are what is compared.  Which mode a name comes with is the subject of `ReadDirListing.lean`.
-/
import Mathlib.Order.Nat
import FalconFS.Client.ReadDir

namespace FalconFS.ClientReadDir

open List Directory Option

variable {Id Name : Type}

/-! ## 1. Stages -/

/-- Where a handle stands between two epochs: the workers that are not done, how many entries of
each are read, and how many were read in all. -/
structure Stage (Id : Type) where
  working : List Id
  position : Id → Nat
  count : Nat

/-- The entries a page has room for. -/
def Stage.size (st : Stage Id) : Nat := fileNumberPerWorker st.working.length

/-- What a handle has in its buffer, and the stage behind it. -/
structure Batch (Id Name : Type) where
  names : List Name
  stage : Stage Id

namespace Directory

variable (dir : Directory Id Name)

def restAt (st : Stage Id) (id : Id) : List (DirEntry Name) :=
  (dir.entries id).drop (st.position id)

def pageAt (st : Stage Id) (id : Id) : List (DirEntry Name) := (dir.restAt st id).take st.size

def askedAt (st : Stage Id) : List Id := dir.order st.count st.working

/-- What an epoch reads from some workers, and the stage when it has read them: those whose page was
full are not done. -/
def readFrom (st : Stage Id) (ids : List Id) : Batch Id Name where
  names := (ids.flatMap (dir.pageAt st)).map (·.fileName)
  stage :=
    { working := ids.filter fun id => st.size ≤ (dir.pageAt st id).length
      position := fun id => st.position id + st.size
      count := st.count + (ids.flatMap (dir.pageAt st)).length }

/-- The next epoch. -/
def nextBatch (st : Stage Id) : Batch Id Name := dir.readFrom st (dir.askedAt st)

/-- A call looks into the buffer, and begins an epoch when it is used up. -/
def settle (b : Batch Id Name) : Batch Id Name :=
  if b.names = [] ∧ b.stage.working ≠ [] then dir.nextBatch b.stage else b

/-- The batches that are given, one after the other. -/
def batch (b : Batch Id Name) : Nat → Batch Id Name
  | 0 => dir.settle b
  | r + 1 => dir.nextBatch (batch b r).stage

def before (b : Batch Id Name) : Nat → List Name
  | 0 => []
  | r + 1 => before b r ++ (dir.batch b r).names

/-- The offsets for a filler that takes everything, from `idx` on, stay below `INT_MAX`.  Each call
begins with the offset of the last entry, so that an offset is gained with each batch. -/
def OffsetsFrom (idx : Int) (b : Batch Id Name) : Prop :=
  ∀ r, idx + ((dir.before b (r + 1)).length : Int) < 2 ^ 31 + r

/-- What the epochs will still read.  With too many workers a page has no room. -/
def owed (st : Stage Id) : List Name :=
  if st.working.length ≤ 1048576 then (st.working.flatMap (dir.restAt st)).map (·.fileName) else []

/-- What will be given: the buffer, and what the epochs read. -/
def coming (b : Batch Id Name) : List Name := b.names ++ dir.owed b.stage

def allNames : List Name := dir.all.map (·.fileName)

/-- What holds of the workers that are not done. -/
structure ValidAt (dir : Directory Id Name) (st : Stage Id) : Prop where
  subset : ∀ id ∈ st.working, id ∈ dir.workerInfo
  nodup : st.working.Nodup
  inside : ∀ id ∈ st.working, st.position id ≤ (dir.entries id).length

end Directory

theorem Stage.size_pos {st : Stage Id} (hne : st.working ≠ [])
    (hfew : st.working.length ≤ 1048576) : 0 < st.size := by
  have hpos := length_pos_iff.mpr hne
  unfold Stage.size fileNumberPerWorker
  exact Nat.lt_min.mpr ⟨Nat.div_pos (by omega) hpos, by omega⟩

theorem Stage.size_zero {st : Stage Id} (hmany : ¬ st.working.length ≤ 1048576) : st.size = 0 := by
  rw [Stage.size, fileNumberPerWorker, Nat.div_eq_of_lt (by omega), Nat.zero_min]

/-- The pages of an epoch together have at most `FILE_NUMBER_PER_EPOCH` entries. -/
theorem Stage.length_mul_size_le (st : Stage Id) : st.working.length * st.size ≤ 1048576 :=
  (Nat.mul_le_mul_left _ (Nat.min_le_left _ _)).trans (Nat.mul_div_le _ _)

namespace Directory

variable {dir : Directory Id Name} {st : Stage Id}

theorem askedAt_perm (dir : Directory Id Name) (st : Stage Id) :
    (dir.askedAt st).Perm st.working := dir.order_perm _ _

theorem length_pageAt_le (dir : Directory Id Name) (st : Stage Id) (id : Id) :
    (dir.pageAt st id).length ≤ st.size := length_take_le _ _

variable {id : Id} {ids : List Id} {b : Batch Id Name} {r : Nat}

/-- A page is full when there are so many entries. -/
theorem size_le_pageAt_iff (hin : st.position id ≤ (dir.entries id).length) :
    st.size ≤ (dir.pageAt st id).length ↔ st.position id + st.size ≤ (dir.entries id).length := by
  simp only [pageAt, restAt, length_take, length_drop]
  omega

/-- A page and what is behind it. -/
theorem pageAt_append (dir : Directory Id Name) (st : Stage Id) (ids : List Id) (id : Id) :
    dir.pageAt st id ++ dir.restAt (dir.readFrom st ids).stage id = dir.restAt st id := by
  show _ ++ (dir.entries id).drop (st.position id + st.size) = _
  rw [← drop_drop]
  exact take_append_drop _ _

/-- A worker whose page is not full has nothing left. -/
theorem restAt_readFrom_of_short (h : ¬ st.size ≤ (dir.pageAt st id).length) :
    dir.restAt (dir.readFrom st ids).stage id = [] := by
  have hlen := congrArg length (dir.pageAt_append st ids id)
  rw [length_append] at hlen
  have hpage : (dir.pageAt st id).length = min st.size (dir.restAt st id).length := length_take
  exact eq_nil_of_length_eq_zero (by omega)

/-- **What is read from some workers and what is left of those that are not done** is what was left
of them. -/
theorem flatMap_pageAt_perm (dir : Directory Id Name) (st : Stage Id) (ids : List Id) :
    (ids.flatMap (dir.pageAt st) ++ (dir.readFrom st ids).stage.working.flatMap
      (dir.restAt (dir.readFrom st ids).stage)).Perm (ids.flatMap (dir.restAt st)) := by
  have hdone : (dir.readFrom st ids).stage.working.flatMap
      (dir.restAt (dir.readFrom st ids).stage) =
      ids.flatMap (dir.restAt (dir.readFrom st ids).stage) := by
    show (ids.filter _).flatMap _ = _
    have hrest : ∀ id, ¬ st.size ≤ (dir.pageAt st id).length →
        dir.restAt (dir.readFrom st ids).stage id = [] := fun id h => restAt_readFrom_of_short h
    generalize dir.restAt (dir.readFrom st ids).stage = rest at hrest
    induction ids with
    | nil => rfl
    | cons id ids ih =>
      rw [flatMap_cons, ← ih, filter_cons]
      split
      · rw [flatMap_cons]
      · rename_i hshort
        rw [hrest id (by simpa using hshort), nil_append]
  have hjoin := flatMap_append_perm ids (dir.pageAt st)
    (dir.restAt (dir.readFrom st ids).stage)
  simp only [dir.pageAt_append st ids] at hjoin
  exact hdone ▸ hjoin

theorem readFrom_perm (dir : Directory Id Name) (st : Stage Id) (ids : List Id) :
    ((dir.readFrom st ids).names ++ ((dir.readFrom st ids).stage.working.flatMap
        (dir.restAt (dir.readFrom st ids).stage)).map (·.fileName)).Perm
      ((ids.flatMap (dir.restAt st)).map (·.fileName)) := by
  have hperm := (dir.flatMap_pageAt_perm st ids).map (·.fileName)
  rwa [map_append] at hperm

theorem ValidAt.readFrom (h : dir.ValidAt st) (hids : ids.Nodup)
    (hsub : ∀ id ∈ ids, id ∈ st.working) : dir.ValidAt (dir.readFrom st ids).stage := by
  have hmem : ∀ id ∈ (dir.readFrom st ids).stage.working, id ∈ st.working := fun id hid =>
    hsub id (mem_of_mem_filter hid)
  refine ⟨fun id hid => h.subset id (hmem id hid), hids.filter _, fun id hid => ?_⟩
  have hfull := (mem_filter.mp hid).2
  exact (size_le_pageAt_iff (h.inside id (hmem id hid))).mp (by simpa using hfull)

theorem ValidAt.nextBatch (h : dir.ValidAt st) : dir.ValidAt (dir.nextBatch st).stage :=
  h.readFrom ((dir.askedAt_perm st).nodup_iff.mpr h.nodup) fun _ hid =>
    (dir.askedAt_perm st).subset hid

theorem length_working_nextBatch (dir : Directory Id Name) (st : Stage Id) :
    (dir.nextBatch st).stage.working.length ≤ st.working.length :=
  (length_filter_le _ _).trans (dir.askedAt_perm st).length_eq.le

/-- With too many workers an epoch reads nothing, and no worker is done. -/
theorem nextBatch_of_many (dir : Directory Id Name) (hmany : ¬ st.working.length ≤ 1048576) :
    (dir.nextBatch st).names = [] ∧
    (dir.nextBatch st).stage.working.length = st.working.length := by
  have hsize := Stage.size_zero hmany
  constructor
  · show map _ ((dir.askedAt st).flatMap _) = []
    rw [flatMap_eq_nil_iff.mpr fun id _ => ?_]
    · rfl
    · rw [pageAt, hsize, take_zero]
  · show ((dir.askedAt st).filter _).length = _
    rw [hsize, filter_eq_self.mpr fun id _ => by simp, (dir.askedAt_perm st).length_eq]

/-- **An epoch takes what it reads from what is owed.** -/
theorem coming_nextBatch (dir : Directory Id Name) (st : Stage Id) :
    (dir.coming (dir.nextBatch st)).Perm (dir.owed st) := by
  by_cases hfew : st.working.length ≤ 1048576
  · have hnext := (dir.length_working_nextBatch st).trans hfew
    rw [coming, owed, owed, if_pos hfew, if_pos hnext]
    exact (dir.readFrom_perm st _).trans (((dir.askedAt_perm st).flatMap_right _).map _)
  · obtain ⟨hnames, hworking⟩ := dir.nextBatch_of_many hfew
    rw [coming, owed, owed, if_neg hfew, hworking, if_neg hfew, hnames]
    exact List.Perm.refl _

/-- An epoch that reads nothing leaves nothing owed. -/
theorem owed_nextBatch (h : (dir.nextBatch st).names = []) :
    dir.owed (dir.nextBatch st).stage = [] := by
  by_cases hfew : st.working.length ≤ 1048576
  · have hnil : (dir.nextBatch st).stage.working = [] := by
      refine filter_eq_nil_iff.mpr fun id hid => ?_
      have hpos := Stage.size_pos (ne_nil_of_mem ((dir.askedAt_perm st).subset hid)) hfew
      have hpage : dir.pageAt st id = [] :=
        flatMap_eq_nil_iff.mp (map_eq_nil_iff.mp h) id hid
      rw [hpage]
      simpa using hpos.ne'
    rw [owed, hnil]
    rfl
  · rw [owed, (dir.nextBatch_of_many hfew).2, if_neg hfew]

section

variable (dir : Directory Id Name)

/-- From no more workers than work, no more than an epoch is read. -/
theorem length_readFrom_le (hids : ids.length ≤ st.working.length) :
    (dir.readFrom st ids).names.length ≤ 1048576 := by
  have hsum : ∀ ids : List Id, (ids.flatMap (dir.pageAt st)).length ≤ ids.length * st.size := by
    intro ids
    induction ids with
    | nil => exact Nat.zero_le _
    | cons id ids ih =>
      have hpage := dir.length_pageAt_le st id
      rw [flatMap_cons, length_append, length_cons, Nat.succ_mul]
      omega
  calc (dir.readFrom st ids).names.length
      = (ids.flatMap (dir.pageAt st)).length := length_map _
    _ ≤ ids.length * st.size := hsum _
    _ ≤ st.working.length * st.size := Nat.mul_le_mul_right _ hids
    _ ≤ 1048576 := st.length_mul_size_le

theorem length_nextBatch_le (st : Stage Id) : (dir.nextBatch st).names.length ≤ 1048576 :=
  dir.length_readFrom_le (dir.askedAt_perm st).length_eq.le

theorem coming_settle (b : Batch Id Name) : (dir.coming (dir.settle b)).Perm (dir.coming b) := by
  unfold settle
  split
  · rename_i h
    refine (dir.coming_nextBatch b.stage).trans ?_
    rw [coming, h.1]
    exact List.Perm.refl _
  · exact List.Perm.refl _

/-- **What is given and what is coming** is always the same. -/
theorem before_perm (b : Batch Id Name) (r : Nat) :
    (dir.before b r ++ dir.coming (dir.batch b r)).Perm (dir.coming b) := by
  induction r with
  | zero => exact dir.coming_settle b
  | succ r ih =>
    refine List.Perm.trans ?_ ih
    rw [before, append_assoc]
    refine List.Perm.append_left _ ?_
    rw [coming]
    exact (dir.coming_nextBatch (dir.batch b r).stage).append_left _

end

/-- A batch without a name is the last. -/
theorem owed_batch (h : (dir.batch b r).names = []) : dir.owed (dir.batch b r).stage = [] := by
  match r with
  | 0 =>
    rw [batch, settle] at h ⊢
    split at h
    · rename_i hload
      rw [if_pos hload]
      exact owed_nextBatch h
    · rename_i hkeep
      rw [if_neg hkeep, owed, not_not.mp (not_and.mp hkeep h)]
      rfl
  | r + 1 => exact owed_nextBatch h

theorem length_before_le (dir : Directory Id Name) (b : Batch Id Name) (r : Nat) :
    (dir.before b r).length ≤ (dir.coming b).length := by
  have h := (dir.before_perm b r).length_eq
  rw [length_append] at h
  omega

theorem length_before_succ (dir : Directory Id Name) (b : Batch Id Name) (r : Nat) :
    (dir.before b (r + 1)).length = (dir.before b r).length + (dir.batch b r).names.length :=
  length_append

/-- When nothing is owed any more, everything is among the batches so far. -/
theorem before_eq (h : dir.owed (dir.batch b r).stage = []) :
    (dir.before b (r + 1)).Perm (dir.coming b) := by
  have hperm := dir.before_perm b r
  rwa [coming, h, append_nil] at hperm

end Directory

/-! ## 2. The loop over the workers -/

section Load

variable {dir : Directory Id Name} {st : Stage Id}

/-- The instance before an epoch. -/
structure ReadyAt (dir : Directory Id Name) (st : Stage Id) (d : DirOpenInstance Id Name) :
    Prop where
  working : d.workingWorkers = st.working
  count : d.fileModes.length = st.count
  cursors : 0 < st.size → ∀ id ∈ st.working, HasCursor dir d id (st.position id)

/-- What the answers of some workers have added to an instance. -/
structure AddedAt (dir : Directory Id Name) (st : Stage Id) (ids : List Id)
    (d d' : DirOpenInstance Id Name) : Prop where
  names : d'.partialEntryVec = d.partialEntryVec ++ (ids.flatMap (dir.pageAt st)).map (·.fileName)
  modes : d'.fileModes = d.fileModes ++ (ids.flatMap (dir.pageAt st)).map (·.stMode)
  working : d'.workingWorkers =
    d.workingWorkers ++ ids.filter fun id => st.size ≤ (dir.pageAt st id).length
  offset : d'.offset = d.offset
  full : 0 < st.size → ∀ id ∈ ids, st.size ≤ (dir.pageAt st id).length →
    HasCursor dir d' id (st.position id + st.size)
  short : ∀ id ∈ ids, ¬ st.size ≤ (dir.pageAt st id).length →
    d'.lastFileNames id = none ∧ ∃ i name,
      dir.Behind id (st.position id) i name ∧
        d'.lastShardIndexes id = some (dir.answer id st.size i name).lastShardIndex
  others : ∀ id ∉ ids, d'.lastShardIndexes id = d.lastShardIndexes id ∧
    d'.lastFileNames id = d.lastFileNames id

theorem addedAt_nil (st : Stage Id) (d : DirOpenInstance Id Name) : AddedAt dir st [] d d := by
  refine ⟨?_, ?_, ?_, rfl, fun _ id hid => (nomatch hid), fun id hid => (nomatch hid),
    fun id _ => ⟨rfl, rfl⟩⟩ <;> simp

theorem AddedAt.cons {id : Id} {ids : List Id} {d d₁ d₂ : DirOpenInstance Id Name}
    (h : AddedAt dir st [id] d d₁) (h' : AddedAt dir st ids d₁ d₂) (hid : id ∉ ids) :
    AddedAt dir st (id :: ids) d d₂ := by
  refine ⟨?_, ?_, ?_, h'.offset.trans h.offset, ?_, ?_, ?_⟩
  · rw [h'.names, h.names]
    simp
  · rw [h'.modes, h.modes]
    simp
  · rw [h'.working, h.working, append_assoc, ← filter_append]
    rfl
  · intro hpos id' hid' hfull
    rcases mem_cons.mp hid' with rfl | hmem
    · exact (h.full hpos id' mem_cons_self hfull).congr (h'.others id' hid)
    · exact h'.full hpos id' hmem hfull
  · intro id' hid' hshort
    rcases mem_cons.mp hid' with rfl | hmem
    · rw [(h'.others id' hid).1, (h'.others id' hid).2]
      exact h.short id' mem_cons_self hshort
    · exact h'.short id' hmem hshort
  · intro id' hid'
    obtain ⟨hne, hnotMem⟩ := not_or.mp (mt mem_cons.mpr hid')
    obtain ⟨hshard, hname⟩ := h.others id' (mt mem_singleton.mp hne)
    obtain ⟨hshard', hname'⟩ := h'.others id' hnotMem
    exact ⟨hshard'.trans hshard, hname'.trans hname⟩

/-- The instance with the names of a batch, of which none is given. -/
structure Fresh (dir : Directory Id Name) (b : Batch Id Name) (d : DirOpenInstance Id Name) :
    Prop where
  ready : ReadyAt dir b.stage d
  names : d.partialEntryVec = b.names
  offset : d.offset = 0
  modes : d.partialEntryVec.length ≤ d.fileModes.length

/-- What an epoch has read from some workers, when it began with an empty buffer. -/
theorem AddedAt.fresh {ids : List Id} {d d' : DirOpenInstance Id Name} (h : AddedAt dir st ids d d')
    (hd : d.fileModes.length = st.count) (hnames : d.partialEntryVec = [])
    (hworking : d.workingWorkers = []) (hoffset : d.offset = 0)
    (hsize : 0 < (dir.readFrom st ids).stage.size → 0 < st.size) :
    Fresh dir (dir.readFrom st ids) d' := by
  have hnames' := h.names
  have hmodes := congrArg length h.modes
  rw [hnames, nil_append] at hnames'
  rw [length_append, length_map] at hmodes
  refine ⟨⟨?_, ?_, ?_⟩, hnames', h.offset.trans hoffset, ?_⟩
  · rw [h.working, hworking]
    rfl
  · rw [hmodes, hd]
    rfl
  · intro hpos id hid
    obtain ⟨hmem, hfull⟩ := mem_filter.mp hid
    exact h.full (hsize hpos) id hmem (by simpa using hfull)
  · rw [hnames', hmodes, length_map]
    omega

theorem size_pos_of_nextBatch (h : 0 < (dir.nextBatch st).stage.size) : 0 < st.size := by
  have hle := dir.length_working_nextBatch st
  by_cases hfew : st.working.length ≤ 1048576
  · refine Stage.size_pos (fun hnil => ?_) hfew
    rw [hnil] at hle
    rw [Stage.size, Nat.le_zero.mp hle] at h
    exact absurd h (by decide)
  · rw [Stage.size_zero (by rwa [(dir.nextBatch_of_many hfew).2])] at h
    exact absurd h (Nat.lt_irrefl _)

variable [DecidableEq Id]

open DirOpenInstance

/-- One worker, with the page that it has at its cursor.  A page without room is empty, wherever the
cursor stands. -/
theorem addedAt_page {id : Id} (hid : id ∈ dir.workerInfo)
    (hin : st.position id ≤ (dir.entries id).length) {i : Int} {name : Option Name}
    (hbehind : 0 < st.size → dir.Behind id (st.position id) i name) (d : DirOpenInstance Id Name) :
    AddedAt dir st [id] d (d.takePage st.size id (dir.answer id st.size i name)) := by
  have hpage : (dir.answer id st.size i name).resultList = dir.pageAt st id := by
    rcases Nat.eq_zero_or_pos st.size with hzero | hpos
    · have hlen := dir.answer_length id st.size i name
      rw [hzero] at hlen
      rw [pageAt, hzero, take_zero]
      exact eq_nil_of_length_eq_zero (Nat.le_zero.mp hlen)
    · exact dir.answer_page id hid _ i name (hbehind hpos) hin st.size
  have hcursor : 0 < st.size → _ := fun hpos =>
    dir.answer_behind id hid _ i name (hbehind hpos) st.size hpos
  refine ⟨?_, ?_, ?_, rfl, ?_, ?_, ?_⟩
  · simp [takePage, hpage]
  · simp [takePage, hpage]
  · simp only [takePage, hpage, filter_cons, filter_nil,
      decide_eq_true_eq]
    by_cases hfull : st.size ≤ (dir.pageAt st id).length
    · rw [if_neg (by omega), if_pos hfull]
    · rw [if_pos (by omega), if_neg hfull, append_nil]
  · intro hpos id' hid' hfull
    obtain rfl := mem_singleton.mp hid'
    have hlen := (size_le_pageAt_iff hin).mp hfull
    refine ⟨(dir.answer id' st.size i name).lastShardIndex, ?_, ?_⟩
    · simp [takePage]
    · simpa [takePage, hpage, Nat.not_lt.mpr hfull] using hcursor hpos hlen
  · intro id' hid' hshort
    obtain rfl := mem_singleton.mp hid'
    have hpos : 0 < st.size := by omega
    refine ⟨?_, i, name, hbehind hpos, ?_⟩
    · simp [takePage, hpage, Nat.not_le.mp hshort]
    · simp [takePage]
  · intro id' hid'
    have hne : id' ≠ id := fun heq => hid' (mem_singleton.mpr heq)
    simp [takePage, hne]

/-- **The loop over the workers** adds their pages. -/
theorem readWorkers_addedAt (ids : List Id) : ∀ d : DirOpenInstance Id Name, ids.Nodup →
    (∀ id ∈ ids, id ∈ dir.workerInfo ∧ st.position id ≤ (dir.entries id).length ∧
      (0 < st.size → HasCursor dir d id (st.position id))) →
    ∃ d', readWorkers dir.client st.size ids d = (d', .success) ∧ AddedAt dir st ids d d' := by
  induction ids with
  | nil => exact fun d _ _ => ⟨d, rfl, addedAt_nil st d⟩
  | cons id ids ih =>
    intro d hnd hids
    obtain ⟨hnotMem, hnd⟩ := nodup_cons.mp hnd
    obtain ⟨hid, hin, hcursor⟩ := hids id mem_cons_self
    have hbehind : 0 < st.size → dir.Behind id (st.position id) ((d.lastShardIndexes id).getD 0)
        (d.lastFileNames id) := by
      intro hpos
      obtain ⟨i, hshard, hbehind⟩ := hcursor hpos
      rwa [hshard]
    have hadded := addedAt_page hid hin hbehind d
    obtain ⟨d', hrun, hadded'⟩ := ih _ hnd fun id' hid' => by
      obtain ⟨hmem, hin', hcursor'⟩ := hids id' (mem_cons_of_mem _ hid')
      have hne : id' ∉ [id] := fun hmem => hnotMem (mem_singleton.mp hmem ▸ hid')
      exact ⟨hmem, hin', fun hpos => (hcursor' hpos).congr (hadded.others id' hne)⟩
    refine ⟨d', ?_, hadded.cons hadded' hnotMem⟩
    rw [readWorkers]
    exact hrun

/-- **An epoch** leaves the instance with the names of its pages.  Their modes come behind those
that are there. -/
theorem load_fresh {d : DirOpenInstance Id Name} (hv : dir.ValidAt st) (h : ReadyAt dir st d)
    (hend : d.partialEntryVec.length ≤ d.offset) (hne : st.working ≠ []) :
    ∃ d', load dir.client d = (d', .success) ∧ Fresh dir (dir.nextBatch st) d' ∧
      d'.fileModes = d.fileModes ++ ((dir.askedAt st).flatMap (dir.pageAt st)).map (·.stMode) := by
  have hasked : dir.client.order d.fileModes.length d.workingWorkers = dir.askedAt st := by
    rw [h.count, h.working]
    rfl
  have hsize : fileNumberPerWorker d.workingWorkers.length = st.size := by
    rw [h.working]
    rfl
  rw [load, if_pos ⟨hend, h.working ▸ hne⟩]
  simp only [hasked, hsize]
  obtain ⟨d', hrun, hadded⟩ := readWorkers_addedAt (dir.askedAt st)
    { d with workers := dir.askedAt st, workingWorkers := [], partialEntryVec := [], offset := 0 }
    ((dir.askedAt_perm st).nodup_iff.mpr hv.nodup) fun id hid =>
      have hid := (dir.askedAt_perm st).subset hid
      ⟨hv.subset id hid, hv.inside id hid, fun hpos => h.cursors hpos id hid⟩
  exact ⟨d', hrun, hadded.fresh h.count rfl rfl rfl size_pos_of_nextBatch, hadded.modes⟩

end Load

/-! ## 3. One call -/

/-- The names among what was taken. -/
def namesOf (taken : List (Given Name × Int)) : List Name := (delivered taken).map (·.fileName)

/-- What is left of a batch when `k` names are given. -/
def Batch.drop (b : Batch Id Name) (k : Nat) : Batch Id Name := ⟨b.names.drop k, b.stage⟩

/-- The buffer of a handle is one epoch at most, and has its modes. -/
structure Buffered (d : DirOpenInstance Id Name) : Prop where
  modes : d.partialEntryVec.length ≤ d.fileModes.length
  small : d.partialEntryVec.length ≤ 1048576
  inside : d.offset ≤ d.partialEntryVec.length

/-- A handle that begins with the batch `b`, before its first call. -/
structure Held (dir : Directory Id Name) (b : Batch Id Name) (d : DirOpenInstance Id Name) : Prop
    extends Buffered d where
  ready : ReadyAt dir b.stage d
  valid : dir.ValidAt b.stage
  names : d.partialEntryVec.drop d.offset = b.names

/-- What an epoch has changed. -/
structure Turned (dir : Directory Id Name) (st : Stage Id) (d d' : DirOpenInstance Id Name) :
    Prop where
  names : d'.partialEntryVec = (dir.nextBatch st).names
  offset : d'.offset = 0
  modes : d'.fileModes =
    d.fileModes ++ ((dir.askedAt st).flatMap (dir.pageAt st)).map (·.stMode)

section Call

variable {dir : Directory Id Name} {b : Batch Id Name} {d : DirOpenInstance Id Name}
  {s s' : Session Id Name} {room k : Nat}

theorem Held.length_left (h : Held dir b d) :
    d.partialEntryVec.length - d.offset = b.names.length := by
  rw [← h.names, length_drop]

/-- The names that are given move the position in the buffer. -/
theorem Held.drop (h : Held dir b d) (hk : k ≤ b.names.length) :
    Held dir (b.drop k) { d with offset := d.offset + k } := by
  have hin := h.inside
  have hlen := h.length_left
  refine ⟨⟨h.modes, h.small, ?_⟩, ⟨h.ready.working, h.ready.count, h.ready.cursors⟩, h.valid, ?_⟩
  · show d.offset + k ≤ d.partialEntryVec.length
    omega
  · show d.partialEntryVec.drop (d.offset + k) = b.names.drop k
    rw [← drop_drop, h.names]

theorem Fresh.held {st : Stage Id} (h : Fresh dir (dir.nextBatch st) d) (hv : dir.ValidAt st) :
    Held dir (dir.nextBatch st) d := by
  refine ⟨⟨h.modes, ?_, ?_⟩, h.ready, hv.nextBatch, ?_⟩
  · rw [h.names]
    exact dir.length_nextBatch_le st
  · rw [h.offset]
    exact Nat.zero_le _
  · rw [h.offset, h.names]
    rfl

variable [DecidableEq Id]

/-- **The epoch of a call**: a handle with names in its buffer goes on with them, one that has given
them goes on with the next batch. -/
theorem Held.load (h : Held dir b d) :
    ∃ d', ClientReadDir.load dir.client d = (d', .success) ∧ Held dir (dir.settle b) d' ∧
      if b.names = [] ∧ b.stage.working ≠ [] then Turned dir b.stage d d' else d' = d := by
  have hempty : d.partialEntryVec.length ≤ d.offset ↔ b.names = [] := by
    rw [← h.names, drop_eq_nil_iff]
  unfold settle
  split
  · rename_i hend
    obtain ⟨d', hload, hfresh, hmodes⟩ := load_fresh h.valid h.ready (hempty.mpr hend.1) hend.2
    exact ⟨d', hload, hfresh.held h.valid, hfresh.names, hfresh.offset, hmodes⟩
  · rename_i hend
    refine ⟨d, load_eq_self (fun hload => hend ⟨hempty.mp hload.1, ?_⟩) _, h, rfl⟩
    exact h.ready.working ▸ hload.2

/-- The index that the first entry of the next call gets. -/
def firstIdx (offset : Int) : Int := if offset = 0 then 3 else offset

/-- The instance that the next call begins with. -/
def startInst (dir : Directory Id Name) (s : Session Id Name) : DirOpenInstance Id Name :=
  if s.offset = 0 then s.inst.setAllWorkerInfo dir.workerInfo else s.inst

/-- A handle whose next call begins with the batch `b`. -/
structure Begins (dir : Directory Id Name) (b : Batch Id Name) (s : Session Id Name) : Prop where
  nonneg : 0 ≤ s.offset
  small : s.offset < 2 ^ 31
  held : Held dir b (startInst dir s)

theorem Begins.firstIdx_lt (h : Begins dir b s) : firstIdx s.offset < 2 ^ 31 := by
  have := h.small
  unfold firstIdx
  split <;> omega

/-- The room for entries: at offset 0 "." and ".." come first. -/
def roomFor (offset : Int) (room : Nat) : Nat := if offset = 0 then room - 2 else room

/-- The start of a call: where it begins to count, and the room that is left for entries. -/
theorem start_eq (hnonneg : 0 ≤ s.offset) (hsmall : s.offset < 2 ^ 31)
    (room : Nat) : ∃ buf, start dir.client s.inst s.offset room =
        (startInst dir s, firstIdx s.offset, buf) ∧
      delivered buf.taken = [] ∧ buf.room = roomFor s.offset room ∧
      lastOffset s.offset buf.taken =
        (if s.offset = 0 then ((min room 2 : Nat) : Int) else s.offset) := by
  by_cases hzero : s.offset = 0
  · obtain ⟨hroom, hdots, hlast⟩ := dots_spec (N := Name) room
    refine ⟨dots room, ?_, hdots, ?_, ?_⟩
    · rw [start, if_pos hzero, startInst, if_pos hzero, firstIdx, if_pos hzero]
      rfl
    · rw [roomFor, if_pos hzero, hroom]
    · rw [if_pos hzero, hzero, hlast]
  · refine ⟨⟨room, []⟩, ?_, rfl, (if_neg hzero).symm, (if_neg hzero).symm⟩
    rw [start_later (by omega) hsmall, startInst, if_neg hzero, firstIdx, if_neg hzero]

/-- **What a call has done** that began with the batch `b` and gave `k` names: the handle goes on
with what is left of the batch, from the offset of the last name on. -/
structure Called (dir : Directory Id Name) (b : Batch Id Name) (room k : Nat)
    (s s' : Session Id Name) : Prop where
  count : k = min (dir.settle b).names.length (roomFor s.offset room)
  begins : Begins dir ((dir.settle b).drop k) s'
  positive : 1 ≤ s'.offset
  offset : s'.offset = if k = 0 then (if s.offset = 0 then ((min room 2 : Nat) : Int) else s.offset)
    else firstIdx s.offset + k - 1
  defined : k = 0 ∨ firstIdx s.offset + k < 2 ^ 31
  given : namesOf s'.taken = namesOf s.taken ++ (dir.settle b).names.take k
  /-- The modes are those at the index of the names. -/
  inst : ∃ d, load dir.client (startInst dir s) = (d, .success) ∧
    s'.inst = { d with offset := d.offset + k } ∧
    delivered s'.taken = delivered s.taken ++ (d.shown.drop d.offset).take k

/-- **A call that is defined** gives what there is room for. -/
theorem Begins.called (h : Begins dir b s) (hroom : 0 < room)
    (hcall : call dir.client room s = some s') : ∃ k, Called dir b room k s s' := by
  have hnonneg := h.nonneg
  have hsmall := h.small
  obtain ⟨d, hload, hd, -⟩ := h.held.load
  obtain ⟨buf, hstart, hbuf, hroom', hlast⟩ := @start_eq _ _ dir s _ hnonneg hsmall room
  have hin := hd.inside
  have hfew := hd.small
  have hlen := hd.length_left
  rw [call, falconReadDir, hstart] at hcall
  simp only [hload, if_true, give, Option.map_map] at hcall
  obtain ⟨res, hfill, rfl⟩ := map_eq_some_iff.mp hcall
  obtain ⟨taken, rfl, htaken, hlast', hbound⟩ :=
    fill_some (by omega : d.offset + _ = _) hd.modes hfill
  rw [hlen, hroom'] at hlast' hbound
  obtain ⟨k, hk⟩ : ∃ k, k = min (dir.settle b).names.length (roomFor s.offset room) := ⟨_, rfl⟩
  rw [← hk] at hlast' hbound
  have hshown : (d.shown.drop d.offset).length = (dir.settle b).names.length := by
    have hnames := congrArg length (d.map_fileName_shown_drop hd.modes d.offset)
    rwa [length_map, length_drop (l := d.partialEntryVec), hlen] at hnames
  have hdelivered : delivered (s.taken ++ (buf.taken ++ taken)) =
      delivered s.taken ++ (d.shown.drop d.offset).take k := by
    rw [delivered_append, delivered_append, hbuf, nil_append, htaken]
    refine congrArg _ (take_eq_take_iff.mpr ?_)
    omega
  -- where the loop has stopped
  have hstop : (if d.partialEntryVec.length - d.offset ≤ buf.room then none
      else some (d.offset + buf.room)).getD d.partialEntryVec.length % 2 ^ 32 = d.offset + k := by
    rw [hlen, hroom']
    split
    · rw [getD_none]
      omega
    · rw [getD_some]
      omega
  have hoffset : lastOffset s.offset (buf.taken ++ taken) =
      if k = 0 then (if s.offset = 0 then ((min room 2 : Nat) : Int) else s.offset)
      else firstIdx s.offset + k - 1 := by
    rw [lastOffset_append, hlast', hlast]
  have hrange : 1 ≤ lastOffset s.offset (buf.taken ++ taken) ∧
      lastOffset s.offset (buf.taken ++ taken) < 2 ^ 31 := by
    have hidx := h.firstIdx_lt
    rw [hoffset]
    unfold firstIdx at *
    constructor <;> split <;> split at * <;> omega
  refine ⟨k, hk, ⟨by dsimp only [Function.comp]; omega, hrange.2, ?_⟩, hrange.1, hoffset, hbound,
    ?_, d, hload, ?_, hdelivered⟩
  · rw [startInst, if_neg (by dsimp only [Function.comp]; omega)]
    dsimp only [Function.comp]
    rw [hstop]
    exact hd.drop (by omega)
  · show (delivered (s.taken ++ (buf.taken ++ taken))).map _ = _
    rw [hdelivered, map_append, map_take, d.map_fileName_shown_drop hd.modes, hd.names]
    rfl
  · dsimp only [Function.comp]
    rw [hstop]

/-- A call is defined when all its offsets are. -/
theorem Begins.call_isSome (h : Begins dir b s) (room : Nat)
    (hfit : firstIdx s.offset + (dir.settle b).names.length < 2 ^ 31) :
    ∃ s', call dir.client room s = some s' := by
  obtain ⟨d, hload, hd, -⟩ := h.held.load
  obtain ⟨buf, hstart, -⟩ := @start_eq _ _ dir s _ h.nonneg h.small room
  have hin := hd.inside
  obtain ⟨res, hfill⟩ := isSome_iff_exists.mp (fill_isSome (b := buf)
    (by omega : d.offset + _ = _) hd.modes (hd.length_left ▸ hfit))
  rw [call, falconReadDir, hstart]
  simp only [hload, if_true, give, hfill, map_some]
  exact ⟨_, rfl⟩

/-- **What is delivered and what is coming** is always the same. -/
theorem Called.perm (h : Called dir b room k s s') :
    (namesOf s'.taken ++ dir.coming ((dir.settle b).drop k)).Perm
      (namesOf s.taken ++ dir.coming b) := by
  have hsplit : (dir.settle b).names.take k ++ dir.coming ((dir.settle b).drop k) =
      dir.coming (dir.settle b) := by
    rw [coming, ← append_assoc]
    exact congrArg (· ++ _) (take_append_drop _ _)
  rw [h.given, append_assoc, hsplit]
  exact (dir.coming_settle b).append_left _

/-- Nothing is coming when a call with room gives nothing. -/
theorem Called.coming_nil (h : Called dir b room k s s') (hroom : 0 < roomFor s.offset room)
    (hk : k = 0) : dir.coming b = [] := by
  have hcount := h.count
  have hnil : (dir.batch b 0).names = [] := by
    show (dir.settle b).names = []
    exact eq_nil_of_length_eq_zero (by omega)
  have hperm := before_eq (owed_batch hnil)
  rw [before, hnil] at hperm
  exact perm_nil.mp hperm.symm

end Call

/-! ## 4. The calls from there on -/

namespace Directory

variable {dir : Directory Id Name} {b : Batch Id Name} {k : Nat} {idx idx' : Int}

/-- When nothing is owed any more, nothing is behind the batches so far. -/
theorem length_before_le_of_owed {r : Nat} (h : dir.owed (dir.batch b r).stage = []) (n : Nat) :
    (dir.before b n).length ≤ (dir.before b (r + 1)).length :=
  (before_eq h).length_eq ▸ dir.length_before_le b n

/-- The batches behind what is left of the first one, by their lengths: they are those that were to
come, or the first of these is over. -/
theorem length_before_drop (dir : Directory Id Name) (b : Batch Id Name) (k : Nat)
    (hk : k ≤ (dir.settle b).names.length) (r : Nat) :
    ((k < (dir.settle b).names.length ∨ dir.owed (dir.settle b).stage = []) ∧
      (dir.before ((dir.settle b).drop k) (r + 1)).length + k = (dir.before b (r + 1)).length) ∨
    (k = (dir.settle b).names.length ∧
      (dir.before ((dir.settle b).drop k) (r + 1)).length + k =
        (dir.before b (r + 1 + 1)).length) := by
  by_cases hend : ((dir.settle b).drop k).names = [] ∧ (dir.settle b).stage.working ≠ []
  · have hall : k = (dir.settle b).names.length := by
      have hle := drop_eq_nil_iff.mp hend.1
      omega
    have hbatch : ∀ r, dir.batch ((dir.settle b).drop k) r = dir.batch b (r + 1) := by
      intro r
      induction r with
      | zero => exact if_pos hend
      | succ r ih => rw [batch, ih]; rfl
    refine .inr ⟨hall, ?_⟩
    have hlength : ∀ r, (dir.before ((dir.settle b).drop k) r).length + k =
        (dir.before b (r + 1)).length := by
      intro r
      induction r with
      | zero => rw [length_before_succ, hall]; rfl
      | succ r ih =>
        rw [length_before_succ, dir.length_before_succ b (r + 1), hbatch, ← ih]
        omega
    exact hlength (r + 1)
  · have hsettle : dir.settle ((dir.settle b).drop k) = (dir.settle b).drop k := if_neg hend
    have hstage : ∀ r, (dir.batch ((dir.settle b).drop k) r).stage = (dir.batch b r).stage := by
      intro r
      induction r with
      | zero => rw [batch, hsettle]; rfl
      | succ r ih => rw [batch, ih, batch]
    refine .inl ⟨?_, ?_⟩
    · by_cases hlt : k < (dir.settle b).names.length
      · exact .inl hlt
      · have hnil := not_not.mp (not_and.mp hend (drop_eq_nil_iff.mpr (by omega)))
        right
        rw [owed, hnil]
        rfl
    · induction r with
      | zero =>
        rw [length_before_succ, length_before_succ, batch, hsettle]
        show 0 + ((dir.settle b).names.drop k).length + k = 0 + (dir.settle b).names.length
        rw [length_drop]
        omega
      | succ r ih =>
        have hnames : dir.batch ((dir.settle b).drop k) (r + 1) = dir.batch b (r + 1) := by
          rw [batch, hstage]
          rfl
        rw [length_before_succ, dir.length_before_succ b (r + 1), hnames, ← ih]
        omega

/-- The offsets still fit when some names of the first batch are given. -/
theorem OffsetsFrom.drop (hfit : dir.OffsetsFrom idx b) (hk : k ≤ (dir.settle b).names.length)
    (hidx : idx' + min 1 k ≤ idx + k) : dir.OffsetsFrom idx' ((dir.settle b).drop k) := by
  intro r
  rcases dir.length_before_drop b k hk r with ⟨-, hlen⟩ | ⟨hall, hlen⟩
  · have := hfit r
    omega
  · by_cases hzero : k = 0
    · -- the batch is empty, and so are all that follow
      have hnil : (dir.batch b 0).names = [] := eq_nil_of_length_eq_zero (hall.symm.trans hzero)
      have hle := length_before_le_of_owed (owed_batch hnil) (r + 1 + 1)
      have := hfit 0
      omega
    · have := hfit (r + 1)
      push_cast at this
      omega

end Directory

section Resume

variable [DecidableEq Id]

/-- The next `n` calls on a handle. -/
def resume (c : Client Id Name) (rooms : Nat → Nat) (s : Session Id Name) :
    Nat → Option (Session Id Name)
  | 0 => some s
  | n + 1 => (resume c rooms s n).bind (call c (rooms n))

theorem calls_eq_resume (c : Client Id Name) (rooms : Nat → Nat) (n : Nat) :
    calls c rooms n = resume c rooms ⟨.new, 0, []⟩ n := by
  induction n with
  | zero => rfl
  | succ n ih => rw [calls, ih, resume]

/-- The first call, and the calls on the handle that it leaves. -/
theorem resume_succ (c : Client Id Name) (room : Nat) {s s' : Session Id Name}
    (hcall : call c room s = some s') (n : Nat) :
    resume c (fun _ => room) s (n + 1) = resume c (fun _ => room) s' n := by
  induction n with
  | zero => exact hcall
  | succ n ih => rw [resume, ih, resume]

/-- **What is asked of the calls**: none is undefined, and from some call on they have delivered the
names in `target`, each once. -/
def DeliversNames (dir : Directory Id Name) (s : Session Id Name) (target : List Name)
    (rooms : Nat → Nat) : Prop :=
  (∀ n, (resume dir.client rooms s n).isSome) ∧
    ∃ n₀, ∀ n ≥ n₀, ∀ s', resume dir.client rooms s n = some s' → (namesOf s'.taken).Perm target

variable {dir : Directory Id Name} {b : Batch Id Name} {s s' : Session Id Name} {rooms : Nat → Nat}
  {room : Nat}

section

variable (h : Begins dir b s)

include h

/-- **Wherever defined calls lead**, the handle goes on with what is still to come. -/
theorem begins_of_resume (hrooms : ∀ n, 0 < rooms n) (n : Nat) :
    ∀ {s' : Session Id Name}, resume dir.client rooms s (n + 1) = some s' →
      ∃ b', Begins dir b' s' ∧ 1 ≤ s'.offset ∧
        (namesOf s'.taken ++ dir.coming b').Perm (namesOf s.taken ++ dir.coming b) := by
  induction n with
  | zero =>
    intro s' hcall
    obtain ⟨k, hcalled⟩ := h.called (hrooms 0) hcall
    exact ⟨_, hcalled.begins, hcalled.positive, hcalled.perm⟩
  | succ n ih =>
    intro s'' hresume
    obtain ⟨s', hs', hcall⟩ := bind_eq_some_iff.mp hresume
    obtain ⟨b', h', -, hperm⟩ := ih hs'
    obtain ⟨k, hcalled⟩ := h'.called (hrooms (n + 1)) hcall
    exact ⟨_, hcalled.begins, hcalled.positive, hcalled.perm.trans hperm⟩

/-- **One more call** is defined when the offsets fit, and they still fit. -/
theorem Begins.next (hfit : dir.OffsetsFrom (firstIdx s.offset) b)
    (hroom : 0 < room) : ∃ s' k, call dir.client room s = some s' ∧ Called dir b room k s s' ∧
      dir.OffsetsFrom (firstIdx s'.offset) ((dir.settle b).drop k) := by
  have hfirst : firstIdx s.offset + ((dir.settle b).names.length : Int) < 2 ^ 31 := by
    simpa [before, batch] using hfit 0
  obtain ⟨s', hcall⟩ := h.call_isSome room hfirst
  obtain ⟨k, hcalled⟩ := h.called hroom hcall
  refine ⟨s', k, hcall, hcalled, hfit.drop (hcalled.count ▸ Nat.min_le_left _ _) ?_⟩
  have hpos := hcalled.positive
  have hoffset := hcalled.offset
  rw [firstIdx, if_neg (by omega), hoffset]
  unfold firstIdx
  split <;> split <;> omega

/-- **The calls**: all are defined, and each has delivered a name or there is none left. -/
theorem resume_begins (hfit : dir.OffsetsFrom (firstIdx s.offset) b)
    (hrooms : ∀ n, 0 < rooms n) (n : Nat) :
    ∃ s' b', resume dir.client rooms s (n + 1) = some s' ∧ Begins dir b' s' ∧ 1 ≤ s'.offset ∧
      dir.OffsetsFrom (firstIdx s'.offset) b' ∧
      (namesOf s'.taken ++ dir.coming b').Perm (namesOf s.taken ++ dir.coming b) ∧
      (dir.coming b' = [] ∨ (namesOf s.taken).length + n ≤ (namesOf s'.taken).length) := by
  induction n with
  | zero =>
    obtain ⟨s', k, hcall, hcalled, hfit'⟩ := h.next hfit (hrooms 0)
    refine ⟨s', _, hcall, hcalled.begins, hcalled.positive, hfit', hcalled.perm, Or.inr ?_⟩
    rw [hcalled.given, length_append]
    exact Nat.le_add_right _ _
  | succ n ih =>
    obtain ⟨s', b', hresume, h', hpos, hfit', hperm, hcount⟩ := ih
    have hroom := hrooms (n + 1)
    obtain ⟨s'', k, hcall, hcalled, hfit''⟩ := h'.next hfit' hroom
    refine ⟨s'', _, ?_, hcalled.begins, hcalled.positive, hfit'', hcalled.perm.trans hperm, ?_⟩
    · rw [resume, hresume, bind_some, hcall]
    · by_cases hnil : dir.coming b' = []
      · have hlen := hcalled.perm.length_eq
        rw [hcalled.given, hnil, append_nil, length_append, length_append] at hlen
        exact .inl (eq_nil_of_length_eq_zero (by omega))
      · have hk : k ≠ 0 := mt (hcalled.coming_nil (by rwa [roomFor, if_neg (by omega)])) hnil
        have hcount := hcount.resolve_left hnil
        have hle := hcalled.count
        rw [hcalled.given, length_append, length_take]
        exact .inr (by omega)

/-- **What is delivered, however much the filler accepts**, when the offsets fit. -/
theorem delivers_iff_perm (hfit : dir.OffsetsFrom (firstIdx s.offset) b)
    (hrooms : ∀ n, 0 < rooms n) (target : List Name) :
    DeliversNames dir s target rooms ↔ (namesOf s.taken ++ dir.coming b).Perm target := by
  have hrun := resume_begins h hfit hrooms
  -- from this call on everything is delivered
  have hdone : ∀ n ≥ (dir.coming b).length + 1, ∀ s', resume dir.client rooms s n = some s' →
      (namesOf s'.taken).Perm (namesOf s.taken ++ dir.coming b) := by
    intro n hn s' hs'
    obtain ⟨m, rfl⟩ : ∃ m, n = m + 1 := ⟨n - 1, by omega⟩
    obtain ⟨s'', b', hresume, -, -, -, hperm, hcount⟩ := hrun m
    obtain rfl := some.inj (hresume.symm.trans hs')
    have hlen := hperm.length_eq
    rw [length_append, length_append] at hlen
    have hnil : dir.coming b' = [] :=
      hcount.elim id fun hcount => eq_nil_of_length_eq_zero (by omega)
    rwa [hnil, append_nil] at hperm
  constructor
  · rintro ⟨-, n₀, hperm⟩
    obtain ⟨s', -, hresume, -⟩ := hrun (n₀ + (dir.coming b).length)
    exact (hdone _ (by omega) s' hresume).symm.trans (hperm _ (by omega) s' hresume)
  · intro htarget
    refine ⟨?_, (dir.coming b).length + 1, fun n hn s' hs' => (hdone n hn s' hs').trans htarget⟩
    rintro (_ | n)
    · rfl
    · obtain ⟨s', -, hresume, -⟩ := hrun n
      rw [hresume]
      rfl

/-- A filler with room for a whole batch takes one batch with every call. -/
theorem Begins.whole (hdef : ∀ n, (resume dir.client (fun _ => 1048578) s n).isSome) :
    ∃ k s', Called dir b 1048578 k s s' ∧
      (∀ n, (resume dir.client (fun _ => 1048578) s' n).isSome) ∧
      (dir.before b 1).length = k ∧ k = (dir.settle b).names.length ∧
      firstIdx s.offset + k < 2 ^ 31 := by
  obtain ⟨s', hcall⟩ := isSome_iff_exists.mp (hdef 1)
  obtain ⟨k, hcalled⟩ := @Begins.called _ _ _ _ _ _ 1048578 _ h (by omega) hcall
  have hsmall : (dir.settle b).names.length ≤ 1048576 := by
    obtain ⟨d, -, hd, -⟩ := h.held.load
    have hlen := hd.length_left
    have := hd.small
    omega
  have hk := hcalled.count
  have hall : k = (dir.settle b).names.length := by
    unfold roomFor at hk
    split at hk <;> omega
  refine ⟨k, s', hcalled, fun n => ?_, ?_, hall, ?_⟩
  · rw [← resume_succ _ _ hcall]
    exact hdef (n + 1)
  · rw [dir.length_before_succ, hall]
    exact Nat.zero_add _
  · have hidx := h.firstIdx_lt
    rcases hcalled.defined with hzero | hlt <;> omega

end

/-- **The offsets fit when all calls are defined** with a filler that has room for a whole batch,
so that it takes one batch with every call. -/
theorem offsets_of_resume (r : Nat) : ∀ {b : Batch Id Name} {s : Session Id Name},
    Begins dir b s → (∀ n, (resume dir.client (fun _ => 1048578) s n).isSome) →
      firstIdx s.offset + ((dir.before b (r + 1)).length : Int) < 2 ^ 31 + r := by
  induction r with
  | zero =>
    intro b s h hdef
    obtain ⟨k, s', -, -, hlen, -, hfirst⟩ := h.whole hdef
    rw [hlen]
    exact_mod_cast hfirst
  | succ r ih =>
    intro b s h hdef
    obtain ⟨k, s', hcalled, hdef', hone, hall, hfirst⟩ := h.whole hdef
    have hrest := ih hcalled.begins hdef'
    have hpos := hcalled.positive
    have hoffset := hcalled.offset
    rw [firstIdx, if_neg (by omega)] at hrest
    -- either there is a next batch, or nothing follows
    by_cases howed : dir.owed (dir.batch b 0).stage = []
    · have hle := length_before_le_of_owed howed (r + 1 + 1)
      rw [Nat.zero_add, hone] at hle
      push_cast
      omega
    · have hk : k ≠ 0 := fun hzero =>
        howed (owed_batch (eq_nil_of_length_eq_zero (hall.symm.trans hzero)))
      rw [if_neg hk] at hoffset
      rcases dir.length_before_drop b k hall.le r with ⟨hlt | hnil, -⟩ | ⟨-, hlen⟩
      · omega
      · exact absurd hnil howed
      · push_cast
        omega

/-- **Going on from any state.**  However many entries the filler accepts with each call, the calls
deliver the names in `target` if and only if these are the ones delivered before, the ones left in
the buffer and the ones behind the cursors, and the offsets fit. -/
theorem resume_iff (h : Begins dir b s) (target : List Name) :
    (∀ rooms : Nat → Nat, (∀ n, 0 < rooms n) → DeliversNames dir s target rooms) ↔
      (namesOf s.taken ++ dir.coming b).Perm target ∧ dir.OffsetsFrom (firstIdx s.offset) b := by
  constructor
  · intro hall
    have hfit : dir.OffsetsFrom (firstIdx s.offset) b := fun r =>
      offsets_of_resume r h (hall (fun _ => 1048578) fun _ => by omega).1
    refine ⟨?_, hfit⟩
    exact (delivers_iff_perm h hfit (fun _ => Nat.one_pos) target).mp
      (hall (fun _ => 1) fun _ => Nat.one_pos)
  · rintro ⟨hperm, hfit⟩ rooms hrooms
    exact (delivers_iff_perm h hfit hrooms target).mpr hperm

end Resume

end FalconFS.ClientReadDir
