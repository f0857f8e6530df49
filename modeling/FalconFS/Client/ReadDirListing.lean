/-
# Listing a directory

A fresh handle, and calls from one offset to the next.  `ReadDirResume.lean` says which names such
calls deliver; the epochs of `ReadDir.lean` are its batches, with one position for all workers
(`batch_opened`).  What is left is the mode that each name is shown with.  An epoch puts its modes
behind those of all the epochs before, and the loop reads them from the beginning, so that `shown`
is what the filler gets.

`listing_exact_iff` is the exact condition under which every entry is delivered once and with its
own mode.
-/
import FalconFS.Client.ReadDirResume

namespace FalconFS.ClientReadDir

open List

variable {Id Name : Type}

/-! ## 1. What the epochs show -/

/-- Entries get their own modes when these come first among all modes. -/
theorem zipWith_eq_self_iff (l : List (DirEntry Name)) : ∀ modes : List (BitVec 32),
    (l.map (·.fileName)).zipWith DirEntry.mk modes = l ↔ l.map (·.stMode) <+: modes := by
  induction l with
  | nil => exact fun modes => ⟨fun _ => nil_prefix, fun _ => rfl⟩
  | cons e l ih =>
    rintro (_ | ⟨mode, modes⟩)
    · simp
    · rw [map_cons, map_cons, zipWith_cons_cons, cons_prefix_cons, ← ih modes,
        cons.injEq, DirEntry.mk.injEq]
      simp [eq_comm]

/-- Lists of the same names in the same order have the same entries only if they are equal. -/
theorem eq_of_perm_of_names {l l' : List (DirEntry Name)} (h : l.Perm l')
    (hnames : l.map (·.fileName) = l'.map (·.fileName)) (hnd : (l.map (·.fileName)).Nodup) :
    l = l' := by
  induction l generalizing l' with
  | nil => exact h.nil_eq
  | cons e l ih =>
    match l' with
    | [] => cases hnames
    | e' :: l' =>
      obtain ⟨hname, htail⟩ := cons.inj hnames
      obtain ⟨hnotMem, hnd⟩ := nodup_cons.mp hnd
      obtain rfl : e = e' := by
        rcases mem_cons.mp (h.subset mem_cons_self) with heq | hmem
        · exact heq
        · exact absurd (htail ▸ mem_map_of_mem hmem) hnotMem
      rw [ih h.cons_inv htail hnd]

namespace Directory

variable {dir : Directory Id Name}

section

variable (dir : Directory Id Name) (r : Nat)

/-- What an epoch shows: its names with the modes that are read for them. -/
def shown : List (DirEntry Name) :=
  ((dir.pages (dir.epoch r)).map (·.fileName)).zipWith DirEntry.mk
    ((dir.epoch (r + 1)).read.map (·.stMode))

def shownBefore : List (DirEntry Name) :=
  (range r).flatMap dir.shown

theorem read_succ : (dir.epoch (r + 1)).read = (dir.epoch r).read ++ dir.pages (dir.epoch r) := rfl

theorem shownBefore_succ : dir.shownBefore (r + 1) = dir.shownBefore r ++ dir.shown r := by
  rw [shownBefore, shownBefore, range_succ, flatMap_append, flatMap_singleton]

theorem length_read_succ : (dir.epoch (r + 1)).read.length =
    (dir.epoch r).read.length + (dir.pages (dir.epoch r)).length := by
  rw [dir.read_succ, length_append]

end

@[simp] theorem length_shown (r : Nat) :
    (dir.shown r).length = (dir.pages (dir.epoch r)).length := by
  rw [shown, length_zipWith, length_map, length_map, dir.length_read_succ]
  omega

section

variable (dir : Directory Id Name) (r : Nat)

theorem map_fileName_shown :
    (dir.shown r).map (·.fileName) = (dir.pages (dir.epoch r)).map (·.fileName) := by
  refine map_fileName_zipWith _ _ ?_
  rw [length_map, length_map, dir.length_read_succ]
  omega

theorem length_shownBefore : (dir.shownBefore r).length = (dir.epoch r).read.length := by
  induction r with
  | zero => rfl
  | succ r ih => rw [dir.shownBefore_succ, length_append, ih, length_shown, dir.length_read_succ]

theorem map_fileName_shownBefore :
    (dir.shownBefore r).map (·.fileName) = (dir.epoch r).read.map (·.fileName) := by
  induction r with
  | zero => rfl
  | succ r ih =>
    rw [dir.shownBefore_succ, map_append, ih, dir.map_fileName_shown, dir.read_succ,
      map_append]

end

/-- **Where the handle stands before an epoch.** -/
def stage (e : Epoch Id Name) : Stage Id := ⟨e.working, fun _ => e.position, e.read.length⟩

section

variable (dir : Directory Id Name)

/-- What a fresh handle begins with. -/
def opened : Batch Id Name := ⟨[], stage (dir.epoch 0)⟩

theorem nextBatch_stage (e : Epoch Id Name) :
    dir.nextBatch (stage e) = ⟨(dir.pages e).map (·.fileName), stage (dir.next e)⟩ := by
  simp only [stage, next, length_append]
  rfl

/-- Without workers an epoch changes nothing. -/
theorem next_of_working_nil {e : Epoch Id Name} (h : e.working = []) :
    dir.pages e = [] ∧ dir.next e = e := by
  have hasked : dir.asked e = [] := perm_nil.mp (h ▸ dir.order_perm _ _)
  have hpages : dir.pages e = [] := by rw [pages, hasked, flatMap_nil]
  have hsize : e.size = 0 := by simp [Epoch.size, h, fileNumberPerWorker]
  refine ⟨hpages, ?_⟩
  rw [next, hpages, hasked, hsize, append_nil, Nat.add_zero, filter_nil, ← h]

/-- **The batches of a fresh handle are the epochs.** -/
theorem batch_opened (r : Nat) : dir.batch dir.opened r =
    ⟨(dir.pages (dir.epoch r)).map (·.fileName), stage (dir.epoch (r + 1))⟩ := by
  induction r with
  | zero =>
    rw [batch, settle]
    split
    · exact dir.nextBatch_stage _
    · -- without a worker there is no epoch, and none is missed
      rename_i hload
      have hnil : (dir.epoch 0).working = [] := not_not.mp (not_and.mp hload rfl)
      obtain ⟨hpages, hnext⟩ := dir.next_of_working_nil hnil
      rw [hpages, epoch, hnext]
      rfl
  | succ r ih =>
    rw [batch, ih]
    exact dir.nextBatch_stage _

theorem before_opened (r : Nat) :
    dir.before dir.opened r = (dir.epoch r).read.map (·.fileName) := by
  induction r with
  | zero => rfl
  | succ r ih => rw [before, ih, dir.batch_opened, dir.read_succ, map_append]

theorem coming_opened :
    dir.coming dir.opened = if dir.workerInfo.length ≤ 1048576 then dir.allNames else [] := rfl

end

theorem offsetsFrom_opened : dir.OffsetsFrom 3 dir.opened ↔ dir.OffsetsFit := by
  refine forall_congr' fun r => ?_
  rw [dir.before_opened, length_map]
  omega

/-- An epoch has at most `FILE_NUMBER_PER_EPOCH` entries. -/
theorem length_pages_le (dir : Directory Id Name) (e : Epoch Id Name) :
    (dir.pages e).length ≤ 1048576 := by
  have hle := dir.length_nextBatch_le (stage e)
  rwa [dir.nextBatch_stage, length_map] at hle

/-- What is read and what is left of the workers that are not done is the directory. -/
theorem read_perm (dir : Directory Id Name) (r : Nat) :
    ((dir.epoch r).read ++ (dir.epoch r).working.flatMap (dir.rest (dir.epoch r))).Perm
      dir.all := by
  induction r with
  | zero => exact List.Perm.refl _
  | succ r ih =>
    have hjoin := dir.flatMap_pageAt_perm (stage (dir.epoch r)) (dir.asked (dir.epoch r))
    have hasked := (dir.askedAt_perm (stage (dir.epoch r))).flatMap_right (dir.rest (dir.epoch r))
    rw [dir.read_succ, append_assoc]
    exact ((hjoin.trans hasked).append_left _).trans ih

variable {r s : Nat}

theorem length_read_le (dir : Directory Id Name) (r : Nat) :
    (dir.epoch r).read.length ≤ dir.all.length := by
  have h := (dir.read_perm r).length_eq
  rw [length_append] at h
  omega

theorem length_read_mono (dir : Directory Id Name) (h : r ≤ s) :
    (dir.epoch r).read.length ≤ (dir.epoch s).read.length := by
  induction h with
  | refl => exact Nat.le_refl _
  | step _ ih =>
    rw [dir.length_read_succ]
    omega

/-- When everything is read, the epochs that follow are empty. -/
theorem pages_of_length_read (h : (dir.epoch r).read.length = dir.all.length) (hrs : r ≤ s) :
    dir.pages (dir.epoch s) = [] := by
  have hmono := dir.length_read_mono hrs
  have hle := dir.length_read_le (s + 1)
  rw [dir.length_read_succ] at hle
  exact eq_nil_of_length_eq_zero (by omega)

/-- When every worker is done with its first page, there is one epoch. -/
theorem one_epoch (hshort : ∀ id ∈ dir.workerInfo,
      (dir.entries id).length < fileNumberPerWorker dir.workerInfo.length) :
    (∀ r, dir.pages (dir.epoch (r + 1)) = []) ∧ dir.workerInfo.length ≤ 1048576 := by
  have hdone : ∀ r, (dir.epoch (r + 1)).working = [] := by
    intro r
    induction r with
    | zero =>
      refine filter_eq_nil_iff.mpr fun id hid => ?_
      have hlt := hshort id ((dir.order_perm _ _).subset hid)
      simp only [page, rest, length_take, length_drop, decide_eq_true_eq]
      show ¬fileNumberPerWorker dir.workerInfo.length ≤ _
      omega
    | succ r ih => rwa [epoch, (dir.next_of_working_nil ih).2]
  refine ⟨fun r => (dir.next_of_working_nil (hdone r)).1, ?_⟩
  by_contra hmany
  obtain ⟨id, hid⟩ := exists_mem_of_length_pos (by omega : 0 < dir.workerInfo.length)
  have hlt := hshort id hid
  rw [fileNumberPerWorker, Nat.div_eq_of_lt (by omega), Nat.zero_min] at hlt
  exact absurd hlt (Nat.not_lt_zero _)

theorem shown_eq_pages_iff (r : Nat) : dir.shown r = dir.pages (dir.epoch r) ↔
    (dir.pages (dir.epoch r)).map (·.stMode) <+: (dir.epoch (r + 1)).read.map (·.stMode) :=
  zipWith_eq_self_iff _ _

theorem shownBefore_eq_read_iff (r : Nat) : dir.shownBefore r = (dir.epoch r).read ↔
    ∀ s < r, dir.shown s = dir.pages (dir.epoch s) := by
  induction r with
  | zero => exact ⟨fun _ s hs => absurd hs (Nat.not_lt_zero s), fun _ => rfl⟩
  | succ r ih =>
    rw [dir.shownBefore_succ, dir.read_succ]
    constructor
    · intro h s hs
      obtain ⟨hbefore, hlast⟩ := append_inj h (dir.length_shownBefore r)
      rcases Nat.lt_succ_iff_lt_or_eq.mp hs with hlt | rfl
      · exact ih.mp hbefore s hlt
      · exact hlast
    · intro h
      rw [ih.mpr fun s hs => h s (Nat.lt_succ_of_lt hs), h r (Nat.lt_succ_self r)]

/-- **All modes are right** as soon as everything shown is right when everything is read. -/
theorem shownBefore_perm_iff (h : (dir.epoch r).read.length = dir.all.length) :
    (dir.shownBefore r).Perm dir.all ↔ dir.OwnModes := by
  have hall : (dir.epoch r).read.Perm dir.all := by
    have hperm := dir.read_perm r
    have hlen := hperm.length_eq
    rw [length_append] at hlen
    rwa [eq_nil_of_length_eq_zero (l := flatMap _ _) (by omega), append_nil] at hperm
  have hnd : ((dir.epoch r).read.map (·.fileName)).Nodup :=
    (hall.map _).nodup_iff.mpr dir.names_nodup
  constructor
  · intro hperm s
    have heq : dir.shownBefore r = (dir.epoch r).read :=
      eq_of_perm_of_names (hperm.trans hall.symm) (dir.map_fileName_shownBefore r)
        (dir.map_fileName_shownBefore r ▸ hnd)
    rw [← shown_eq_pages_iff]
    by_cases hs : s < r
    · exact (shownBefore_eq_read_iff r).mp heq s hs
    · have hnil := pages_of_length_read h (Nat.not_lt.mp hs)
      rw [shown, hnil]
      rfl
  · intro hmodes
    rw [(shownBefore_eq_read_iff r).mpr fun s _ => (shown_eq_pages_iff s).mpr (hmodes s)]
    exact hall

end Directory

/-! ## 2. The calls -/

section Run

variable {dir : Directory Id Name} {r : Nat} {s : Session Id Name} {d : DirOpenInstance Id Name}
  {rooms : Nat → Nat}

/-- **A handle between two calls of a listing**: the names of epoch `r`, of which `offset` are
given, and the modes of all epochs up to this one. -/
structure Shows [DecidableEq Id] (dir : Directory Id Name) (r : Nat) (s : Session Id Name) :
    Prop where
  begins : Begins dir (Batch.drop ⟨(dir.pages (dir.epoch r)).map (·.fileName),
    Directory.stage (dir.epoch (r + 1))⟩ s.inst.offset) s
  positive : 1 ≤ s.offset
  names : s.inst.partialEntryVec = (dir.pages (dir.epoch r)).map (·.fileName)
  fileModes : s.inst.fileModes = (dir.epoch (r + 1)).read.map (·.stMode)
  given : delivered s.taken = dir.shownBefore r ++ (dir.shown r).take s.inst.offset

/-- The modes that an epoch leaves. -/
theorem Turned.fileModes {d' : DirOpenInstance Id Name}
    (h : Turned dir (Directory.stage (dir.epoch r)) d d')
    (hmodes : d.fileModes = (dir.epoch r).read.map (·.stMode)) :
    d'.fileModes = (dir.epoch (r + 1)).read.map (·.stMode) := by
  rw [h.modes, hmodes, ← map_append]
  rfl

variable [DecidableEq Id] {s' : Session Id Name} {room : Nat} {b : Batch Id Name}

/-- The handle that a call of the listing begins with. -/
theorem Shows.startInst_eq (h : Shows dir r s) : startInst dir s = s.inst := by
  have hpos := h.positive
  exact if_neg (by omega)

open Directory

/-- When as many entries are delivered as there are, they are those of the epochs up to the last. -/
theorem Shows.delivered_eq (h : Shows dir r s)
    (hall : dir.all.length ≤ (delivered s.taken).length) :
    delivered s.taken = dir.shownBefore (r + 1) ∧
      (dir.epoch (r + 1)).read.length = dir.all.length := by
  have hle := dir.length_read_le (r + 1)
  rw [h.given, length_append, dir.length_shownBefore, length_take,
    length_shown] at hall
  rw [dir.length_read_succ] at hle ⊢
  refine ⟨?_, by omega⟩
  rw [h.given, dir.shownBefore_succ, take_of_length_le]
  rw [length_shown]
  omega

/-- A call that has loaded epoch `r`. -/
theorem shows_of_call (h : Begins dir b s) (hroom : 0 < room)
    (hload : load dir.client (startInst dir s) = (d, .success))
    (hbatch : dir.settle b = Batch.drop ⟨(dir.pages (dir.epoch r)).map (·.fileName),
      Directory.stage (dir.epoch (r + 1))⟩ d.offset)
    (hnames : d.partialEntryVec = (dir.pages (dir.epoch r)).map (·.fileName))
    (hmodes : d.fileModes = (dir.epoch (r + 1)).read.map (·.stMode))
    (hgiven : delivered s.taken = dir.shownBefore r ++ (dir.shown r).take d.offset)
    (hcall : call dir.client room s = some s') : Shows dir r s' := by
  obtain ⟨k, hcalled⟩ := h.called hroom hcall
  obtain ⟨d', hload', hinst, hdelivered⟩ := hcalled.inst
  obtain rfl : d = d' := congrArg Prod.fst (hload.symm.trans hload')
  have hshown : d.shown = dir.shown r := by
    rw [DirOpenInstance.shown, hnames, hmodes]
    rfl
  have hoffset : s'.inst.offset = d.offset + k := by rw [hinst]
  have hbegins := hcalled.begins
  rw [hbatch] at hbegins
  refine ⟨?_, hcalled.positive, ?_, ?_, ?_⟩
  · rwa [hoffset, Batch.drop, ← drop_drop]
  · rw [hinst]
    exact hnames
  · rw [hinst]
    exact hmodes
  · rw [hdelivered, hgiven, hshown, hoffset, append_assoc, ← take_add]

theorem begins_new (dir : Directory Id Name) : Begins dir dir.opened ⟨.new, 0, []⟩ := by
  refine ⟨Int.le_refl 0, (by decide : (0 : Int) < 2 ^ 31), ?_⟩
  rw [startInst, if_pos rfl]
  exact ⟨⟨Nat.le_refl _, Nat.zero_le _, Nat.le_refl _⟩,
    ⟨rfl, rfl, fun _ id hid => ⟨-1, if_pos hid, dir.behind_zero id hid⟩⟩,
    ⟨fun _ h => h, dir.workers_nodup, fun _ _ => Nat.zero_le _⟩, rfl⟩

/-- **Wherever defined calls lead**, the handle shows what the epochs show. -/
theorem shows_of_resume (hrooms : ∀ n, 0 < rooms n) (n : Nat) : ∀ {s' : Session Id Name},
    resume dir.client rooms ⟨.new, 0, []⟩ (n + 1) = some s' → ∃ r, Shows dir r s' := by
  induction n with
  | zero =>
    intro s' hcall
    have hnew := begins_new dir
    obtain ⟨d, hload, hd, hturned⟩ := hnew.held.load
    obtain ⟨hoffset, hnames, hmodes⟩ : d.offset = 0 ∧
        d.partialEntryVec = (dir.pages (dir.epoch 0)).map (·.fileName) ∧
        d.fileModes = (dir.epoch 1).read.map (·.stMode) := by
      by_cases hne : dir.workerInfo = []
      · obtain ⟨hpages, hnext⟩ := dir.next_of_working_nil (e := dir.epoch 0) hne
        rw [if_neg fun h => h.2 hne] at hturned
        rw [hturned, hpages, epoch, hnext]
        exact ⟨rfl, rfl, rfl⟩
      · rw [if_pos ⟨rfl, hne⟩] at hturned
        exact ⟨hturned.offset, hturned.names.trans (by rw [opened, dir.nextBatch_stage]),
          hturned.fileModes rfl⟩
    refine ⟨0, shows_of_call hnew (hrooms 0) hload ?_ hnames hmodes (by rw [hoffset]; rfl) hcall⟩
    rw [hoffset]
    exact dir.batch_opened 0
  | succ n ih =>
    intro s'' hresume
    obtain ⟨s', hs', hcall⟩ := Option.bind_eq_some_iff.mp hresume
    obtain ⟨r, h⟩ := ih hs'
    obtain ⟨d, hload, hd, hturned⟩ := h.begins.held.load
    split at hturned
    · rename_i hend
      refine ⟨r + 1, shows_of_call h.begins (hrooms _) hload ?_ ?_ ?_ ?_ hcall⟩
      · rw [hturned.offset, settle, if_pos hend]
        exact dir.nextBatch_stage _
      · exact hturned.names.trans (congrArg Batch.names (dir.nextBatch_stage _))
      · exact hturned.fileModes (h.startInst_eq ▸ h.fileModes)
      · have hle := drop_eq_nil_iff.mp hend.1
        rw [length_map, ← length_shown] at hle
        rw [h.given, hturned.offset, take_zero, append_nil, dir.shownBefore_succ,
          take_of_length_le hle]
    · rename_i hkeep
      rw [h.startInst_eq] at hturned
      subst hturned
      exact ⟨r, shows_of_call h.begins (hrooms _) hload (if_neg hkeep) h.names h.fileModes h.given
        hcall⟩

/-- **The modes are the other half of a listing.** -/
theorem delivers_iff_names (hrooms : ∀ n, 0 < rooms n) : Delivers dir rooms ↔
    DeliversNames dir ⟨.new, 0, []⟩ dir.allNames rooms ∧ dir.OwnModes := by
  have hshows : ∀ {n s}, calls dir.client rooms (n + 1) = some s →
      dir.all.length ≤ (delivered s.taken).length →
        ((delivered s.taken).Perm dir.all ↔ dir.OwnModes) := by
    intro n s hs hall
    rw [calls_eq_resume] at hs
    obtain ⟨r, h⟩ := shows_of_resume hrooms n hs
    obtain ⟨heq, hread⟩ := h.delivered_eq hall
    rw [heq, Directory.shownBefore_perm_iff hread]
  constructor
  · rintro ⟨hdef, n₀, hperm⟩
    refine ⟨⟨fun n => calls_eq_resume dir.client rooms n ▸ hdef n, n₀, fun n hn s hs => ?_⟩, ?_⟩
    · exact (hperm n hn s ((calls_eq_resume _ _ _).trans hs)).map _
    · obtain ⟨s, hs⟩ := Option.isSome_iff_exists.mp (hdef (n₀ + 1))
      have hall := hperm _ (Nat.le_succ n₀) s hs
      exact (hshows hs hall.length_eq.ge).mp hall
  · rintro ⟨⟨hdef, n₀, hperm⟩, hmodes⟩
    refine ⟨fun n => (calls_eq_resume dir.client rooms n).symm ▸ hdef n, n₀ + 1, ?_⟩
    rintro (_ | n) hn s hs
    · omega
    · have hnames := hperm (n + 1) (by omega) s ((calls_eq_resume _ _ _).symm.trans hs)
      have hlen := hnames.length_eq
      rw [namesOf, Directory.allNames, length_map, length_map] at hlen
      exact (hshows hs hlen.ge).mpr hmodes

/-- **The listing, however much the filler accepts.** -/
theorem delivers_iff (hfew : dir.workerInfo.length ≤ 1048576) (hfit : dir.OffsetsFit)
    (hrooms : ∀ n, 0 < rooms n) : Delivers dir rooms ↔ dir.OwnModes := by
  rw [delivers_iff_names hrooms,
    delivers_iff_perm (begins_new dir) (offsetsFrom_opened.mpr hfit) hrooms,
    dir.coming_opened, if_pos hfew]
  exact and_iff_right (List.Perm.refl _)

/-- **A directory that one epoch reads** is listed exactly. -/
theorem delivers_of_one_epoch
    (hshort : ∀ id ∈ dir.workerInfo,
      (dir.entries id).length < fileNumberPerWorker dir.workerInfo.length)
    (hrooms : ∀ n, 0 < rooms n) : Delivers dir rooms := by
  obtain ⟨hpages, hfew⟩ := one_epoch hshort
  have hread : ∀ r, (dir.epoch (r + 1)).read = dir.pages (dir.epoch 0) := by
    intro r
    induction r with
    | zero => rfl
    | succ r ih => rw [dir.read_succ, ih, hpages r, append_nil]
  refine (delivers_iff hfew (fun r => ?_) hrooms).mpr fun r => ?_
  · have hle := dir.length_pages_le (dir.epoch 0)
    rw [hread]
    omega
  · rcases r with _ | r
    · exact ⟨[], by rw [hread, append_nil]⟩
    · rw [hpages r]
      exact nil_prefix

/-- **Listing a directory.**  However many entries the filler accepts with each call, every entry
is delivered once and with its own mode, if and only if the pages and the offsets fit and the
modes of each epoch are those that `fileModes` begins with. -/
theorem listing_exact_iff (dir : Directory Id Name) :
    (∀ rooms : Nat → Nat, (∀ n, 0 < rooms n) → Delivers dir rooms) ↔
      dir.PagesFit ∧ dir.OffsetsFit ∧ dir.OwnModes := by
  have hnames := resume_iff (begins_new dir) dir.allNames
  have hpages : (dir.coming dir.opened).Perm dir.allNames ↔ dir.PagesFit := by
    rw [dir.coming_opened, Directory.PagesFit, ← map_eq_nil_iff (f := (·.fileName))]
    split
    · rename_i hfew
      exact iff_of_true (List.Perm.refl _) (Or.inl hfew)
    · rename_i hmany
      rw [nil_perm, or_iff_right hmany]
      rfl
  rw [← hpages, ← offsetsFrom_opened, ← and_assoc]
  constructor
  · intro h
    have hone : ∀ n : Nat, 0 < 1 := fun _ => Nat.one_pos
    refine ⟨hnames.mp fun rooms hrooms => ((delivers_iff_names hrooms).mp (h rooms hrooms)).1, ?_⟩
    exact ((delivers_iff_names hone).mp (h _ hone)).2
  · rintro ⟨hfit, hmodes⟩ rooms hrooms
    exact (delivers_iff_names hrooms).mpr ⟨hnames.mpr hfit rooms hrooms, hmodes⟩

end Run

/-! ## 3. A directory of 4097 entries -/

/-- One worker with 4096 files and behind them a directory; names are numbers. -/
def manyFiles : List (DirEntry Nat) :=
  (range 4096).map (⟨·, 0o100644⟩) ++ [⟨4096, 0o40755⟩]

theorem length_manyFiles : manyFiles.length = 4097 := by
  simp [manyFiles]

theorem map_fileName_manyFiles : manyFiles.map (·.fileName) = range 4097 := by
  rw [manyFiles, map_append, map_map, range_succ (n := 4096)]
  exact congrArg (· ++ [4096]) (map_id _)

/-- Where a cursor stands: behind the file of that name. -/
def manyFilesRead (i : Int) (name : Option Nat) : Nat := if i = -1 then 0 else name.elim 0 (· + 1)

def manyFilesDirectory : Directory Unit Nat where
  workerInfo := [()]
  order _ ids := ids
  entries _ := manyFiles
  answer _ m i name :=
    ⟨0, some (manyFilesRead i name + m - 1), (manyFiles.drop (manyFilesRead i name)).take m⟩
  Behind _ n i name := n = manyFilesRead i name
  workers_nodup := nodup_singleton ()
  order_perm _ _ := List.Perm.refl _
  names_nodup := by
    rw [flatMap_singleton, map_fileName_manyFiles]
    exact nodup_range
  behind_zero _ _ := rfl
  answer_length _ m _ _ := length_take_le _ _
  answer_page _ _ n i name h _ m := by rw [h]
  answer_behind _ _ n i name h m hm _ := by
    show n + m = manyFilesRead i name + m - 1 + 1
    omega

theorem epoch_one_manyFiles : manyFilesDirectory.epoch 1 =
    ⟨(range 4096).map (⟨·, 0o100644⟩), 4096, [()]⟩ := by
  have hpage : manyFiles.take 4096 = (range 4096).map (⟨·, 0o100644⟩) := by
    rw [manyFiles, take_left' (by simp)]
  have hsize : (manyFilesDirectory.epoch 0).size = 4096 := rfl
  show (⟨[] ++ ([()].flatMap fun _ => manyFiles.take (manyFilesDirectory.epoch 0).size),
    0 + (manyFilesDirectory.epoch 0).size, [()].filter fun _ => (manyFilesDirectory.epoch 0).size ≤
      (manyFiles.take (manyFilesDirectory.epoch 0).size).length⟩ : Epoch Unit Nat) = _
  rw [hsize, hpage]
  simp

/-- The directory, which the second epoch reads, is delivered with the mode of the first file. -/
theorem manyFiles_wrong_mode : ¬Delivers manyFilesDirectory fun _ => 5000 := by
  have hall : manyFilesDirectory.all.length = 4097 := by
    show ([()].flatMap fun _ => manyFiles).length = 4097
    rw [flatMap_singleton, length_manyFiles]
  have hfit : manyFilesDirectory.OffsetsFit := by
    intro r
    have hle := manyFilesDirectory.length_read_le (r + 1)
    omega
  have hfew : manyFilesDirectory.workerInfo.length ≤ 1048576 := by
    show 1 ≤ _
    omega
  rw [delivers_iff hfew hfit fun _ => by omega]
  intro hmodes
  have hprefix := hmodes 1
  rw [manyFilesDirectory.read_succ, epoch_one_manyFiles] at hprefix
  have hpages : manyFilesDirectory.pages ⟨(range 4096).map (⟨·, 0o100644⟩), 4096, [()]⟩ =
      [⟨4096, 0o40755⟩] := by
    show ([()].flatMap fun _ => (manyFiles.drop 4096).take 4096) = _
    rw [flatMap_singleton, manyFiles, drop_left' (by simp)]
    rfl
  rw [hpages, range_eq_range', range'_succ] at hprefix
  simp at hprefix

end FalconFS.ClientReadDir
