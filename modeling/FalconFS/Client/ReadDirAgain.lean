/-
# Listing a directory again, and going on after an error

Two questions about a handle that was used, both answered by `resume_iff`.

* **A call with offset 0** (`relists_iff`).  `SetAllWorkerInfo` makes all workers work again, but it
  keeps the cursors (`emplace`), the buffer and the position in it.  The listing is complete exactly
  when what is left in the buffer is what lies before the cursors.  After a complete pass both are
  nothing, since a worker that has no more resets its cursor.
* **A call that failed** (`retry_iff`).  An epoch clears `workingWorkers` before it asks the first
  worker, and puts back each worker that has more.  When one fails, it and all behind it are
  forgotten.  Only at offset 0 they come back, and then those that had finished come back too.

The last section says that the handles these theorems speak of are the ones that calls leave.
-/
import FalconFS.Client.ReadDirResume
import FalconFS.Client.ReadDirWorkers

namespace FalconFS.ClientReadDir

open List Directory DirOpenInstance

variable {Id Name : Type}

/-- The offsets fit when the names are that few. -/
theorem Directory.offsetsFrom_of_length {dir : Directory Id Name} {b : Batch Id Name} {idx : Int}
    (h : idx + (dir.coming b).length < 2 ^ 31) : dir.OffsetsFrom idx b := by
  intro r
  have hle := dir.length_before_le b (r + 1)
  omega

/-! ## 1. Offset 0 on a used handle -/

section Relist

variable {dir : Directory Id Name}

/-- A worker that has no more says -1, with which a listing begins. -/
def Directory.EndsFresh (dir : Directory Id Name) : Prop :=
  ∀ id ∈ dir.workerInfo, ∀ n i name, dir.Behind id n i name → ∀ m, 0 < m →
    (dir.entries id).length < n + m → (dir.answer id m i name).lastShardIndex = -1

theorem tableDirectory_endsFresh {N : Type} [LinearOrder N] {cfg : ReadDir.Config N}
    {workers : List Int}
    (hworkers : workers.Nodup) {snap : ∀ id, ReadDir.Snapshot (workerConfig cfg id)}
    {order : Nat → List Int → List Int} (horder : ∀ n ids, (order n ids).Perm ids) :
    (tableDirectory cfg workers hworkers snap order horder).EndsFresh := by
  intro id _ n i name hbehind m hm hlt
  have hend : (ReadDir.falconReadDirHandle (workerConfig cfg id) (fun _ => snap id) m
      (toCursor i name)).2 = none := by
    have hlt' : (ReadDir.listing (workerConfig cfg id) (snap id)).length < n + m := by
      simpa [tableDirectory] using hlt
    rw [ReadDir.falconReadDirHandle_full (snap id) hm,
      (ReadDir.falconReadDirHandle_page hbehind hm).1,
      length_take, length_drop]
    omega
  show ((ReadDir.falconReadDirHandle _ _ _ _).2.elim (-1) _ : Int) = -1
  rw [hend]
  rfl

variable [DecidableEq Id]

/-- **A handle as earlier calls leave it** (`left_used`): each worker has a cursor, which stands
behind `pos id` entries.  Pages without room leave cursors of which nothing is known. -/
structure Used (dir : Directory Id Name) (d : DirOpenInstance Id Name) (pos : Id → Nat) : Prop
    extends Buffered d where
  entries : ∀ id ∈ dir.workerInfo, pos id ≤ (dir.entries id).length
  cursors : dir.workerInfo.length ≤ 1048576 → ∀ id ∈ dir.workerInfo,
    HasCursor dir (d.setAllWorkerInfo dir.workerInfo) id (pos id)

end Relist

section

variable (dir : Directory Id Name) (d : DirOpenInstance Id Name) (pos : Id → Nat)

/-- What a call with offset 0 begins with: the buffer as it was left, and all workers with their
cursors. -/
def Directory.restarted : Batch Id Name :=
  ⟨d.partialEntryVec.drop d.offset, ⟨dir.workerInfo, pos, d.fileModes.length⟩⟩

/-- **The buffer and what lies behind the cursors are the directory**, and the offsets fit. -/
def Directory.Restarts : Prop :=
  (dir.coming (dir.restarted d pos)).Perm dir.allNames ∧ dir.OffsetsFrom 3 (dir.restarted d pos)

end

/-- With enough room on the pages: what is left in the buffer is what lies before the cursors. -/
theorem Directory.coming_restarted_iff {dir : Directory Id Name} {d : DirOpenInstance Id Name}
    {pos : Id → Nat} (hfew : dir.workerInfo.length ≤ 1048576) :
    (dir.coming (dir.restarted d pos)).Perm dir.allNames ↔
      (d.partialEntryVec.drop d.offset).Perm
        ((dir.workerInfo.flatMap fun id => (dir.entries id).take (pos id)).map (·.fileName)) := by
  have hsplit : dir.allNames.Perm
      ((dir.workerInfo.flatMap fun id => (dir.entries id).take (pos id)).map (·.fileName) ++
        dir.owed (dir.restarted d pos).stage) := by
    have hjoin := flatMap_append_perm dir.workerInfo (fun id => (dir.entries id).take (pos id))
      (fun id => (dir.entries id).drop (pos id))
    simp only [take_append_drop] at hjoin
    have howed : dir.owed (dir.restarted d pos).stage =
        (dir.workerInfo.flatMap fun id => (dir.entries id).drop (pos id)).map (·.fileName) :=
          if_pos hfew
    rw [howed, ← map_append]
    exact (hjoin.symm).map _
  constructor
  · intro h
    exact (perm_append_right_iff _).mp (h.trans hsplit)
  · intro h
    exact (h.append_right _).trans hsplit.symm

section Relist

variable [DecidableEq Id] {dir : Directory Id Name} {d : DirOpenInstance Id Name} {pos : Id → Nat}

theorem HasCursor.setAllWorkerInfo {id : Id} {n : Nat}
    (h : HasCursor dir d id n) (ids : List Id) : HasCursor dir (d.setAllWorkerInfo ids) id n := by
  obtain ⟨i, hshard, hbehind⟩ := h
  refine ⟨i, ?_, hbehind⟩
  simp [DirOpenInstance.setAllWorkerInfo, hshard]

theorem Used.begins (h : Used dir d pos) : Begins dir (dir.restarted d pos) ⟨d, 0, []⟩ := by
  refine ⟨Int.le_refl 0, (by decide : (0 : Int) < 2 ^ 31), ?_⟩
  rw [startInst, if_pos rfl]
  refine ⟨⟨h.modes, h.small, h.inside⟩, ⟨rfl, rfl, fun hpos id hid => ?_⟩,
    ⟨fun _ h => h, dir.workers_nodup, h.entries⟩, rfl⟩
  refine h.cursors (not_lt.mp fun hmany => ?_) id hid
  rw [Stage.size_zero (Nat.not_le.mpr hmany)] at hpos
  exact absurd hpos (Nat.lt_irrefl _)

theorem used_new (dir : Directory Id Name) : Used dir .new fun _ => 0 := by
  refine ⟨⟨Nat.le_refl _, Nat.zero_le _, Nat.le_refl _⟩, fun _ _ => Nat.zero_le _, fun _ id hid =>
    ⟨-1, ?_, dir.behind_zero id hid⟩⟩
  simp [setAllWorkerInfo, new, hid]

/-- **Listing again.**  A call with offset 0 on a used handle, and the calls that follow it, list
the directory completely, each name once, if and only if what was left in the buffer and what lies
behind the cursors is the directory, and the offsets fit. -/
theorem relists_iff (h : Used dir d pos) :
    (∀ rooms : Nat → Nat, (∀ n, 0 < rooms n) → DeliversNames dir ⟨d, 0, []⟩ dir.allNames rooms) ↔
      dir.Restarts d pos :=
  resume_iff h.begins dir.allNames

/-- Where the cursor of a worker stands that counts its entries. -/
def counted (i : Int) : Nat := if i = -1 then 0 else i.toNat

theorem counted_natCast (n : Nat) : counted n = n := by
  rw [counted, if_neg (by omega), Int.toNat_natCast]

/-- Workers with a list of files each, for the cases below.  The index that they answer with is the
number of entries they have given, and -1 with the last page. -/
def listDirectory (workers : List Nat) (files : Nat → List Nat) (hworkers : workers.Nodup)
    (hfiles : (workers.flatMap files).Nodup) : Directory Nat Nat where
  workerInfo := workers
  order _ ids := ids
  entries id := (files id).map (⟨·, 0o100644⟩)
  answer id m i _ :=
    ⟨if (files id).length < counted i + m then -1 else (counted i + m : Nat), none,
      (((files id).map (⟨·, 0o100644⟩)).drop (counted i)).take m⟩
  Behind _ n i _ := n = counted i
  workers_nodup := hworkers
  order_perm _ _ := List.Perm.refl _
  names_nodup := by
    rw [map_flatMap]
    simpa [Function.comp_def] using hfiles
  behind_zero _ _ := rfl
  answer_length _ m _ _ := length_take_le _ _
  answer_page _ _ n i _ h _ m := by rw [h]
  answer_behind id _ n i _ h m _ hle := by
    rw [length_map, h] at hle
    rw [h, if_neg (by omega), counted_natCast]

theorem listDirectory_endsFresh {workers : List Nat} {files : Nat → List Nat}
    (hworkers : workers.Nodup) (hfiles : (workers.flatMap files).Nodup) :
    (listDirectory workers files hworkers hfiles).EndsFresh := by
  intro id _ n i _ hbehind m _ hlt
  have hbehind : n = counted i := hbehind
  have hlt : ((files id).map _).length < n + m := hlt
  rw [length_map, hbehind] at hlt
  exact if_pos hlt

def twoFiles : Directory Nat Nat := listDirectory [1] (fun _ => [1, 2]) (by decide) (by decide)

/-- A handle of this directory after its one epoch. -/
theorem used_twoFiles {d : DirOpenInstance Nat Nat} (hnames : d.partialEntryVec = [1, 2])
    (hmodes : d.fileModes.length = 2) (hoffset : d.offset ≤ 2)
    (hshard : d.lastShardIndexes 1 = some (-1)) : Used twoFiles d fun _ => 0 := by
  refine ⟨⟨?_, ?_, ?_⟩, fun _ _ => Nat.zero_le _, fun _ id hid => ?_⟩
  · rw [hnames, hmodes]
    exact Nat.le_refl _
  · rw [hnames]
    decide
  · rw [hnames]
    exact hoffset
  · obtain rfl : id = 1 := mem_singleton.mp hid
    exact HasCursor.setAllWorkerInfo ⟨-1, hshard, rfl⟩ _

/-- After a complete pass the listing is repeated. -/
theorem relists_twoFiles :
    ∃ d buf, falconReadDir twoFiles.client .new 0 5 = some (d, buf, .success) ∧
    ∀ rooms : Nat → Nat, (∀ n, 0 < rooms n) →
      DeliversNames twoFiles ⟨d, 0, []⟩ twoFiles.allNames rooms := by
  refine ⟨_, _, rfl, ?_⟩
  rw [relists_iff (used_twoFiles rfl rfl (by decide) rfl)]
  exact ⟨by decide, offsetsFrom_of_length (by decide)⟩

/-- Two files, of which the filler has taken the first: the second comes from the buffer, and once
more with the listing. -/
theorem half_listed_repeats : ∃ d buf,
    falconReadDir twoFiles.client .new 0 3 = some (d, buf, .success) ∧
      ¬ DeliversNames twoFiles ⟨d, 0, []⟩ twoFiles.allNames fun _ => 3 := by
  refine ⟨_, _, rfl, ?_⟩
  intro hdelivers
  rw [delivers_iff_perm (used_twoFiles rfl rfl (by decide) rfl).begins
    (offsetsFrom_of_length (by decide)) fun _ => by omega] at hdelivers
  exact absurd hdelivers (by decide)

end Relist

/-! ## 2. A call that fails -/

section

variable (dir : Directory Id Name) (fault : Id → Option ErrorCode)

/-- The workers while some of them answer with an error. -/
def Directory.faulty : Client Id Name :=
  { dir.client with
    readDir := fun id m i name =>
      match fault id with
      | none => .ok (dir.answer id m i name)
      | some e => .error e }

/-- The workers that an epoch has asked before one fails, and those from this one on. -/
def Directory.answered (st : Stage Id) :
    List Id := (dir.askedAt st).takeWhile fun id => (fault id).isNone

def Directory.unanswered (st : Stage Id) :
    List Id := (dir.askedAt st).dropWhile fun id => (fault id).isNone

end

section Fault

variable {dir : Directory Id Name} {fault : Id → Option ErrorCode}

theorem Directory.mem_working_of_answered {id : Id} {st : Stage Id}
    (h : id ∈ dir.answered fault st) : id ∈ st.working :=
  (dir.askedAt_perm st).subset (takeWhile_subset _ h)

theorem Directory.ValidAt.nodup_answered {st : Stage Id} (h : dir.ValidAt st) :
    (dir.answered fault st).Nodup :=
  ((dir.askedAt_perm st).nodup_iff.mpr h.nodup).sublist (takeWhile_sublist _)

variable [DecidableEq Id]

/-- **The loop with an error in it** has done what the loop over the workers before it does. -/
theorem readWorkers_faulty (size : Nat) (ids : List Id) : ∀ d : DirOpenInstance Id Name,
    (readWorkers (dir.faulty fault) size ids d).1 =
      (readWorkers dir.client size (ids.takeWhile fun id => (fault id).isNone) d).1 := by
  induction ids with
  | nil => exact fun _ => rfl
  | cons id ids ih =>
    intro d
    cases hid : fault id with
    | none =>
      have hread : (dir.faulty fault).readDir id = dir.client.readDir id := by
        funext m i name
        show (match fault id with | none => _ | some e => _) = _
        rw [hid]
        rfl
      rw [takeWhile_cons_of_pos (by rw [hid]; rfl), readWorkers, readWorkers, hread]
      exact ih _
    | some e =>
      have hread : ∀ m i name, (dir.faulty fault).readDir id m i name = .error e := by
        intro m i name
        show (match fault id with | none => _ | some e => _) = _
        rw [hid]
      rw [takeWhile_cons_of_neg (by rw [hid]; simp)]
      simp only [readWorkers, hread]

/-- The handle when an epoch begins. -/
def DirOpenInstance.cleared (d : DirOpenInstance Id Name) (workers : List Id) :
    DirOpenInstance Id Name :=
  { d with workers := workers, workingWorkers := [], partialEntryVec := [], offset := 0 }

/-- **An epoch with an error in it** has read the pages of the workers before the one that failed.
-/
theorem load_faulty {d : DirOpenInstance Id Name} {st : Stage Id}
    (hworking : d.workingWorkers = st.working) (hcount : d.fileModes.length = st.count)
    (hbegin : d.partialEntryVec.length ≤ d.offset ∧ d.workingWorkers ≠ []) :
    (load (dir.faulty fault) d).1 =
      (readWorkers dir.client st.size (dir.answered fault st) (d.cleared (dir.askedAt st))).1 := by
  rw [load, if_pos hbegin]
  simp only [readWorkers_faulty, hworking, hcount]
  rfl

/-- The pages are those behind the cursors. -/
theorem load_answered {d : DirOpenInstance Id Name} {st : Stage Id} (hv : dir.ValidAt st)
    (h : ReadyAt dir st d) (hbegin : d.partialEntryVec.length ≤ d.offset ∧ d.workingWorkers ≠ []) :
    ∃ d', (load (dir.faulty fault) d).1 = d' ∧
      AddedAt dir st (dir.answered fault st) (d.cleared (dir.askedAt st)) d' := by
  have hsub : ∀ id ∈ dir.answered fault st, id ∈ st.working := fun _ hid =>
    mem_working_of_answered hid
  obtain ⟨d', hrun, hadded⟩ := readWorkers_addedAt (dir.answered fault st)
    (d.cleared (dir.askedAt st)) hv.nodup_answered fun id hid =>
      ⟨hv.subset id (hsub id hid), hv.inside id (hsub id hid), fun hpos =>
        h.cursors hpos id (hsub id hid)⟩
  exact ⟨d', by rw [load_faulty h.working h.count hbegin, hrun], hadded⟩

theorem start_fst (c : Client Id Name) (d : DirOpenInstance Id Name) (offset : Int) (room : Nat) :
    (start c d offset room).1 = if offset = 0 then d.setAllWorkerInfo c.workerInfo else d := by
  unfold start
  split <;> rfl

variable {d' : DirOpenInstance Id Name} {room : Nat} {buf : Buf Name} {e : ErrorCode}

/-- What a call leaves: the handle after its epoch, when that has failed; otherwise the same at
another offset. -/
theorem falconReadDir_cases {c : Client Id Name} {d d₀ : DirOpenInstance Id Name} {offset : Int}
    (hd₀ : (start c d offset room).1 = d₀) (h : falconReadDir c d offset room = some (d', buf, e)) :
    ((load c d₀).2 ≠ .success ∧ d' = (load c d₀).1) ∨
      (e = .success ∧ ∃ n idx b res, fill (load c d₀).1 n (load c d₀).1.offset idx b = some res ∧
        n = (load c d₀).1.partialEntryVec.length - (load c d₀).1.offset ∧
        d' = { (load c d₀).1 with
          offset := res.1.getD (load c d₀).1.partialEntryVec.length % 2 ^ 32 }) := by
  unfold falconReadDir at h
  dsimp only at h
  rw [hd₀] at h
  split at h
  · unfold give at h
    obtain ⟨res, hfill, hres⟩ := Option.map_eq_some_iff.mp h
    cases hres
    exact Or.inr ⟨rfl, _, _, _, res, hfill, rfl, rfl⟩
  · rename_i hne
    cases h
    exact Or.inl ⟨hne, rfl⟩

/-- **What a failed call has found, and what it leaves**: the buffer was used up, and now it has the
pages of the workers that have answered. -/
theorem falconReadDir_failed {s : Session Id Name}
    (hfail : falconReadDir (dir.faulty fault) s.inst s.offset room = some (d', buf, e))
    (he : e ≠ .success) {st : Stage Id} (hv : dir.ValidAt st) (h : ReadyAt dir st (startInst dir s))
    (hfew : st.working.length ≤ 1048576) :
    (startInst dir s).partialEntryVec.length ≤ (startInst dir s).offset ∧
      Fresh dir (dir.readFrom st (dir.answered fault st)) d' ∧
      AddedAt dir st (dir.answered fault st) ((startInst dir s).cleared (dir.askedAt st)) d' := by
  have hstart : (start (dir.faulty fault) s.inst s.offset room).1 = startInst dir s :=
    start_fst _ _ _ _
  obtain ⟨hne, hd'⟩ | ⟨hsuccess, -⟩ := falconReadDir_cases hstart hfail
  case inr => exact absurd hsuccess he
  by_cases hbegin : (startInst dir s).partialEntryVec.length ≤ (startInst dir s).offset ∧
      (startInst dir s).workingWorkers ≠ []
  · have hsize := Stage.size_pos (h.working ▸ hbegin.2) hfew
    obtain ⟨d₂, hrun, hadded⟩ := load_answered hv h hbegin
    rw [hrun] at hd'
    obtain rfl := hd'
    exact ⟨hbegin.1, hadded.fresh h.count rfl rfl rfl fun _ => hsize, hadded⟩
  · rw [load, if_neg hbegin] at hne
    exact absurd rfl hne

end Fault

/-- What a call that is repeated begins with.  At offset 0 all workers work again, and a worker that
has answered with its last page begins again. -/
def Directory.retried [DecidableEq Id] (dir : Directory Id Name) (offset : Int)
    (fault : Id → Option ErrorCode) (st : Stage Id) : Batch Id Name :=
  let read := dir.readFrom st (dir.answered fault st)
  if offset = 0 then
    ⟨read.names, ⟨dir.workerInfo, fun id =>
      if id ∈ dir.answered fault st then
        if st.size ≤ (dir.pageAt st id).length then st.position id + st.size else 0
      else st.position id, read.stage.count⟩⟩
  else read

/-- **What a failed call may be without a loss**: behind offset 0 the workers that did not answer
have nothing more; at offset 0 those that answered have a full page, or no entry at all. -/
def Directory.RetryKeeps (dir : Directory Id Name) (offset : Int) (fault : Id → Option ErrorCode)
    (st : Stage Id) : Prop :=
  if offset = 0 then
    ∀ id ∈ dir.answered fault st, (dir.pageAt st id).length < st.size → dir.entries id = []
  else ∀ id ∈ dir.unanswered fault st, dir.restAt st id = []

/-- A handle that has lost nothing: what is delivered and what is coming is the directory. -/
structure OnCourse [DecidableEq Id] (dir : Directory Id Name) (b : Batch Id Name)
    (s : Session Id Name) : Prop extends Begins dir b s where
  whole : (namesOf s.taken ++ dir.coming b).Perm dir.allNames

theorem append_perm_left_iff {α : Type} {xs ys : List α} : (xs ++ ys).Perm xs ↔ ys = [] := by
  constructor
  · intro h
    have hlen := h.length_eq
    rw [length_append] at hlen
    exact eq_nil_of_length_eq_zero (by omega)
  · rintro rfl
    rw [append_nil]

section Retry

variable {dir : Directory Id Name} {fault : Id → Option ErrorCode} {st : Stage Id}

section

variable (dir : Directory Id Name) (fault : Id → Option ErrorCode) (st : Stage Id)

theorem Directory.answered_append :
    dir.answered fault st ++ dir.unanswered fault st = dir.askedAt st :=
  takeWhile_append_dropWhile

theorem Directory.length_answered_le : (dir.answered fault st).length ≤ st.working.length :=
  (takeWhile_sublist _).length_le.trans (dir.askedAt_perm st).length_eq.le

end

variable {id : Id} {offset : Int} {d' : DirOpenInstance Id Name} {ids : List Id} {b : Batch Id Name}
  {s : Session Id Name} {room : Nat} {buf : Buf Name} {e : ErrorCode}

/-- What is owed, by those that answered and by the others. -/
theorem Directory.owed_perm_answered (dir : Directory Id Name)
    (fault : Id → Option ErrorCode) (hfew : st.working.length ≤ 1048576) :
    (((dir.answered fault st).flatMap (dir.restAt st) ++
      (dir.unanswered fault st).flatMap (dir.restAt st)).map (·.fileName)).Perm (dir.owed st) := by
  rw [← flatMap_append, dir.answered_append, owed, if_pos hfew]
  exact ((dir.askedAt_perm st).flatMap_right _).map _

variable [DecidableEq Id]

/-- Behind offset 0, what the workers had that did not answer is lost. -/
theorem Directory.coming_retried_later (dir : Directory Id Name) (fault : Id → Option ErrorCode)
    (hoffset : offset ≠ 0) (hfew : st.working.length ≤ 1048576) :
    (dir.coming (dir.retried offset fault st) ++
        ((dir.unanswered fault st).flatMap (dir.restAt st)).map (·.fileName)).Perm
          (dir.owed st) := by
  have hread := dir.readFrom_perm st (dir.answered fault st)
  have hworking : (dir.readFrom st (dir.answered fault st)).stage.working.length ≤ 1048576 :=
    ((length_filter_le _ _).trans (dir.length_answered_le fault st)).trans hfew
  refine List.Perm.trans ?_ (dir.owed_perm_answered fault hfew)
  rw [retried, if_neg hoffset, coming, owed, if_pos hworking, map_append]
  exact hread.append_right _

/-- The page that a worker has answered with, and what it will be asked for at offset 0. -/
theorem Directory.pageAt_append_retried (hid : id ∈ dir.answered fault st) :
    dir.pageAt st id ++ dir.restAt (dir.retried 0 fault st).stage id =
      dir.restAt st id ++ if st.size ≤ (dir.pageAt st id).length then [] else dir.entries id := by
  have hpage := dir.pageAt_append st (dir.answered fault st) id
  have hposition : (dir.retried 0 fault st).stage.position id =
      if st.size ≤ (dir.pageAt st id).length then st.position id + st.size else 0 := by
    simp only [retried, if_true, if_pos hid]
  rw [restAt, hposition]
  by_cases hfull : st.size ≤ (dir.pageAt st id).length
  · rw [if_pos hfull, if_pos hfull, append_nil]
    exact hpage
  · rw [restAt_readFrom_of_short hfull, append_nil] at hpage
    rw [if_neg hfull, if_neg hfull, drop_zero, hpage]

/-- At offset 0, what those have that answered with their last page is there twice. -/
theorem Directory.coming_retried_zero (hfew : st.working.length ≤ 1048576)
    (hworking : st.working = dir.workerInfo) :
    (dir.coming (dir.retried 0 fault st)).Perm
      (dir.owed st ++ ((dir.answered fault st).flatMap fun id =>
        if st.size ≤ (dir.pageAt st id).length then [] else dir.entries id).map (·.fileName)) := by
  obtain ⟨rest, hrest⟩ : ∃ rest, rest = dir.restAt (dir.retried 0 fault st).stage := ⟨_, rfl⟩
  obtain ⟨extra, hextra⟩ : ∃ extra : Id → List (DirEntry Name), extra = fun id =>
    if st.size ≤ (dir.pageAt st id).length then [] else dir.entries id := ⟨_, rfl⟩
  have hasked : (dir.askedAt st).Perm dir.workerInfo := hworking ▸ dir.askedAt_perm st
  have hnodup := hasked.nodup_iff.mpr dir.workers_nodup
  rw [← dir.answered_append fault st] at hnodup hasked
  -- those that have answered, and the others
  have hothers : (dir.unanswered fault st).flatMap rest =
      (dir.unanswered fault st).flatMap (dir.restAt st) := by
    refine flatMap_congr fun id hid => ?_
    have hnot : id ∉ dir.answered fault st := fun hmem =>
      disjoint_of_nodup_append hnodup hmem hid
    simp only [hrest, restAt, retried, if_true, if_neg hnot]
  have hanswered : (dir.answered fault st).flatMap (fun id => dir.pageAt st id ++ rest id) =
      (dir.answered fault st).flatMap (fun id => dir.restAt st id ++ extra id) := by
    refine flatMap_congr fun id hid => ?_
    rw [hrest, hextra]
    exact pageAt_append_retried hid
  have hcoming : dir.coming (dir.retried 0 fault st) =
      ((dir.answered fault st).flatMap (dir.pageAt st) ++ dir.workerInfo.flatMap rest).map
        (·.fileName) := by
    have howed : dir.owed (dir.retried 0 fault st).stage = (dir.workerInfo.flatMap rest).map
        (·.fileName) := by
      rw [hrest]
      exact if_pos (by rwa [hworking] at hfew)
    rw [coming, howed, map_append]
    rfl
  have hall : (dir.workerInfo.flatMap rest).Perm ((dir.answered fault st).flatMap rest ++
      (dir.unanswered fault st).flatMap (dir.restAt st)) := by
    rw [← hothers, ← flatMap_append]
    exact (hasked.flatMap_right rest).symm
  rw [hcoming, ← hextra]
  refine List.Perm.trans ?_ ((dir.owed_perm_answered fault hfew).append_right _)
  rw [← map_append]
  refine List.Perm.map _ ?_
  calc List.Perm ((dir.answered fault st).flatMap (dir.pageAt st) ++ dir.workerInfo.flatMap rest)
        ((dir.answered fault st).flatMap (dir.pageAt st) ++ ((dir.answered fault st).flatMap rest ++
          (dir.unanswered fault st).flatMap (dir.restAt st))) := hall.append_left _
    List.Perm _ ((dir.answered fault st).flatMap (fun id => dir.pageAt st id ++ rest id) ++
          (dir.unanswered fault st).flatMap (dir.restAt st)) := by
      rw [← append_assoc]
      exact (flatMap_append_perm _ _ _).append_right _
    List.Perm _ (((dir.answered fault st).flatMap (dir.restAt st) ++
      (dir.answered fault st).flatMap extra) ++
          (dir.unanswered fault st).flatMap (dir.restAt st)) := by
      rw [hanswered]
      exact (flatMap_append_perm _ _ _).symm.append_right _
    List.Perm _ _ := by
      rw [append_assoc, append_assoc]
      exact perm_append_comm.append_left _

theorem Directory.coming_retried_iff (hfew : st.working.length ≤ 1048576)
    (hworking : offset = 0 → st.working = dir.workerInfo) :
    (dir.coming (dir.retried offset fault st)).Perm (dir.owed st) ↔
    dir.RetryKeeps offset fault st := by
  by_cases hoffset : offset = 0
  · obtain rfl := hoffset
    rw [(coming_retried_zero hfew (hworking rfl)).congr_left, append_perm_left_iff, RetryKeeps,
      if_pos rfl,
      map_eq_nil_iff, flatMap_eq_nil_iff]
    refine forall₂_congr fun id _ => ?_
    by_cases hfull : st.size ≤ (dir.pageAt st id).length
    · simp [if_pos hfull, Nat.not_lt.mpr hfull]
    · simp [if_neg hfull, Nat.not_le.mp hfull]
  · rw [← (dir.coming_retried_later fault hoffset hfew).congr_right, perm_comm,
      append_perm_left_iff, RetryKeeps, if_neg hoffset, map_eq_nil_iff,
        flatMap_eq_nil_iff]

/-- **The cursor of a worker after a failed epoch**, when all workers work again. -/
theorem retried_cursor {d : DirOpenInstance Id Name} (hend : dir.EndsFresh)
    (hadded : AddedAt dir st ids d d') (hsize : 0 < st.size) (hid : id ∈ dir.workerInfo)
    (hin : st.position id ≤ (dir.entries id).length)
    (hcursor : HasCursor dir (d.setAllWorkerInfo dir.workerInfo) id (st.position id)) :
    HasCursor dir (d'.setAllWorkerInfo dir.workerInfo) id
      (if id ∈ ids then
        if st.size ≤ (dir.pageAt st id).length then st.position id + st.size else 0
      else st.position id) := by
  by_cases hmem : id ∈ ids
  · rw [if_pos hmem]
    refine HasCursor.setAllWorkerInfo ?_ _
    by_cases hfull : st.size ≤ (dir.pageAt st id).length
    · rw [if_pos hfull]
      exact hadded.full hsize id hmem hfull
    · -- the worker has said -1, with which a listing begins
      obtain ⟨hname, i, name, hbehind, hshard⟩ := hadded.short id hmem hfull
      have hshort := not_le.mp (mt (size_le_pageAt_iff hin).mpr hfull)
      rw [if_neg hfull]
      refine ⟨-1, ?_, ?_⟩
      · rw [hshard, hend id hid _ i name hbehind _ hsize hshort]
      · rw [hname]
        exact dir.behind_zero id hid
  · rw [if_neg hmem]
    obtain ⟨hshard, hname⟩ := hadded.others id hmem
    refine hcursor.congr ⟨?_, hname⟩
    simp only [setAllWorkerInfo, hshard]

theorem retried_position_le (hin : st.position id ≤ (dir.entries id).length) : (if id ∈ ids then
        if st.size ≤ (dir.pageAt st id).length then st.position id + st.size else 0
      else st.position id) ≤ (dir.entries id).length := by
  split
  · split
    · rename_i hfull
      exact (size_le_pageAt_iff hin).mp hfull
    · exact Nat.zero_le _
  · exact hin

/-- **A call that fails and is repeated.** -/
theorem Begins.retried (hfew : dir.workerInfo.length ≤ 1048576) (hend : dir.EndsFresh)
    (h : Begins dir b s)
    (hfail : falconReadDir (dir.faulty fault) s.inst s.offset room = some (d', buf, e))
    (he : e ≠ .success) :
    b.names = [] ∧ Begins dir (dir.retried s.offset fault b.stage) ⟨d', s.offset, s.taken⟩ := by
  have hvalid := h.held.valid
  have hlength := (dir.length_answered_le fault b.stage)
  have hfew' : b.stage.working.length ≤ 1048576 :=
    (hvalid.nodup.length_le_of_subset hvalid.subset).trans hfew
  obtain ⟨hempty, hfresh, hadded⟩ := falconReadDir_failed hfail he hvalid h.held.ready hfew'
  have hnames : b.names = [] := by
    rw [← h.held.names, drop_eq_nil_iff]
    exact hempty
  refine ⟨hnames, h.nonneg, h.small, ?_⟩
  have hsmall : d'.partialEntryVec.length ≤ 1048576 := by
    rw [hfresh.names]
    exact dir.length_readFrom_le hlength
  have hinside : d'.offset ≤ d'.partialEntryVec.length := by
    rw [hfresh.offset]
    exact Nat.zero_le _
  by_cases hoffset : s.offset = 0
  · have hworking : b.stage.working = dir.workerInfo := by
      rw [← h.held.ready.working, startInst, if_pos hoffset]
      rfl
    rw [startInst, if_pos hoffset, hoffset, Directory.retried, if_pos rfl]
    refine ⟨⟨hfresh.modes, hsmall, hinside⟩, ⟨rfl, hfresh.ready.count, ?_⟩,
      ⟨fun _ h => h, dir.workers_nodup, ?_⟩, ?_⟩
    · intro _ id hid
      have hsize := Stage.size_pos (ne_nil_of_mem (hworking ▸ hid)) hfew'
      have hcursor := h.held.ready.cursors hsize id (hworking ▸ hid)
      exact retried_cursor hend hadded hsize hid (hvalid.inside id (hworking ▸ hid))
        (hcursor.setAllWorkerInfo _)
    · exact fun id hid => retried_position_le (hvalid.inside id (hworking ▸ hid))
    · show d'.partialEntryVec.drop d'.offset = _
      rw [hfresh.offset, hfresh.names, drop_zero]
  · rw [startInst, if_neg hoffset, Directory.retried, if_neg hoffset]
    refine ⟨⟨hfresh.modes, hsmall, hinside⟩, hfresh.ready, ?_, ?_⟩
    · exact hvalid.readFrom hvalid.nodup_answered fun id hid =>
        Directory.mem_working_of_answered hid
    · rw [hfresh.offset, hfresh.names, drop_zero]

/-- **When a failed call loses nothing**, and doubles nothing. -/
theorem OnCourse.retried_iff (hfew : dir.workerInfo.length ≤ 1048576) (hend : dir.EndsFresh)
    (h : OnCourse dir b s)
    (hfail : falconReadDir (dir.faulty fault) s.inst s.offset room = some (d', buf, e))
    (he : e ≠ .success) :
    OnCourse dir (dir.retried s.offset fault b.stage) ⟨d', s.offset, s.taken⟩ ↔
      dir.RetryKeeps s.offset fault b.stage := by
  obtain ⟨hnames, hbegins⟩ := h.toBegins.retried hfew hend hfail he
  have hvalid := h.held.valid
  have hworking : s.offset = 0 → b.stage.working = dir.workerInfo := by
    intro hoffset
    rw [← h.held.ready.working, startInst, if_pos hoffset]
    rfl
  have hwhole := h.whole
  rw [coming, hnames, nil_append] at hwhole
  rw [← coming_retried_iff
    ((hvalid.nodup.length_le_of_subset hvalid.subset).trans hfew) hworking,
    ← perm_append_left_iff (namesOf s.taken)]
  constructor
  · intro hcourse
    exact hcourse.whole.trans hwhole.symm
  · intro hperm
    exact ⟨hbegins, hperm.trans hwhole⟩

/-- **Going on after an error.**  A call fails because a worker answers with an error; from then
on all workers answer.  With the calls from the same offset on, every name of the directory is
delivered once, if and only if the failed call loses and doubles nothing (`RetryKeeps`) and the
offsets fit. -/
theorem retry_iff {b : Batch Id Name} {s : Session Id Name} {room : Nat}
    {d' : DirOpenInstance Id Name} {buf : Buf Name} {e : ErrorCode}
    (hfew : dir.workerInfo.length ≤ 1048576) (hend : dir.EndsFresh) (h : OnCourse dir b s)
    (hfail : falconReadDir (dir.faulty fault) s.inst s.offset room = some (d', buf, e))
    (he : e ≠ .success) :
    (∀ rooms : Nat → Nat, (∀ n, 0 < rooms n) →
        DeliversNames dir ⟨d', s.offset, s.taken⟩ dir.allNames rooms) ↔
      dir.RetryKeeps s.offset fault b.stage ∧
        dir.OffsetsFrom (firstIdx s.offset) (dir.retried s.offset fault b.stage) := by
  obtain ⟨-, hbegins⟩ := h.toBegins.retried hfew hend hfail he
  rw [resume_iff hbegins, ← h.retried_iff hfew hend hfail he]
  refine and_congr_left fun _ => ?_
  constructor
  · intro hwhole
    exact ⟨hbegins, hwhole⟩
  · intro hcourse
    exact hcourse.whole

end Retry

/-- A handle that was just opened. -/
theorem onCourse_new [DecidableEq Id] {dir : Directory Id Name}
    (hfew : dir.workerInfo.length ≤ 1048576) :
    OnCourse dir (dir.restarted .new fun _ => 0) ⟨.new, 0, []⟩ :=
  ⟨(used_new dir).begins, List.Perm.of_eq (if_pos hfew)⟩

def secondFails (id : Nat) : Option ErrorCode := if id = 2 then some .serverFault else none

/-- Two workers, of which the first has no entry. -/
def oneFile : Directory Nat Nat :=
  listDirectory [1, 2] (fun id => [2].filter (· = id)) (by decide) (by decide)

/-- The second worker does not answer in the first call.  Nothing is given twice. -/
theorem retry_oneFile : ∃ d' buf,
    falconReadDir (oneFile.faulty secondFails) .new 0 3 = some (d', buf, .serverFault) ∧
      ∀ rooms : Nat → Nat, (∀ n, 0 < rooms n) →
        DeliversNames oneFile ⟨d', 0, []⟩ oneFile.allNames rooms := by
  obtain ⟨d', buf, hfail⟩ : ∃ d' buf,
    falconReadDir (oneFile.faulty secondFails) .new 0 3 = some (d', buf, .serverFault) :=
      ⟨_, _, rfl⟩
  have hcourse : OnCourse oneFile _ ⟨.new, 0, []⟩ := onCourse_new (by decide)
  refine ⟨d', buf, hfail, ?_⟩
  refine (retry_iff (by decide) (listDirectory_endsFresh _ _) hcourse hfail (by decide)).mpr
    ⟨?_, ?_⟩
  · show ∀ id ∈ [1], _
    decide
  · exact offsetsFrom_of_length (by decide)

/-- Two workers with a file each. -/
def fileEach : Directory Nat Nat := listDirectory [1, 2] (fun id => [id]) (by decide) (by decide)

/-- The first worker has answered when the second does not: the call that is repeated gives its file
from the buffer, and asks it again. -/
theorem retry_repeats_file : ∃ d' buf,
    falconReadDir (fileEach.faulty secondFails) .new 0 3 = some (d', buf, .serverFault) ∧
      ¬ DeliversNames fileEach ⟨d', 0, []⟩ fileEach.allNames fun _ => 3 := by
  obtain ⟨d', buf, hfail⟩ : ∃ d' buf,
    falconReadDir (fileEach.faulty secondFails) .new 0 3 = some (d', buf, .serverFault) :=
      ⟨_, _, rfl⟩
  have hcourse : OnCourse fileEach _ ⟨.new, 0, []⟩ := onCourse_new (by decide)
  have hend : fileEach.EndsFresh := listDirectory_endsFresh _ _
  obtain ⟨-, hbegins⟩ := hcourse.toBegins.retried (by decide) hend hfail (by decide)
  have hcoming : fileEach.coming (fileEach.retried 0 secondFails
      (fileEach.restarted .new fun _ => 0).stage) = [1, 1, 2] := by decide
  have hfit := @offsetsFrom_of_length _ _ fileEach _ 3 (by rw [hcoming]; decide)
  refine ⟨d', buf, hfail, fun hdelivers => ?_⟩
  have hperm := (delivers_iff_perm hbegins hfit (fun _ => by omega) _).mp hdelivers
  have hlength : [1, 1, 2].length = fileEach.allNames.length := hcoming ▸ hperm.length_eq
  exact absurd hlength (by decide)

/-! ## 3. Where earlier calls lead -/

section Left

variable [DecidableEq Id] {dir : Directory Id Name} {fault : Id → Option ErrorCode}
  {d : DirOpenInstance Id Name} {pos : Id → Nat}

/-- **Calls that succeed lose nothing.** -/
theorem onCourse_of_calls (hfew : dir.workerInfo.length ≤ 1048576) {rooms : Nat → Nat}
    (hrooms : ∀ n, 0 < rooms n) {n : Nat} {s : Session Id Name}
    (h : calls dir.client rooms n = some s) : ∃ b, OnCourse dir b s := by
  have hnew := onCourse_new hfew
  rw [calls_eq_resume] at h
  match n with
  | 0 =>
    cases h
    exact ⟨_, hnew⟩
  | n + 1 =>
    obtain ⟨b', hbegins, -, hperm⟩ := begins_of_resume hnew.toBegins hrooms n h
    exact ⟨b', hbegins, hperm.trans hnew.whole⟩

theorem onCourse_of_calls_half :
    ∃ s, calls twoFiles.client (fun _ => 3) 1 = some s ∧ ∃ b, OnCourse twoFiles b s := by
  refine ⟨?s, ?h, onCourse_of_calls (by decide) (fun _ => ?_) ?h⟩
  case h => rfl
  decide

/-- A handle that any calls have left, at any offsets, with and without errors. -/
inductive Left (dir : Directory Id Name) : DirOpenInstance Id Name → Prop
  | new : Left dir .new
  | call {d d' : DirOpenInstance Id Name} {fault : Id → Option ErrorCode} {offset : Int}
      {room : Nat}
      {buf : Buf Name} {e : ErrorCode} (h : Left dir d)
      (hcall : falconReadDir (dir.faulty fault) d offset room = some (d', buf, e)) : Left dir d'

/-- What every call keeps: the workers that are not done have a cursor. -/
structure Kept (dir : Directory Id Name) (d : DirOpenInstance Id Name) (pos : Id → Nat) : Prop where
  entries : ∀ id ∈ dir.workerInfo, pos id ≤ (dir.entries id).length
  cursors : ∀ id ∈ dir.workerInfo, HasCursor dir (d.setAllWorkerInfo dir.workerInfo) id (pos id)
  subset : ∀ id ∈ d.workingWorkers, id ∈ dir.workerInfo
  known : ∀ id ∈ d.workingWorkers, (d.lastShardIndexes id).isSome
  nodup : d.workingWorkers.Nodup

theorem HasCursor.of_setAllWorkerInfo {id : Id} {n : Nat} (hknown : (d.lastShardIndexes id).isSome)
    (h : HasCursor dir (d.setAllWorkerInfo dir.workerInfo) id n) : HasCursor dir d id n := by
  obtain ⟨i, hshard, hbehind⟩ := h
  obtain ⟨j, hj⟩ := Option.isSome_iff_exists.mp hknown
  refine ⟨i, ?_, hbehind⟩
  rw [← hshard, hj]
  simp [DirOpenInstance.setAllWorkerInfo, hj]

theorem Kept.setAllWorkerInfo (h : Kept dir d pos) :
    Kept dir (d.setAllWorkerInfo dir.workerInfo) pos := by
  refine ⟨h.entries, fun id hid => (h.cursors id hid).setAllWorkerInfo _, fun _ hid => hid,
    fun id hid => ?_, dir.workers_nodup⟩
  have hid : id ∈ dir.workerInfo := hid
  simp [DirOpenInstance.setAllWorkerInfo, hid]

/-- The stage of a handle. -/
def DirOpenInstance.stage (d : DirOpenInstance Id Name) (pos : Id → Nat) : Stage Id :=
  ⟨d.workingWorkers, pos, d.fileModes.length⟩

/-- Names and modes come together, and the pages are not larger than asked for. -/
theorem readWorkers_lengths (dir : Directory Id Name) (size : Nat) (ids : List Id) : ∀ d :
    DirOpenInstance Id Name,
    ∃ k ≤ ids.length * size,
      (readWorkers dir.client size ids d).1.partialEntryVec.length = d.partialEntryVec.length + k ∧
      (readWorkers dir.client size ids d).1.fileModes.length = d.fileModes.length + k ∧
      (readWorkers dir.client size ids d).1.offset = d.offset := by
  induction ids with
  | nil => exact fun d => ⟨0, Nat.zero_le _, rfl, rfl, rfl⟩
  | cons id ids ih =>
    intro d
    obtain ⟨k, hk, hnames, hmodes, hoffset⟩ := ih (d.takePage size id
      (dir.answer id size ((d.lastShardIndexes id).getD 0) (d.lastFileNames id)))
    have hpage := dir.answer_length id size ((d.lastShardIndexes id).getD 0) (d.lastFileNames id)
    refine ⟨(dir.answer id size ((d.lastShardIndexes id).getD 0)
      (d.lastFileNames id)).resultList.length + k, ?_, hnames.trans ?_, hmodes.trans ?_, hoffset⟩
    · rw [length_cons, Nat.succ_mul]
      omega
    · simp [takePage, Nat.add_assoc]
    · simp [takePage, Nat.add_assoc]

theorem Buffered.load (h : Buffered d) : Buffered (ClientReadDir.load (dir.faulty fault) d).1 := by
  by_cases hbegin : d.partialEntryVec.length ≤ d.offset ∧ d.workingWorkers ≠ []
  · obtain ⟨st, hst⟩ : ∃ st : Stage Id, st = d.stage fun _ => 0 := ⟨_, rfl⟩
    have hload : (ClientReadDir.load (dir.faulty fault) d).1 = _ :=
      @load_faulty _ _ dir fault _ d st (by rw [hst]; rfl) (by rw [hst]; rfl) hbegin
    rw [hload]
    obtain ⟨k, hk, hnames, hmodes, hoffset⟩ := readWorkers_lengths dir st.size
      (dir.answered fault st) (d.cleared (dir.askedAt st))
    have hk' : k ≤ 1048576 :=
      hk.trans ((Nat.mul_le_mul_right _ (dir.length_answered_le fault st)).trans
        st.length_mul_size_le)
    have hnames' : (d.cleared (dir.askedAt st)).partialEntryVec.length = 0 := rfl
    have hoffset' : (d.cleared (dir.askedAt st)).offset = 0 := rfl
    constructor <;> omega
  · rw [ClientReadDir.load, if_neg hbegin]
    exact h

/-- **An epoch, with or without an error.** -/
theorem Kept.load (hfew : dir.workerInfo.length ≤ 1048576) (hend : dir.EndsFresh)
    (h : Kept dir d pos) : ∃ pos', Kept dir (ClientReadDir.load (dir.faulty fault) d).1 pos' := by
  by_cases hbegin : d.partialEntryVec.length ≤ d.offset ∧ d.workingWorkers ≠ []
  case neg =>
    rw [ClientReadDir.load, if_neg hbegin]
    exact ⟨pos, h⟩
  have hv : dir.ValidAt (d.stage pos) :=
    ⟨h.subset, h.nodup, fun id hid => h.entries id (h.subset id hid)⟩
  have hsize : 0 < (d.stage pos).size :=
    Stage.size_pos hbegin.2 ((hv.nodup.length_le_of_subset hv.subset).trans hfew)
  have hready : ReadyAt dir (d.stage pos) d := ⟨rfl, rfl, fun _ id hid =>
    HasCursor.of_setAllWorkerInfo (h.known id hid) (h.cursors id (h.subset id hid))⟩
  obtain ⟨d', hrun, hadded⟩ := load_answered hv hready hbegin
  rw [hrun]
  have hfull : ∀ id ∈ d'.workingWorkers, id ∈ dir.answered fault (d.stage pos) ∧
      (d.stage pos).size ≤ (dir.pageAt (d.stage pos) id).length := by
    intro id hid
    rw [hadded.working] at hid
    obtain ⟨hmem, hfull⟩ := mem_filter.mp hid
    exact ⟨hmem, by simpa using hfull⟩
  refine ⟨_, fun id hid => retried_position_le (h.entries id hid), fun id hid =>
    retried_cursor hend hadded hsize hid (h.entries id hid) (h.cursors id hid), fun id hid =>
    h.subset id (mem_working_of_answered (hfull id hid).1), fun id hid => ?_, ?_⟩
  · obtain ⟨i, hshard, -⟩ := hadded.full hsize id (hfull id hid).1 (hfull id hid).2
    rw [hshard]
    rfl
  · rw [hadded.working]
    exact hv.nodup_answered.filter _

/-- What every call keeps of the buffer, and with enough room on the pages of the cursors. -/
theorem left_kept (hend : dir.EndsFresh) (h : Left dir d) :
    Buffered d ∧ (dir.workerInfo.length ≤ 1048576 → ∃ pos, Kept dir d pos) := by
  induction h with
  | new =>
    have hnew := used_new dir
    exact ⟨hnew.toBuffered, fun hfew => ⟨_, hnew.entries, hnew.cursors hfew, forall_mem_nil _,
      forall_mem_nil _, nodup_nil⟩⟩
  | @call d d' fault offset room buf e h hcall ih =>
    obtain ⟨hbuffered, hkept⟩ := ih
    obtain ⟨d₀, hd₀⟩ : ∃ d₀, d₀ = if offset = 0 then d.setAllWorkerInfo dir.workerInfo else d :=
      ⟨_, rfl⟩
    have hstart : Buffered d₀ ∧ (dir.workerInfo.length ≤ 1048576 → ∃ pos, Kept dir d₀ pos) := by
      rw [hd₀]
      split
      · refine ⟨⟨hbuffered.modes, hbuffered.small, hbuffered.inside⟩, fun hfew => ?_⟩
        obtain ⟨pos, hpos⟩ := hkept hfew
        exact ⟨pos, hpos.setAllWorkerInfo⟩
      · exact ⟨hbuffered, hkept⟩
    have hload : Buffered (load (dir.faulty fault) d₀).1 ∧
        (dir.workerInfo.length ≤ 1048576 → ∃ pos, Kept dir (load (dir.faulty fault) d₀).1 pos) := by
      refine ⟨hstart.1.load, fun hfew => ?_⟩
      obtain ⟨pos, hpos⟩ := hstart.2 hfew
      exact hpos.load hfew hend
    obtain ⟨hl, hkept'⟩ := hload
    obtain ⟨-, rfl⟩ | ⟨-, n, idx, b, res, hfill, hn, rfl⟩ :=
      falconReadDir_cases ((start_fst _ _ _ _).trans hd₀.symm) hcall
    · exact ⟨hl, hkept'⟩
    · -- the loop over the entries has moved the position, not beyond the end
      have hin := hl.inside
      obtain ⟨taken, rfl, -⟩ := fill_some (by omega) hl.modes hfill
      refine ⟨⟨hl.modes, hl.small, ?_⟩, fun hfew => ?_⟩
      · refine (Nat.mod_le _ _).trans ?_
        dsimp only
        split
        · exact Nat.le_refl _
        · rw [Option.getD_some]
          omega
      · obtain ⟨pos, hpos⟩ := hkept' hfew
        exact ⟨pos, hpos.entries, hpos.cursors, hpos.subset, hpos.known, hpos.nodup⟩

/-- **Wherever calls lead, the handle is one that `relists_iff` speaks of.** -/
theorem left_used (hend : dir.EndsFresh) (h : Left dir d) : ∃ pos, Used dir d pos := by
  obtain ⟨hbuffered, hkept⟩ := left_kept hend h
  by_cases hfew : dir.workerInfo.length ≤ 1048576
  · obtain ⟨pos, hpos⟩ := hkept hfew
    exact ⟨pos, hbuffered, hpos.entries, fun _ => hpos.cursors⟩
  · exact ⟨fun _ => 0, hbuffered, fun _ _ => Nat.zero_le _, fun h => absurd h hfew⟩

theorem left_used_failed : ∃ d b, falconReadDir (twoFiles.faulty fun _ => some .ioError) .new 0 5 =
    some (d, b, .ioError) ∧ ∃ pos, Used twoFiles d pos := by
  refine ⟨?d, ?b, ?h, left_used (listDirectory_endsFresh _ _) (.call .new ?h)⟩
  case h => rfl

end Left

end FalconFS.ClientReadDir
