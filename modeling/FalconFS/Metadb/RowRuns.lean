/-
# What happens to rows in runs of requests

* A rename that succeeds moves its row with all its columns, on one server and across two
  (`rename_moves_iff`).
* Every row is a regular file with one link or a directory with two, and no request changes the type
  of a row (`rows_typed`).

Both have an exception.  `FalconRenameHandle` marks with `parentId_partId = 0` that a server has
nothing to remove, and with `dstParentIdPartId = 0` that it has nothing to insert.  But 0 is the
shard column of every name of part 0 in a directory whose id is a multiple of `2 ^ 51`.  The
handlers of mkdir use -1 as their mark.

`handle_origin` says of every request where its rows come from; what holds of all rows of all runs
follows from it by one induction (`Runs.allRows`).
-/
import FalconFS.Metadb.RowRequests

namespace FalconFS.InodeRows

open Function List

/-! ## 1. What a rename does -/

/-- The tables with another content under one key of one server. -/
def Tables.set (t : Tables) (w : ServerId) (k : RowKey) (v : Option InodeTuple) : Tables :=
  update t w (update (t w) k v)

open Tables

theorem Tables.set_apply (t : Tables) (w w' : ServerId) (k k' : RowKey) (v : Option InodeTuple) :
    t.set w k v w' k' = if w' = w ∧ k' = k then v else t w' k' := by
  unfold set
  by_cases hw : w' = w
  · obtain rfl := hw
    rw [update_self]
    by_cases hk : k' = k
    · rw [hk, update_self, if_pos ⟨rfl, rfl⟩]
    · rw [update_of_ne hk, if_neg fun h => hk h.2]
  · rw [update_of_ne hw, if_neg fun h => hw h.1]

/-- **The outcomes of a rename that succeeds.** -/
inductive Renamed (cfg : Placement) (t : Tables) (src dst : RowKey) (info : RenamedInfo) :
    Tables → Prop
  /-- The source is taken for the mark, on one server: nothing is done. -/
  | nothing (hmark : src.parentidPartid = 0) (hsame : cfg.home src = cfg.home dst) :
      Renamed cfg t src dst info t
  /-- The same across two servers: a row is made of what is in the memory. -/
  | forged (hmark : src.parentidPartid = 0) (hcross : cfg.home src ≠ cfg.home dst)
      (hfree : t (cfg.home dst) dst = none) :
      Renamed cfg t src dst info (t.set (cfg.home dst) dst (some info.toTuple))
  | moved {r : InodeTuple} (hsrc : src.parentidPartid ≠ 0) (hdst : dst.parentidPartid ≠ 0)
      (hsame : cfg.home src = cfg.home dst) (hrow : t (cfg.home src) src = some r)
      (hfree : dst = src ∨ t (cfg.home dst) dst = none) :
      Renamed cfg t src dst info
        ((t.set (cfg.home src) src none).set (cfg.home dst) dst (some r))
  /-- The destination is taken for the mark: the row is removed, and its columns are in a reply that
  is not used. -/
  | dropped {r : InodeTuple} (hsrc : src.parentidPartid ≠ 0) (hmark : dst.parentidPartid = 0)
      (hsame : cfg.home src = cfg.home dst) (hrow : t (cfg.home src) src = some r) :
      Renamed cfg t src dst info (t.set (cfg.home src) src none)
  | sent {r : InodeTuple} (hsrc : src.parentidPartid ≠ 0) (hcross : cfg.home src ≠ cfg.home dst)
      (hrow : t (cfg.home src) src = some r) (hfree : t (cfg.home dst) dst = none) :
      Renamed cfg t src dst info ((t.set (cfg.home src) src none).set (cfg.home dst) dst
        (some (RenamedInfo.ofTuple r).toTuple))

variable {cfg : Placement} {t t' : Tables} {r : InodeTuple} {k src dst : RowKey} {self : ServerId}
  {rel : InodeRelation}

theorem subRenameLocally_mark (cfg : Placement) (self : ServerId) (rel : InodeRelation)
    (dst : RowKey) (hmark : src.parentidPartid = 0) :
    falconRenameSubRenameLocallyHandle cfg self rel src dst = some (rel, none) := by
  rw [falconRenameSubRenameLocallyHandle, if_pos hmark]

variable {info : RenamedInfo} {w : ServerId} {req : Request} {C : Tables → Request → Prop}
  {r' : InodeTuple}

open Option

theorem falconRenameHandle_cases (h : falconRenameHandle cfg t src dst info = some t') :
    Renamed cfg t src dst info t' := by
  unfold falconRenameHandle at h
  dsimp only at h
  obtain ⟨⟨rel, reply⟩, hlocal, hrest⟩ := bind_eq_some_iff.mp h
  dsimp only at hrest
  by_cases hmark : src.parentidPartid = 0
  · rw [subRenameLocally_mark cfg _ _ _ hmark] at hlocal
    cases hlocal
    rw [update_eq_self] at hrest
    by_cases hsame : cfg.home src = cfg.home dst
    · rw [if_neg (not_not.mpr hsame)] at hrest
      cases hrest
      exact .nothing hmark hsame
    · rw [if_pos hsame] at hrest
      obtain ⟨rel', hcreate, rfl⟩ := map_eq_some_iff.mp hrest
      rw [falconRenameSubCreateHandle, if_pos rfl] at hcreate
      obtain ⟨hfree, rfl⟩ := insertIntoInodeTable_some hcreate
      exact .forged hmark hsame hfree
  · rw [falconRenameSubRenameLocallyHandle, if_neg hmark, if_neg (not_not.mpr rfl)] at hlocal
    obtain ⟨r, hrow, hlocal⟩ := bind_eq_some_iff.mp hlocal
    by_cases hsame : cfg.home src = cfg.home dst
    · rw [if_neg (not_not.mpr hsame)] at hrest
      cases hrest
      rw [if_pos hsame.symm] at hlocal
      by_cases hdst : dst.parentidPartid = 0
      · rw [if_neg (not_not.mpr hdst)] at hlocal
        cases hlocal
        exact .dropped hmark hdst hsame hrow
      · rw [if_pos hdst, if_neg (not_not.mpr hsame.symm)] at hlocal
        obtain ⟨rel', hins, hres⟩ := map_eq_some_iff.mp hlocal
        cases hres
        obtain ⟨hfree, rfl⟩ := insertIntoInodeTable_some hins
        have htables : update t (cfg.home src)
            (update (update (t (cfg.home src)) src none) dst (some r)) =
              (t.set (cfg.home src) src none).set (cfg.home dst) dst (some r) := by
          rw [← hsame, Tables.set, Tables.set, update_self, update_idem]
        rw [htables]
        refine .moved hmark hdst hsame hrow ?_
        by_cases heq : dst = src
        · exact .inl heq
        · rw [update_of_ne heq, hsame] at hfree
          exact .inr hfree
    · rw [if_pos hsame] at hrest
      rw [if_neg (Ne.symm hsame), if_neg (not_not.mpr rfl)] at hlocal
      cases hlocal
      obtain ⟨rel', hcreate, rfl⟩ := map_eq_some_iff.mp hrest
      rw [falconRenameSubCreateHandle, if_pos rfl] at hcreate
      obtain ⟨hfree, rfl⟩ := insertIntoInodeTable_some hcreate
      rw [update_of_ne (Ne.symm hsame)] at hfree
      exact .sent hmark hsame hrow hfree

/-- **A row is moved**: it is under the destination key, which was free, with all its columns; under
the source key there is none any more; and everything else is as before. -/
def Moves (cfg : Placement) (t t' : Tables) (src dst : RowKey) : Prop :=
  ∃ r, t (cfg.home src) src = some r ∧ (dst = src ∨ t (cfg.home dst) dst = none) ∧
    t' = (t.set (cfg.home src) src none).set (cfg.home dst) dst (some r)

/-- **The keys are not taken for marks**: the one of the source never, the one of the destination
only where nothing depends on it. -/
def MarksClear (cfg : Placement) (src dst : RowKey) : Prop :=
  src.parentidPartid ≠ 0 ∧ (cfg.home src = cfg.home dst → dst.parentidPartid ≠ 0)

/-- The reply and the second request carry a row whose other columns are the constants. -/
theorem toTuple_ofTuple (h : r.Plain) : (RenamedInfo.ofTuple r).toTuple = r := by
  obtain ⟨hetag, hversion, hbackup⟩ := h
  obtain ⟨⟩ := r
  simp only at hetag hversion hbackup
  rw [RenamedInfo.toTuple, RenamedInfo.ofTuple, hetag, hversion, hbackup]

/-- Every row of every server. -/
def AllRows (P : InodeTuple → Prop) (t : Tables) : Prop := ∀ w k r, t w k = some r → P r

theorem Moves.source (h : Moves cfg t t' src dst) (hne : dst ≠ src) :
    t' (cfg.home src) src = none := by
  obtain ⟨r, -, -, rfl⟩ := h
  rw [set_apply, if_neg fun h => hne h.2.symm, set_apply, if_pos ⟨rfl, rfl⟩]

theorem Moves.destination (h : Moves cfg t t' src dst) : (t' (cfg.home dst) dst).isSome := by
  obtain ⟨r, -, -, rfl⟩ := h
  rw [set_apply, if_pos ⟨rfl, rfl⟩]
  rfl

theorem Renamed.marksClear_of_moves (h : Renamed cfg t src dst info t')
    (hmoves : Moves cfg t t' src dst) :
    MarksClear cfg src dst ∨ (src = dst ∧ (t (cfg.home src) src).isSome) := by
  obtain ⟨r₀, hrow₀, hfree₀, -⟩ := id hmoves
  cases h with
  | nothing hmark hsame =>
    right
    refine ⟨?_, by rw [hrow₀]; rfl⟩
    by_contra hne
    rw [hmoves.source (Ne.symm hne)] at hrow₀
    cases hrow₀
  | forged hmark hcross hfree =>
    -- the source row is still there
    have hne : dst ≠ src := fun heq => hcross (by rw [heq])
    have hsource := hmoves.source hne
    rw [set_apply, if_neg fun h => hcross h.1, hrow₀] at hsource
    cases hsource
  | moved hsrc hdst hsame hrow hfree => exact .inl ⟨hsrc, fun _ => hdst⟩
  | dropped hsrc hmark hsame hrow =>
    -- the destination is still free
    have hne : dst ≠ src := fun heq => hsrc (by rw [← heq, hmark])
    have hdestination := hmoves.destination
    rw [set_apply, if_neg fun h => hne h.2, hfree₀.resolve_left hne] at hdestination
    cases hdestination
  | sent hsrc hcross hrow hfree => exact .inl ⟨hsrc, fun hsame => absurd hsame hcross⟩

theorem moves_self (hrow : t (cfg.home k) k = some r) : Moves cfg t t k k := by
  refine ⟨r, hrow, Or.inl rfl, ?_⟩
  funext w k'
  rw [set_apply, set_apply]
  split
  · rename_i h
    rw [h.1, h.2, hrow]
  · rfl

theorem Renamed.moves (h : Renamed cfg t src dst info t') (hplain : AllRows InodeTuple.Plain t)
    (hclear : MarksClear cfg src dst ∨ (src = dst ∧ (t (cfg.home src) src).isSome)) :
    Moves cfg t t' src dst := by
  cases h with
  | nothing hmark hsame =>
    rcases hclear with hclear | ⟨rfl, hsome⟩
    · exact absurd hmark hclear.1
    · obtain ⟨r, hrow⟩ := isSome_iff_exists.mp hsome
      exact moves_self hrow
  | forged hmark hcross hfree =>
    rcases hclear with hclear | ⟨rfl, -⟩
    · exact absurd hmark hclear.1
    · exact absurd rfl hcross
  | moved hsrc hdst hsame hrow hfree => exact ⟨_, hrow, hfree, rfl⟩
  | dropped hsrc hmark hsame hrow =>
    rcases hclear with hclear | ⟨rfl, -⟩
    · exact absurd hmark (hclear.2 hsame)
    · exact absurd hmark hsrc
  | sent hsrc hcross hrow hfree =>
    rw [toTuple_ofTuple (hplain _ _ _ hrow)]
    exact ⟨_, hrow, Or.inr hfree, rfl⟩

/-! ## 2. Runs -/

/-- A row that a request leaves comes from the server's own rows, or from a rename. -/
inductive Origin (cfg : Placement) (t : Tables) (w : ServerId) (k : RowKey) :
    Request → InodeTuple → Prop
  | came {req : Request} {r : InodeTuple} (h : Came (t w) k r) : Origin cfg t w k req r
  | renamed {src dst : Parsed} {info : RenamedInfo} {r r' : InodeTuple} (hfree : t w k = none)
      (hrow : t (cfg.home (cfg.key src)) (cfg.key src) = some r)
      (hr' : r' = r ∨ r' = (RenamedInfo.ofTuple r).toTuple) :
      Origin cfg t w k (.rename src dst info) r'
  | forged {src dst : Parsed} {info : RenamedInfo} (hfree : t w k = none)
      (hmark : (cfg.key src).parentidPartid = 0)
      (hcross : cfg.home (cfg.key src) ≠ cfg.home (cfg.key dst)) :
      Origin cfg t w k (.rename src dst info) info.toTuple

theorem onServer_evolves {f : InodeRelation → Option InodeRelation}
    (h : onServer t self f = some t') (hf : ∀ rel, f (t self) = some rel → Evolves (t self) rel)
    (hr : t' w k = some r) : Came (t w) k r := by
  obtain ⟨rel, hrel, rfl⟩ := map_eq_some_iff.mp h
  by_cases hw : w = self
  · obtain rfl := hw
    rw [update_self] at hr
    exact hf rel hrel k r hr
  · rw [update_of_ne hw] at hr
    exact .kept hr

/-- A batch of mkdirs removes nothing. -/
theorem mkdir_evolves (infos : List CreateInfo) :
    ∀ {t t₁ t' : Tables}, (∀ w, Evolves (t w) (t₁ w)) → (∀ w k, t₁ w k = none → t w k = none) →
      infos.foldlM (mkdirOne cfg) t₁ = some t' → ∀ w, Evolves (t w) (t' w) := by
  induction infos with
  | nil =>
    intro t t₁ t' h _ hrun
    cases hrun
    exact h
  | cons i infos ih =>
    intro t t₁ t' h hfree hrun
    rw [foldlM_cons] at hrun
    obtain ⟨t₂, hone, hrest⟩ := bind_eq_some_iff.mp hrun
    unfold mkdirOne at hone
    dsimp only at hone
    split at hone
    case isTrue => cases hone
    obtain ⟨rel, hins, rfl⟩ := map_eq_some_iff.mp hone
    obtain ⟨hnone, rfl⟩ := insertIntoInodeTable_some hins
    refine ih (fun w => ?_) (fun w k hk => ?_) hrest
    · by_cases hw : w = cfg.home (cfg.key i.toParsed)
      · rw [hw, update_self]
        exact (h _).insert (hfree _ _ hnone) (.mkdir i)
      · rw [update_of_ne hw]
        exact h w
    · have hset := Tables.set_apply t₁ (cfg.home (cfg.key i.toParsed)) w (cfg.key i.toParsed) k
        (some (mkdirTuple i))
      rw [Tables.set, hk] at hset
      split at hset
      · cases hset
      · exact hfree w k hset.symm

/-- **Where the rows of a request come from.** -/
theorem handle_origin (h : handle cfg t req = some t') (hr : t' w k = some r) :
    Origin cfg t w k req r := by
  cases req with
  | create self infos =>
    rw [handle] at h
    refine .came (onServer_evolves h (fun rel hrel => ?_) hr)
    cases hrel
    exact evolves_create cfg self infos (evolves_refl _) fun _ hk => hk
  | mkdir infos =>
    rw [handle] at h
    exact .came (mkdir_evolves infos (fun w => evolves_refl _) (fun _ _ hk => hk) h w k r hr)
  | close self infos =>
    rw [handle] at h
    refine .came (onServer_evolves h (fun rel hrel => ?_) hr)
    exact evolves_foldlM (fun _ i _ hev hrun => evolves_changeOne (update_close i) hev hrun) infos
      (evolves_refl _) hrel
  | unlink self infos =>
    rw [handle] at h
    refine .came (onServer_evolves h (fun rel hrel => ?_) hr)
    exact evolves_foldlM (fun _ i _ hev hrun => evolves_changeOne .unlink hev hrun) infos
      (evolves_refl _) hrel
  | rmdir info =>
    rw [handle] at h
    exact .came (onServer_evolves h (fun rel hrel => evolves_rmdirSubUnlink hrel) hr)
  | utimeNs self info stAtim stMtim now now' =>
    rw [handle] at h
    exact .came (onServer_evolves h (fun rel hrel => evolves_changeRow (update_utimeNs ..) hrel) hr)
  | chown self info stUid stGid =>
    rw [handle] at h
    exact .came (onServer_evolves h (fun rel hrel => evolves_changeRow (update_chown ..) hrel) hr)
  | chmod self info stMode =>
    rw [handle] at h
    exact .came (onServer_evolves h (fun rel hrel => evolves_changeRow (update_chmod _) hrel) hr)
  | rename src dst info =>
    rw [handle] at h
    have hkept : ∀ {w k r}, t.set (cfg.home (cfg.key src)) (cfg.key src) none w k = some r →
        t w k = some r := by
      intro w k r hset
      rw [set_apply] at hset
      split at hset
      · cases hset
      · exact hset
    cases falconRenameHandle_cases h with
    | nothing hmark hsame => exact .came (.kept hr)
    | forged hmark hcross hfree =>
      rw [set_apply] at hr
      split at hr
      · rename_i heq
        cases hr
        rw [heq.1, heq.2]
        exact .forged hfree hmark hcross
      · exact .came (.kept hr)
    | moved hsrc hdst hsame hrow hfree =>
      rw [set_apply] at hr
      split at hr
      · rename_i heq
        cases hr
        rw [heq.1, heq.2]
        rcases hfree with hself | hfree
        · rw [hself]
          exact .came (.kept hrow)
        · exact .renamed hfree hrow (.inl rfl)
      · exact .came (.kept (hkept hr))
    | dropped hsrc hmark hsame hrow => exact .came (.kept (hkept hr))
    | sent hsrc hcross hrow hfree =>
      rw [set_apply] at hr
      split at hr
      · rename_i heq
        cases hr
        rw [heq.1, heq.2]
        exact .renamed hfree hrow (.inr rfl)
      · exact .came (.kept (hkept hr))

/-- The tables after a run of requests that each meet a condition. -/
abbrev Runs (cfg : Placement) (C : Tables → Request → Prop) (t : Tables) : Prop :=
  Machine.Run (fun t req => some (step cfg t req)) C emptyTables t

/-- What holds of every new row, and is kept by updates, by the way through a reply and, where it
can happen, of a row that is made of memory, holds of every row. -/
theorem Runs.allRows {P : InodeTuple → Prop} (h : Runs cfg C t) (hnew : ∀ r, New r → P r)
    (hupdate : ∀ a r r', Update a → a.apply r = some (some r') → P r → P r')
    (hsent : ∀ r, P r → P (RenamedInfo.ofTuple r).toTuple)
    (hforged : ∀ t src dst info, C t (.rename src dst info) → (cfg.key src).parentidPartid = 0 →
      cfg.home (cfg.key src) ≠ cfg.home (cfg.key dst) → P info.toTuple) :
    AllRows P t := by
  have hcame : ∀ {rel : InodeRelation} {k r}, (∀ r, rel k = some r → P r) → Came rel k r → P r := by
    intro rel k r hrel hr
    induction hr with
    | kept h => exact hrel _ h
    | updated _ ha happly ih => exact hupdate _ _ _ ha happly ih
    | inserted _ hr => exact hnew _ hr
  refine h.invariant (fun w k r hr => by cases hr) fun t req t' hrows hC hstep => ?_
  cases hstep
  intro w k r hr
  cases hhandle : handle cfg t req with
  | none =>
    rw [step, hhandle] at hr
    exact hrows w k r hr
  | some t' =>
    rw [step, hhandle, getD_some] at hr
    cases handle_origin hhandle hr with
    | came h => exact hcame (hrows w k) h
    | renamed _ hrow hr' =>
      rcases hr' with rfl | rfl
      · exact hrows _ _ _ hrow
      · exact hsent _ (hrows _ _ _ hrow)
    | forged _ hmark hcross => exact hforged _ _ _ _ hC hmark hcross

/-- **The columns that a rename across two servers does not carry** are the same in all rows. -/
theorem Runs.plain (h : Runs cfg C t) : AllRows InodeTuple.Plain t := by
  refine h.allRows (fun r hr => ?_) (fun a r r' ha happly hr => ha.usual.plain happly hr)
    (fun r _ => ⟨rfl, rfl, rfl⟩) fun _ _ _ _ _ _ _ => ⟨rfl, rfl, rfl⟩
  cases hr <;> exact ⟨rfl, rfl, rfl⟩

/-- **Rename moves whole rows.**  In every state that requests lead to, a rename that succeeds moves
exactly its row, with every column, if and only if no key is taken for a mark (or source and
destination are the same row).  The row that goes through a reply and a second request is the row
that is copied on one server. -/
theorem rename_moves_iff {cfg : Placement} {t t' : Tables} (ht : Runs cfg (fun _ _ => True) t)
    {src dst : Parsed} {info : RenamedInfo} (h : handle cfg t (.rename src dst info) = some t') :
    (Moves cfg t t' (cfg.key src) (cfg.key dst) ↔
      MarksClear cfg (cfg.key src) (cfg.key dst) ∨
        (cfg.key src = cfg.key dst ∧ (t (cfg.home (cfg.key src)) (cfg.key src)).isSome)) ∧
      ∀ w k r, t w k = some r → (RenamedInfo.ofTuple r).toTuple = r := by
  have hrenamed := falconRenameHandle_cases h
  refine ⟨⟨hrenamed.marksClear_of_moves, hrenamed.moves ht.plain⟩, ?_⟩
  exact fun w k r hr => toTuple_ofTuple (ht.plain w k r hr)

/-- Names with part 0 are on server 1, all others on server 2. -/
def twoServers : Placement := ⟨true, fun v => if v &&& 0x1FFF = 0 then 1 else 2⟩

/-- "ksh", which has part 0, in the directory with id `2 ^ 51`: the id that the coordinator makes of
the sequence number `2 ^ 39`. -/
def markedFile : Parsed := ⟨2 ^ 51, [107, 115, 104]⟩

/-- "tdp", which has part 0 too, in the same directory. -/
def markedTarget : Parsed := ⟨2 ^ 51, [116, 100, 112]⟩

/-- "a" and "ksh" in an ordinary directory. -/
def plainFile : Parsed := ⟨4096, [97]⟩
def plainTarget : Parsed := ⟨4096, [107, 115, 104]⟩

/-- What is in the memory before a reply comes. -/
def zeroInfo : RenamedInfo := ⟨0, 0, 0, 0, 0, 0, 0, 0, 0, 0, 0, 0, 0, 0⟩

/-- The tables after one create. -/
def oneFile (self : ServerId) (p : Parsed) : Tables :=
  step twoServers emptyTables (.create self [⟨p, 8193, 5⟩])

theorem runs_oneFile (self : ServerId) (p : Parsed) :
    Runs twoServers (fun _ _ => True) (oneFile self p) :=
  Machine.Run.refl.tail trivial rfl

/-- A file goes from server 2 to server 1. -/
theorem rename_moves_plainFile : ∃ t', handle twoServers (oneFile 2 plainFile)
    (.rename plainFile plainTarget zeroInfo) = some t' ∧
      Moves twoServers (oneFile 2 plainFile) t' (twoServers.key plainFile)
        (twoServers.key plainTarget) := by
  obtain ⟨t', h⟩ : ∃ t', handle twoServers (oneFile 2 plainFile)
    (.rename plainFile plainTarget zeroInfo) = some t' := ⟨_, rfl⟩
  refine ⟨t', h, (rename_moves_iff (runs_oneFile 2 plainFile) h).1.mpr (.inl ⟨?_, ?_⟩)⟩
  all_goals decide

/-- The rename succeeds, and the file is still where it was. -/
theorem rename_moves_nothing : ∃ t', Runs twoServers (fun _ _ => True) (oneFile 1 markedFile) ∧
    handle twoServers (oneFile 1 markedFile) (.rename markedFile markedTarget zeroInfo) = some t' ∧
      ¬ Moves twoServers (oneFile 1 markedFile) t' (twoServers.key markedFile)
        (twoServers.key markedTarget) := by
  obtain ⟨t', h⟩ : ∃ t', handle twoServers (oneFile 1 markedFile)
    (.rename markedFile markedTarget zeroInfo) = some t' := ⟨_, rfl⟩
  refine ⟨t', runs_oneFile 1 markedFile, h, fun hmoves => ?_⟩
  rw [handle] at h
  rcases (falconRenameHandle_cases h).marksClear_of_moves hmoves with hclear | ⟨heq, -⟩
  · exact absurd (by decide) hclear.1
  · exact absurd heq (by decide)

/-- A rename does not make a row of memory. -/
def NotForged (cfg : Placement) : Tables → Request → Prop
  | _, .rename src dst _ => cfg.home (cfg.key src) ≠ cfg.home (cfg.key dst) →
      (cfg.key src).parentidPartid ≠ 0
  | _, _ => True

theorem not_sIsreg_of_sIsdir {mode : BitVec 32} (h : sIsdir mode) : sIsreg mode = false := by
  rw [sIsdir, beq_iff_eq] at h
  rw [sIsreg, h]
  rfl

open SearchAndUpdateInfo

/-- An unlink leaves a directory as it is, and removes a file. -/
theorem unlink_directory (hdir : sIsdir r.stMode) (hnlink : r.stNlink = 2) :
    unlinkArgs.apply r = some (some r) := by
  have hdeletes : unlinkArgs.deletes r = false := by
    simp only [deletes, unlinkArgs, hnlink]
    rfl
  have hfails : (unlinkArgs.mode && fails unlinkArgs.modeCheckType r.stMode) = true := by
    simp [unlinkArgs, fails, not_sIsreg_of_sIsdir hdir]
  rw [apply, if_pos hfails, hdeletes]
  rfl

theorem unlink_file (hreg : sIsreg r.stMode) (hnlink : r.stNlink = 1) :
    unlinkArgs.apply r = some none := by
  have hdeletes : unlinkArgs.deletes r = true := by
    simp only [deletes, unlinkArgs, hnlink]
    rfl
  have hfails : (unlinkArgs.mode && fails unlinkArgs.modeCheckType r.stMode) = false := by
    simp [unlinkArgs, fails, hreg]
  rw [apply, hfails, hdeletes]
  rfl

theorem Update.typed {a : SearchAndUpdateInfo} (ha : Update a) (happly : a.apply r = some (some r'))
    (hr : r.Typed) : r'.Typed := by
  cases ha with
  | columns husual hnlink =>
    exact hr.congr (husual.type_eq happly) (nlink_eq hnlink happly)
  | unlink =>
    rcases hr with ⟨hreg, hnlink⟩ | ⟨hdir, hnlink⟩
    · rw [unlink_file hreg hnlink] at happly
      cases happly
    · rw [unlink_directory hdir hnlink] at happly
      obtain rfl := some.inj (some.inj happly)
      exact .inr ⟨hdir, hnlink⟩

theorem Runs.typed (h : Runs cfg (NotForged cfg) t) : AllRows InodeTuple.Typed t := by
  refine h.allRows (fun r hr => ?_) (fun a r r' ha happly hr => ha.typed happly hr)
    (fun r hr => hr) fun t src dst info hC hmark hcross => absurd hmark (hC hcross)
  cases hr with
  | create self i => exact .inl ⟨(by decide : sIsreg 0o100644 = true), rfl⟩
  | mkdir i => exact .inr ⟨(by decide : sIsdir 0o040755 = true), rfl⟩

theorem Came.type_eq (h : Came rel k r') (hr : rel k = some r) : r'.type = r.type := by
  induction h with
  | kept h => rw [some.inj (hr.symm.trans h)]
  | updated _ ha happly ih => exact (ha.usual.type_eq happly).trans ih
  | inserted hfree _ =>
    rw [hr] at hfree
    cases hfree

/-- **No request changes the type of a row.** -/
theorem step_type (hr : t w k = some r) (hr' : step cfg t req w k = some r') :
    r'.type = r.type := by
  cases hhandle : handle cfg t req with
  | none =>
    rw [step, hhandle, getD_none, hr] at hr'
    rw [some.inj hr']
  | some t' =>
    rw [step, hhandle, getD_some] at hr'
    cases handle_origin hhandle hr' with
    | came h => exact h.type_eq hr
    | renamed hfree _ _ =>
      rw [hr] at hfree
      cases hfree
    | forged hfree _ _ =>
      rw [hr] at hfree
      cases hfree

/-- A member of a batch of unlinks leaves every directory as it is. -/
theorem unlinkOne_directory {rel' : InodeRelation} {p : Parsed} (hr : rel k = some r)
    (hdir : sIsdir r.stMode) (hnlink : r.stNlink = 2)
    (h : changeOne cfg self unlinkArgs rel p = some rel') : rel' k = some r := by
  unfold changeOne at h
  dsimp only at h
  split at h
  · obtain ⟨⟨found, rel₁⟩, hsearch, rfl⟩ := map_eq_some_iff.mp h
    obtain ⟨-, ⟨-, rfl⟩ | ⟨r₁, v, hr₁, happly, rfl⟩⟩ := searchAndUpdate_some hsearch
    · exact hr
    · dsimp only
      by_cases hk : k = cfg.key p
      · obtain rfl := hk
        obtain rfl := some.inj (hr.symm.trans hr₁)
        rw [unlink_directory hdir hnlink] at happly
        rw [update_self, ← some.inj happly]
      · rw [update_of_ne hk]
        exact hr
  · cases h
    exact hr

theorem unlink_batch_directory (hdir : sIsdir r.stMode) (hnlink : r.stNlink = 2)
    (infos : List Parsed) :
    ∀ {rel rel' : InodeRelation}, rel k = some r →
      infos.foldlM (changeOne cfg self unlinkArgs) rel = some rel' → rel' k = some r := by
  induction infos with
  | nil =>
    intro rel rel' hr h
    cases h
    exact hr
  | cons p infos ih =>
    intro rel rel' hr h
    rw [foldlM_cons] at h
    obtain ⟨rel₁, hone, hrest⟩ := bind_eq_some_iff.mp h
    exact ih (unlinkOne_directory hr hdir hnlink hone) hrest

/-- An unlink that names only directories changes nothing. -/
theorem unlink_directories (self : ServerId) (infos : List Parsed)
    (h : ∀ p ∈ infos, ∃ r, rel (cfg.key p) = some r ∧ sIsdir r.stMode ∧ r.stNlink = 2) :
    infos.foldlM (changeOne cfg self unlinkArgs) rel = some rel := by
  induction infos with
  | nil => rfl
  | cons p infos ih =>
    obtain ⟨r, hr, hdir, hnlink⟩ := h p mem_cons_self
    have hone : changeOne cfg self unlinkArgs rel p = some rel := by
      unfold changeOne
      dsimp only
      split
      · rw [searchAndUpdateInodeTableInfo, hr]
        simp only [unlink_directory hdir hnlink, map_some]
        rw [← hr, update_eq_self]
      · rfl
    rw [foldlM_cons, hone]
    exact ih fun q hq => h q (mem_cons_of_mem _ hq)

/-- A rmdir of a file is an error. -/
theorem rmdirSubUnlink_file (hr : rel k = some r) (hnlink : r.stNlink = 1) :
    falconRmdirSubUnlinkHandle cfg self rel k = none := by
  unfold falconRmdirSubUnlinkHandle
  split
  · have hne : r.stNlink ≠ 2 := by
      rw [hnlink]
      decide
    simp only [searchAndUpdateInodeTableInfo, hr]
    cases rmdirArgs.apply r with
    | none => rw [map_none, bind_none]
    | some v => rw [map_some, bind_some, bind_some, if_neg hne]
  · rfl

/-- **Files have one link and directories two**, in every run in which no rename makes a row of
memory.  No request changes the type of a row.  An unlink leaves every directory in place, and
changes nothing when it names only directories; a rmdir of a file changes nothing. -/
theorem rows_typed {cfg : Placement} {t : Tables} (ht : Runs cfg (NotForged cfg) t) :
    AllRows InodeTuple.Typed t ∧
      (∀ req w k r r', t w k = some r → step cfg t req w k = some r' → r'.type = r.type) ∧
      (∀ self infos w k r, t w k = some r → sIsdir r.stMode →
        step cfg t (.unlink self infos) w k = some r) ∧
      (∀ self infos, (∀ p ∈ infos, ∃ r, t self (cfg.key p) = some r ∧ sIsdir r.stMode) →
        step cfg t (.unlink self infos) = t) ∧
      (∀ p r, t (cfg.home (cfg.key p)) (cfg.key p) = some r → sIsreg r.stMode →
        step cfg t (.rmdir p) = t) := by
  have htyped := ht.typed
  have hdirectory : ∀ {w k r}, t w k = some r → sIsdir r.stMode → r.stNlink = 2 := by
    intro w k r hr hdir
    rcases htyped w k r hr with ⟨hreg, -⟩ | ⟨-, hnlink⟩
    · rw [not_sIsreg_of_sIsdir hdir] at hreg
      cases hreg
    · exact hnlink
  refine ⟨htyped, fun _ _ _ _ _ => step_type, ?_, ?_, ?_⟩
  · intro self infos w k r hr hdir
    cases hhandle : handle cfg t (.unlink self infos) with
    | none =>
      rw [step, hhandle]
      exact hr
    | some t' =>
      rw [step, hhandle, getD_some]
      rw [handle] at hhandle
      obtain ⟨rel, hrel, rfl⟩ := map_eq_some_iff.mp hhandle
      by_cases hw : w = self
      · obtain rfl := hw
        rw [update_self]
        exact unlink_batch_directory hdir (hdirectory hr hdir) infos hr hrel
      · rw [update_of_ne hw]
        exact hr
  · intro self infos hinfos
    have hbatch := unlink_directories self infos fun p hp => by
      obtain ⟨r, hr, hdir⟩ := hinfos p hp
      exact ⟨r, hr, hdir, hdirectory hr hdir⟩
    rw [step, handle, onServer, hbatch, map_some, update_eq_self]
    rfl
  · intro p r hr hreg
    have hnlink : r.stNlink = 1 := by
      rcases htyped _ _ r hr with ⟨-, hnlink⟩ | ⟨hdir, -⟩
      · exact hnlink
      · rw [not_sIsreg_of_sIsdir hdir] at hreg
        cases hreg
    rw [step, handle, onServer, rmdirSubUnlink_file hr hnlink]
    rfl

/-- A file and a directory, and an unlink of the directory. -/
theorem rows_typed_two : ∃ t, Runs twoServers (NotForged twoServers) t ∧
    AllRows InodeTuple.Typed t ∧ (t 2 (twoServers.key plainFile)).isSome ∧
      step twoServers t (.unlink 1 [plainTarget]) = t := by
  have hfile : Runs twoServers (NotForged twoServers) (oneFile 2 plainFile) :=
    Machine.Run.refl.tail (e := .create 2 [⟨plainFile, 8193, 5⟩]) trivial rfl
  have hrun : Runs twoServers (NotForged twoServers)
      (step twoServers (oneFile 2 plainFile) (.mkdir [⟨plainTarget, 12288, 6⟩])) :=
    hfile.tail (e := Request.mkdir [⟨plainTarget, 12288, 6⟩]) trivial rfl
  obtain ⟨htyped, -, -, hunlink, -⟩ := rows_typed hrun
  refine ⟨_, hrun, htyped, by decide, hunlink 1 [plainTarget] fun p hp => ?_⟩
  obtain rfl := mem_singleton.mp hp
  exact ⟨_, rfl, by decide⟩

/-- A rename from server 1 to server 2 makes a row that is neither a file nor a directory. -/
theorem rename_forges_row : ∃ t, Runs twoServers (fun _ _ => True) t ∧
    ¬ AllRows InodeTuple.Typed t := by
  refine ⟨step twoServers (oneFile 1 markedFile) (.rename markedFile plainFile zeroInfo),
    (runs_oneFile 1 markedFile).tail trivial rfl, fun htyped => ?_⟩
  have hrow := htyped 2 (twoServers.key plainFile) zeroInfo.toTuple rfl
  rcases hrow with ⟨hreg, -⟩ | ⟨hdir, -⟩
  · exact absurd hreg (by decide)
  · exact absurd hdir (by decide)

end FalconFS.InodeRows
