/-
# One name space, whatever is interleaved

Every transaction that commits finds the tables as it needs them (`NameSpace`) and leaves them so.
What it needs it has looked up on the way, and `Pending` says that its lookups are still true; this
module puts the two together, transaction by transaction.

Four things can go wrong in the source, and all are conditions on the runs (`Sound`):

* a stale value is filled into the hash of a server, so that a lookup under a lock is not true
  (`Fills`);
* the numbers from which the coordinator makes its ids come to `2 ^ 39`, so that bits of them are
  lost in the keys of the inode tables (`Draws`);
* `FalconRenameHandle` decides by a lookup WITHOUT a lock whether it renames a file or a directory,
  and which id the directory keeps.  Nobody looks again (`RenameCurrent`);
* it does not care whether its destination begins with a slash, so that a row comes to stand beside
  the root (also in `RenameCurrent`).

In all other runs the directory table is a tree, and it agrees with the inode rows.  The schedules
at the end are runs that break it.
-/
import FalconFS.Cluster.Pending
import FalconFS.Metadb.NameSpace

namespace FalconFS.Cluster

open Machine List AList

open DirPathHash (applyWrites)
open Forest (Rooted Climbs)

/-! ## 1. The condition -/

/-- The rename that commits finds at its source what the lookup without lock has found, and its
destination is in a directory. -/
def RenameCurrent (s : State) (t : Sid) : Prop :=
  ∀ x w p, s.txn t = some x → (w, .renameSubRenameLocally p) ∈ sentOf (x.log x.home) →
    (s.srv cnServerId).table p.src = (if p.targetIsDirectory then some p.inodeId else none) ∧
      p.dst.parentId ≠ 0

theorem RenameCurrent.at_source {cfg : Config} {s : State} {t : Sid} {x : Txn} {w : ServerId}
    {p : RenameParam} (h : RenameCurrent s t) (hx : s.txn t = some x)
    (hp : (w, .renameSubRenameLocally (renameAtSource cfg p)) ∈ sentOf (x.log x.home)) :
    (s.srv cnServerId).table p.src = (if p.targetIsDirectory then some p.inodeId else none) ∧
      p.dst.parentId ≠ 0 := h x w (renameAtSource cfg p) hx hp

def Sound (s : State) (e : Event) : Prop :=
  Fills s e ∧ Draws e ∧ ∀ t, e = .commit t → RenameCurrent s t

/-! ## 2. What is true between the steps -/

/-- Only the root is below the id 0, and no id loses a bit in the keys of the inode tables. -/
structure Placed (T : Key → Option InodeId) : Prop where
  top : ∀ k id, T k = some id → k.parentId = 0 → k = rootKey
  small : ∀ k id, T k = some id → id < 2 ^ 51

structure Consistent (cfg : Config) (s : State) : Prop where
  base : Base cfg s
  truthful : Truthful s
  tables : ∀ i ∈ cfg.servers, (s.srv i).table = (s.srv cnServerId).table
  live : Live cfg s
  names : NameSpace cfg (s.srv cnServerId).table s.inode
  placed : Placed (s.srv cnServerId).table

theorem cn_mem_servers (cfg : Config) : cnServerId ∈ cfg.servers := mem_cons_self

theorem mem_servers_of_mem {cfg : Config} {w : ServerId} (hw : w ∈ cfg.workers) :
    w ∈ cfg.servers := mem_cons_of_mem _ hw

/-- A command that has been sent was sent under its lock. -/
theorem locked_of_sent {cfg : Config} {i : ServerId} {cmds : List SubRequest} {h : List Entry}
    (ha : Prog.All (OpOk cfg i cmds) h) {w : ServerId} {k : Key}
    (hs : (w, .rmdirSubRmdir k) ∈ sentOf h) : (k, .exclusive) ∈ locksOf h := by
  induction h with
  | nil => cases hs
  | cons e h ih =>
    have hup : (w, .rmdirSubRmdir k) ∈ sentOf h → (k, .exclusive) ∈ locksOf (e :: h) := fun hs =>
      mem_locksOf_of_suffix (suffix_cons _ _) (ih ha.2 hs)
    obtain ⟨o, r⟩ := e
    cases o with
    | hash | nextInodeId | inode => exact hup hs
    | remote sent =>
      rcases mem_append.mp hs with hs | hs
      · exact hup hs
      · exact mem_locksOf_of_suffix (suffix_cons _ _) (ha.1.2.2.1 w k hs)

section Known

variable {cfg : Config} {s : State} {t : Sid} {x : Txn} (hc : Consistent cfg s)
  (hx : s.txn t = some x)

include hc hx

variable {i : ServerId} {p : InodeId}

/-- A lookup under a lock, on any server, has found what is in the directory table. -/
theorem Consistent.saw (hi : i ∈ cfg.servers) {k : Key} {mode : DirLockMode} {v : Option InodeId}
    (hs : Saw (x.log i) k mode v) (hmode : mode ≠ .none) : (s.srv cnServerId).table k = v := by
  rw [← hc.tables i hi]
  exact (hc.live.knows t x hx).saw i k mode v hmode hs

theorem Consistent.dirExists (hi : i ∈ cfg.servers) (hp : SharedChain (x.log i) p) :
    DirExists (s.srv cnServerId).table p := by
  cases hp with
  | root => exact .inl rfl
  | step hs => exact .inr ⟨_, hc.saw hx hi hs (by simp)⟩

theorem Consistent.parent {created : List DirEntry}
    (hp : ParentOk true (x.log cnServerId) created p) :
    (∃ k, (s.srv cnServerId).table k = some p) ∨ ∃ k, ⟨k, p⟩ ∈ created := by
  rcases hp with ⟨k, hs⟩ | ⟨_, k, hs | hmem⟩
  · exact .inl ⟨k, hc.saw hx (cn_mem_servers cfg) hs (by simp)⟩
  · exact .inl ⟨k, hc.saw hx (cn_mem_servers cfg) hs (by simp)⟩
  · exact .inr ⟨k, hmem⟩

/-- **Who scans** is a worker that removes a directory, which it has locked, as has the
coordinator. -/
theorem Consistent.scanning {n : Nat} {b : Bool}
    (he : (⟨.inode (.scan n p), b⟩ : Entry) ∈ x.log i) :
    i ≠ x.home ∧ ∃ k, (s.srv cnServerId).table k = some p ∧ (k, .exclusive) ∈ locksOf (x.log i) ∧
      (k, .exclusive) ∈ locksOf (x.log cnServerId) := by
  have hok := (hc.base.own t).txn x hx
  have hne : i ≠ x.home := by
    rintro rfl
    obtain ⟨_, _, k, hk, _⟩ := hok.mainAll.mem he
    cases hk
  refine ⟨hne, ?_⟩
  obtain ⟨h, hsuf, k, hk, hsaw⟩ := (hok.subAll i hne).mem he
  have hsaw : Saw (x.log i) k .exclusive (some p) :=
    hsuf.subset (mem_cons_of_mem _ hsaw)
  obtain ⟨c, hc', hck⟩ := mem_map.mp hk
  obtain ⟨hsent, hci⟩ := mem_filter.mp hc'
  obtain ⟨w, c⟩ := c
  obtain rfl : w = i := by simpa using hci
  obtain rfl : c = .rmdirSubRmdir k := hck
  obtain ⟨hhome, hw⟩ := hok.sent _ hsent
  refine ⟨k, hc.saw hx (mem_servers_of_mem hw) hsaw (by simp), hsaw.exclusive_mem, ?_⟩
  rw [← hhome]
  rcases mem_append.mp hsent with hsent | hsent
  · exact locked_of_sent hok.mainAll hsent
  · -- the command is on its way: its lock is a condition of the send
    have hwait : x.waiting = true := by
      by_contra hno
      simp [Txn.pending, hno] at hsent
    obtain ⟨cmds, f, hprog⟩ := hok.waits hwait
    have hmain := hok.main
    rw [hprog] at hmain
    simp only [Txn.pending, hwait, if_true, hprog, sends] at hsent
    exact hmain.1.2.2.1 w k hsent

end Known

/-! ## 3. Commits, kind by kind -/

section Commit

variable {cfg : Config} {s : State} {t : Sid} {x : Txn} (hc : Consistent cfg s)
  (hx : s.txn t = some x)

include hc hx

/-- The new directories of a batch. -/
theorem Consistent.newDirs {es : List DirEntry} (hes : MkdirOk (x.log cnServerId) es)
    (hids : (es.map (·.inodeId)).reverse.Sublist (idsOf (x.log cnServerId)))
    (hkeys : es.Pairwise fun e e' => e.key ≠ e'.key) : NewDirs (s.srv cnServerId).table es where
  free e he := by
    obtain ⟨l₁, l₂, heq⟩ := append_of_mem he
    exact hc.saw hx (cn_mem_servers cfg) (hes l₁ e l₂ heq).1 (by simp)
  keys := hkeys
  fresh e he := by
    have hmem : e.inodeId ∈ idsOf (x.log cnServerId) :=
      hids.subset (mem_reverse.mpr (mem_map_of_mem he))
    have hd := hc.live.drawn t x hx
    exact ⟨(hd.bounds hmem).1, hd.unused _ hmem⟩
  ids := by
    have hnodup := (hc.live.drawn t x hx).nodup.sublist hids
    rw [nodup_reverse] at hnodup
    exact pairwise_map.mp hnodup
  parents l₁ e l₂ heq := by
    rcases (hes l₁ e l₂ heq).2 with hroot | hp
    · exact .inl (.inl (by rw [hroot]; rfl))
    · exact (hc.parent hx hp).imp_left .inr

/-- A directory that is removed has no rows below it. -/
theorem Consistent.empty {k : Key} {id : InodeId} (hk : (s.srv cnServerId).table k = some id)
    (hscan : ∀ w ∈ cfg.workers, ∃ id', Saw (x.log w) k .exclusive (some id') ∧
      ∀ n ∈ cfg.localShards w, (⟨.inode (.scan n id'), false⟩ : Entry) ∈ x.log w)
    (hputs : ∀ w ∈ cfg.workers, ∀ q ∈ putsOf (x.log w), q.key = k) (k' : Key)
    (hp : k'.parentId = id) : lookup k' (s.inode (cfg.owner k')) = none := by
  have hw := cfg.owner_mem k'
  obtain ⟨id', hsaw, hall⟩ := hscan _ hw
  obtain rfl : id = id' :=
    Option.some.inj (hk.symm.trans (hc.saw hx (mem_servers_of_mem hw) hsaw (by simp)))
  have hshard : cfg.shard k' ∈ cfg.localShards (cfg.owner k') :=
    mem_filter.mpr ⟨cfg.shard_mem k', by simp [Config.owner]⟩
  have he := hall _ hshard
  have hops := ((hc.base.own t).txn x hx).subAll _ (hc.scanning hx he).1
  have hcmds : x.cmds (cfg.owner k') ≠ [] := by
    obtain ⟨_, _, _, hk, _⟩ := hops.mem he
    exact ne_nil_of_mem hk
  obtain ⟨l₁, l₂, heq⟩ := append_of_mem he
  have hsuf : (⟨.inode (.scan (cfg.shard k') id), false⟩ :: l₂ : List Entry) <:+
      x.log (cfg.owner k') := ⟨l₁, heq.symm⟩
  have hnone := (hc.live.knows t x hx).scans _ _ _ _ hsuf k' rfl hp
  -- the scan saw the row of the directory itself go, at most
  have hno : ∀ q ∈ putsOf l₂, q.key ≠ k' := by
    intro q hq hqk
    have hmem : q ∈ putsOf (x.log (cfg.owner k')) :=
      (putsOf_suffix hops hcmds ((suffix_cons _ _).trans hsuf)).subset hq
    have hkk : k' = k := hqk.symm.trans (hputs _ hw q hmem)
    exact hc.names.tree.up_ne hk (hkk ▸ hp)
  rwa [lookup_applyPuts_of_not_mem _ hno] at hnone

/-- The way up from the destination of a directory rename does not need the source: it is locked in
shared mode, the source exclusively. -/
theorem Consistent.rooted {src : Key} {v : Option InodeId} {p : InodeId}
    (hsrc : Saw (x.log cnServerId) src .exclusive v) (hup : SharedChain (x.log cnServerId) p) :
    Rooted Key.parentId 0 (Function.update (s.srv cnServerId).table src none) p := by
  induction hup with
  | root => exact .root
  | @step k p hs _ ih =>
    have hne : k ≠ src := by
      rintro rfl
      have := (exclusive_alone hc.base hx hx hsrc.exclusive_mem (by simp) hs.shared_mem).2
      cases this
    refine .step ?_ ih
    rw [Function.update_of_ne hne]
    exact hc.saw hx (cn_mem_servers cfg) hs (by simp)

end Commit

theorem of_applyWrites_eq_some {W : List (Key × Option InodeId)} {T : Key → Option InodeId}
    {k : Key} {id : InodeId} (h : applyWrites W T k = some id) :
    (k, some id) ∈ W ∨ T k = some id := by
  induction W with
  | nil => exact .inr h
  | cons e W ih =>
    obtain ⟨k', v⟩ := e
    rw [applyWrites_cons] at h
    rcases Forest.of_update_eq_some h with ⟨rfl, rfl⟩ | ⟨_, h⟩
    · exact .inl mem_cons_self
    · exact (ih h).imp_left fun hm => mem_cons_of_mem _ hm

/-- What a worker has under a key when a rename has moved the row `r`. -/
theorem lookup_renamePuts (cfg : Config) (p : RenameParam) (r : InodeRow) (w : ServerId)
    (tbl : InodeTable) (k : Key) :
    lookup k (applyPuts (renamePuts cfg p r w) tbl) =
      if k = p.dst ∧ cfg.owner p.dst = w then some r
      else if k = p.src ∧ cfg.owner p.src = w then none else lookup k tbl := by
  by_cases hd : cfg.owner p.dst = w <;> by_cases hs : cfg.owner p.src = w <;>
    simp [renamePuts, hd, hs, lookup_applyPuts_cons]

section Names

variable {cfg : Config} {s : State} {t : Sid} {x : Txn} (hc : Consistent cfg s)
  (hx : s.txn t = some x)

include hc hx

/-- The row that a rename moves, and the place where it goes. -/
theorem Consistent.renameRow {p : RenameParam} {r : InodeRow}
    (hrows : ∀ w ∈ cfg.workers, putsOf (x.log w) = renamePuts cfg p r w) :
    lookup p.src (s.inode (cfg.owner p.src)) = some r ∧
      (p.dst = p.src ∨ lookup p.dst (s.inode (cfg.owner p.dst)) = none) := by
  have hchain : ∀ w ∈ cfg.workers, Chained (renamePuts cfg p r w) (s.inode w) := fun w hw => by
    rw [← hrows w hw]
    exact (hc.live.knows t x hx).puts w
  constructor
  · have hsrc := hchain _ (cfg.owner_mem p.src)
    have hlast : [(⟨p.src, some r, none⟩ : Put)] <:+ renamePuts cfg p r (cfg.owner p.src) := by
      simp [renamePuts]
    exact (hsrc.suffix hlast).1.symm
  · by_cases hne : p.dst = p.src
    · exact .inl hne
    · right
      have hdst := hchain _ (cfg.owner_mem p.dst)
      simp only [renamePuts, if_true, cons_append, nil_append] at hdst
      refine (lookup_applyPuts_of_not_mem _ fun q hq => ?_).symm.trans hdst.1.symm
      split at hq
      · rw [mem_singleton.mp hq]
        exact Ne.symm hne
      · cases hq

/-- The workers move the row of a rename: no combined id is 0. -/
theorem Consistent.stored {p : RenameParam}
    (hfrom : ∃ k, Saw (x.log cnServerId) k .shared (some p.src.parentId))
    (hup : SharedChain (x.log cnServerId) p.dst.parentId) (hdst : p.dst.parentId ≠ 0) :
    Stored cfg p := by
  have hnonzero : ∀ {k k'}, Saw (x.log cnServerId) k .shared (some k'.parentId) →
      cfg.parentIdPartId k' ≠ 0 := by
    intro k k' hs
    have hk := hc.saw hx (cn_mem_servers cfg) hs (by simp)
    refine cfg.parentIdPartId_ne_zero (fun h0 => ?_) (hc.placed.small k _ hk)
    exact hc.names.tree.proper k (h0 ▸ hk)
  refine ⟨hnonzero hfrom.choose_spec, ?_⟩
  generalize hp : p.dst.parentId = q at hup
  cases hup with
  | root => exact absurd hp hdst
  | step hs => exact hnonzero (hp ▸ hs)

/-- **The tables after a commit.** -/
theorem Consistent.commit_names (hret : ∀ i ∈ cfg.servers, (x.prog i).isRet = true)
    (hcur : RenameCurrent s t) :
    NameSpace cfg (applyWrites (writesOf (x.log cnServerId)) (s.srv cnServerId).table)
      (fun i => applyPuts (putsOf (x.log i)) (s.inode i)) := by
  have hcn := cn_mem_servers cfg
  have hputs := (hc.live.knows t x hx).puts
  have hok := (hc.base.own t).txn x hx
  cases outcome_at_commit hc.base hx hret with
  | locally hw hp hl =>
    rw [hw, applyWrites_nil]
    refine ⟨hc.names.tree, fun w hww => ?_⟩
    by_cases hh : w = x.home
    · subst hh
      refine rowsOk_local (fun p => hc.dirExists hx (mem_servers_of_mem hww))
        (hc.names.rows _ hww) (hputs _) fun q hq => ⟨hl q hq, owner_of_old_none hok.mainAll hq⟩
    · simp only [hp w hh, applyPuts_nil]
      exact hc.names.rows w hww
  | mkdir es hw hp hrows hes hids =>
    have hchain : ∀ w ∈ cfg.workers, Chained (dirPuts (ownEntries cfg es w)) (s.inode w) :=
      fun w hww => hrows w hww ▸ hputs w
    rw [hw _ hcn]
    exact hc.names.mkdir (hc.newDirs hx hes hids (keys_of_chained hchain)) hchain
      fun w hww => by rw [hrows w hww]; rfl
  | rmdir k id hw hk hp hscan hrows hrow =>
    obtain ⟨r, _, hput⟩ := hrow
    have hk' := hc.saw hx hcn hk (by simp)
    have hkey : ∀ w ∈ cfg.workers, ∀ q ∈ putsOf (x.log w), q.key = k := by
      intro w hww q hq
      by_cases ho : cfg.owner k = w
      · subst ho
        rw [hput] at hq
        rw [mem_singleton.mp hq]
      · rw [hrows w hww ho] at hq
        cases hq
    rw [hw _ hcn]
    refine hc.names.rmdir hk' (hc.empty hx hk' hscan hkey) fun w hww k' => ?_
    by_cases ho : cfg.owner k = w
    · subst ho
      simp only [hput, lookup_applyPuts_cons, applyPuts_nil, and_true]
    · simp only [hrows w hww ho, applyPuts_nil, ho, and_false, if_false]
  | rename p hsent hw hws hp hrows hfrom hup hdir =>
    obtain ⟨hsrc, hdst⟩ := hcur.at_source hx hsent
    obtain ⟨r, hrows⟩ := hrows (hc.stored hx hfrom hup hdst)
    obtain ⟨hr, hfree⟩ := hc.renameRow hx hrows
    have hlook : ∀ w ∈ cfg.workers, ∀ k,
        lookup k (applyPuts (putsOf (x.log w)) (s.inode w)) =
          if k = p.dst ∧ cfg.owner p.dst = w then some r
          else if k = p.src ∧ cfg.owner p.src = w then none else lookup k (s.inode w) :=
      fun w hww k => by rw [hrows w hww, lookup_renamePuts]
    rw [hw]
    cases hd : p.targetIsDirectory with
    | true =>
      obtain ⟨⟨id, hsaw⟩, hdst⟩ := hdir hd
      rw [if_pos rfl]
      exact hc.names.renameDirectory hr hlook (by rw [hsrc, hd, if_pos rfl])
        (hc.saw hx hcn hdst (by simp)) (hc.rooted hx hsaw hup)
    | false =>
      rw [hd, if_neg (by simp)] at hsrc
      rw [if_neg (by simp), applyWrites_nil]
      refine hc.names.renameFile hr hlook hsrc ?_ (hc.dirExists hx hcn hup)
      rcases hfree with heq | hnone
      · rw [heq, hsrc]
      · have hrow := hc.names.rows _ (cfg.owner_mem p.dst) p.dst
        rw [hnone] at hrow
        exact hrow rfl

/-- The ids in the table after a commit. -/
theorem Consistent.newIds (hret : ∀ i ∈ cfg.servers, (x.prog i).isRet = true)
    (hcur : RenameCurrent s t) :
    NewIds (s.srv cnServerId).table
      (applyWrites (writesOf (x.log cnServerId)) (s.srv cnServerId).table)
      (idsOf (x.log cnServerId)) := by
  have hcn := cn_mem_servers cfg
  intro k id hk
  rcases of_applyWrites_eq_some hk with hmem | hT
  · cases outcome_at_commit hc.base hx hret with
    | locally hw =>
      rw [hw] at hmem
      cases hmem
    | mkdir es hw _ _ _ hids =>
      rw [hw _ hcn, entryWrites, mem_reverse, mem_map] at hmem
      obtain ⟨e, he, heq⟩ := hmem
      obtain ⟨_, hid⟩ := Prod.mk.inj heq
      cases hid
      exact .inr (hids.subset (mem_reverse.mpr (mem_map_of_mem he)))
    | rmdir k' id' hw =>
      rw [hw _ hcn] at hmem
      simp at hmem
    | rename p hsent hw =>
      have hsrc := (hcur.at_source hx hsent).1
      rw [hw] at hmem
      split at hmem
      · rename_i hd
        rw [if_pos hd] at hsrc
        obtain ⟨_, rfl⟩ : k = p.dst ∧ id = p.inodeId := by simpa using hmem
        exact .inl ⟨p.src, hsrc⟩
      · cases hmem
  · exact .inl ⟨k, hT⟩

/-- Where the keys of the table after a commit are. -/
theorem Consistent.commit_placed (hret : ∀ i ∈ cfg.servers, (x.prog i).isRet = true)
    (hcur : RenameCurrent s t) :
    Placed (applyWrites (writesOf (x.log cnServerId)) (s.srv cnServerId).table) where
  top k id hk h0 := by
    rcases of_applyWrites_eq_some hk with hmem | hT
    · cases outcome_at_commit hc.base hx hret with
      | locally hw =>
        rw [hw] at hmem
        cases hmem
      | mkdir es hw _ _ hes hids =>
        rw [hw _ (cn_mem_servers cfg), entryWrites, mem_reverse, mem_map] at hmem
        obtain ⟨e, he, heq⟩ := hmem
        obtain ⟨rfl, _⟩ := Prod.mk.inj heq
        obtain ⟨l₁, l₂, rfl⟩ := append_of_mem he
        rcases (hes l₁ e l₂ rfl).2 with hroot | hp
        · exact hroot
        -- a directory above it has an id, which is not 0
        · rw [h0] at hp
          rcases hc.parent hx hp with ⟨k, hk⟩ | ⟨k, hk⟩
          · exact absurd hk (hc.names.tree.proper k)
          · have hdrawn := hids.subset
              (mem_reverse.mpr (mem_map_of_mem (mem_append_left (e :: l₂) hk)))
            exact absurd rfl ((hc.live.drawn t x hx).bounds hdrawn).1
      | rmdir k' id' hw =>
        rw [hw _ (cn_mem_servers cfg)] at hmem
        simp at hmem
      | rename p hsent hw =>
        rw [hw] at hmem
        split at hmem
        · obtain ⟨rfl, _⟩ : k = p.dst ∧ id = p.inodeId := by simpa using hmem
          exact absurd h0 (hcur.at_source hx hsent).2
        · cases hmem
    · exact hc.placed.top k id hT h0
  small k id hk := by
    rcases hc.newIds hx hret hcur k id hk with ⟨k', hk'⟩ | hid
    · exact hc.placed.small k' id hk'
    · exact ((hc.live.drawn t x hx).bounds hid).2

/-- The directory of a new row is held, on the worker of the row or on the coordinator, or is itself
new. -/
def Held (s : State) (x : Txn) (w : ServerId) (p : InodeId) : Prop :=
  p = 0 ∨ (∃ i k m, (i = w ∨ i = cnServerId) ∧ m ≠ .declare ∧ (k, m) ∈ locksOf (x.log i) ∧
    (s.srv cnServerId).table k = some p) ∨ p ∈ idsOf (x.log cnServerId)

theorem Consistent.held_of_sharedChain {i w : ServerId} (hi : i ∈ cfg.servers)
    (hiw : i = w ∨ i = cnServerId) {p : InodeId} (hp : SharedChain (x.log i) p) : Held s x w p := by
  cases hp with
  | root => exact .inl rfl
  | @step k _ hs _ =>
    exact .inr (.inl ⟨i, k, .shared, hiw, by simp, hs.shared_mem, hc.saw hx hi hs (by simp)⟩)

/-- **Who inserts a row holds its directory.** -/
theorem Consistent.held (hret : ∀ i ∈ cfg.servers, (x.prog i).isRet = true)
    (hcur : RenameCurrent s t) {w : ServerId} (hww : w ∈ cfg.workers) {q : Put}
    (hq : q ∈ putsOf (x.log w)) (hold : q.old = none) : Held s x w q.key.parentId := by
  have hcn := cn_mem_servers cfg
  cases outcome_at_commit hc.base hx hret with
  | locally hw hp hl =>
    by_cases hh : w = x.home
    · subst hh
      have hlocal := hl q hq
      cases hlocal with
      | create k r _ _ hup =>
        exact hc.held_of_sharedChain hx (mem_servers_of_mem hww) (.inl rfl) hup
      | unlink | decrement | update => cases hold
    · rw [hp w hh] at hq
      cases hq
  | mkdir es hw hp hrows hes hids =>
    rw [hrows w hww] at hq
    obtain ⟨e, he, rfl⟩ := mem_dirPuts.mp hq
    obtain ⟨l₁, l₂, heq⟩ := append_of_mem (mem_ownEntries.mp he).1
    rcases (hes l₁ e l₂ heq).2 with hroot | ⟨k, hs⟩ | ⟨_, k, hs | hmem⟩
    · exact .inl (by rw [hroot]; rfl)
    · exact .inr (.inl ⟨_, k, .shared, .inr rfl, by simp, hs.shared_mem,
        hc.saw hx hcn hs (by simp)⟩)
    · exact .inr (.inl ⟨_, k, .exclusive, .inr rfl, by simp, hs.exclusive_mem,
        hc.saw hx hcn hs (by simp)⟩)
    · have hes' : (⟨k, e.key.parentId⟩ : DirEntry) ∈ es := by
        rw [heq]
        exact mem_append_left _ hmem
      exact .inr (.inr (hids.subset (mem_reverse.mpr (mem_map_of_mem hes'))))
  | rmdir k id hw hk hp hscan hrows hrow =>
    obtain ⟨r, _, hput⟩ := hrow
    by_cases ho : cfg.owner k = w
    · subst ho
      rw [hput] at hq
      rw [mem_singleton.mp hq] at hold
      cases hold
    · rw [hrows w hww ho] at hq
      cases hq
  | rename p hsent hw hws hp hrows hfrom hup hdir =>
    obtain ⟨r, hrows⟩ := hrows (hc.stored hx hfrom hup (hcur.at_source hx hsent).2)
    rw [hrows w hww, renamePuts, mem_append] at hq
    rcases hq with hq | hq
    · split at hq
      · rw [mem_singleton.mp hq]
        exact hc.held_of_sharedChain hx hcn (.inr rfl) hup
      · cases hq
    · split at hq
      · rw [mem_singleton.mp hq] at hold
        cases hold
      · cases hq

/-- **Nobody inserts below a directory that another transaction is removing.** -/
theorem Consistent.notScanned (hret : ∀ i ∈ cfg.servers, (x.prog i).isRet = true)
    (hcur : RenameCurrent s t) {u : Sid} {y : Txn} (hne : u ≠ t) (hy : s.txn u = some y) :
    NotScanned cfg x y := by
  intro i n p h hs q hq _ hp hold
  have he : (⟨.inode (.scan n p), false⟩ : Entry) ∈ y.log i := hs.subset mem_cons_self
  obtain ⟨_, k, hk, hlock, hlockCn⟩ := hc.scanning hy he
  have hi : i ∈ cfg.workers := by
    have hok := (hc.base.own u).txn y hy
    obtain ⟨_, _, k', hk', _⟩ := (hok.subAll i (hc.scanning hy he).1).mem he
    obtain ⟨c, hmem, hci⟩ := exists_of_forServer_ne_nil (ne_nil_of_mem hk')
    exact hci ▸ (hok.sent c hmem).2
  rcases hc.held hx hret hcur hi hq hold with h0 | ⟨j, k', m, hj, hm, hl, hk'⟩ | hdrawn
  · rw [hp] at h0
    exact hc.names.tree.proper k (h0 ▸ hk)
  · rw [hp] at hk'
    obtain rfl := hc.names.tree.once k' k p hk' hk
    have hlock' : (k', .exclusive) ∈ locksOf (y.log j) := by
      rcases hj with rfl | rfl
      · exact hlock
      · exact hlockCn
    exact hne (exclusive_alone hc.base hy hx hlock' hm hl).1.symm
  · rw [hp] at hdrawn
    exact (hc.live.drawn t x hx).unused p hdrawn k hk

end Names

/-! ## 4. Every run -/

variable {cfg : Config} {s s' s₀ : State} {t : Sid} {e : Event} {table : Key → Option InodeId}
  {inode : ServerId → InodeTable} {seq : ServerId → List Nat} {ok : State → Event → Bool}

theorem Move.commit_frame (hm : Move cfg s (.commit t) s') :
    (∀ u, s'.txn u = if u = t then none else s.txn u) ∧ s'.seq = s.seq := by
  cases hm with
  | commit hx hret =>
    refine ⟨fun u => ?_, rfl⟩
    by_cases hu : u = t
    · subst hu
      rw [if_pos rfl, setTxn_txn_self]
    · rw [if_neg hu]
      exact setTxn_txn_ne _ _ hu

/-- **One step.** -/
theorem consistent_move (hc : Consistent cfg s) (hs : Sound s e) (hm : Move cfg s e s') :
    Consistent cfg s' := by
  have hb := base_move hc.base hm
  have htr := truthful_move hc.base hc.truthful hs.1 hm
  have htables : ∀ i ∈ cfg.servers, (s'.srv i).table = (s'.srv cnServerId).table := by
    intro i hi
    rcases mem_cons.mp hi with rfl | hw
    · rfl
    · exact tables_move hc.base hm hw (hc.tables i hi)
  rcases hm.tables hc.base with ⟨ht, hi, _⟩ | ⟨t, x, rfl, hx, hret, htable, hinode⟩
  · refine ⟨hb, htr, htables, live_move hc.base hc.truthful hc.live hs.2.1 hm ht hi, ?_, ?_⟩
    · rw [ht, hi]
      exact hc.names
    · rw [ht]
      exact hc.placed
  · have hcur := hs.2.2 t rfl
    obtain ⟨htxn, hseq⟩ := hm.commit_frame
    refine ⟨hb, htr, htables, ?_, ?_, ?_⟩
    · refine live_commit hc.base hc.live hx hret htable hinode htxn hseq ?_
        fun u y hne hy => hc.notScanned hx hret hcur hne hy
      rw [htable]
      exact hc.newIds hx hret hcur
    · rw [htable, hinode]
      exact hc.commit_names hx hret hcur
    · rw [htable]
      exact hc.commit_placed hx hret hcur

/-- A cluster at rest whose tables fit together, and whose sequence has the ids in use behind it. -/
structure Fits (cfg : Config) (table : Key → Option InodeId) (inode : ServerId → InodeTable)
    (seq : ServerId → List Nat) : Prop where
  names : NameSpace cfg table inode
  placed : Placed table
  seq : SeqOk table (seq cnServerId)

theorem consistent_run (h₀ : Fits cfg table inode seq)
    (h : Run (step cfg) Sound (.init table inode seq) s) : Consistent cfg s :=
  h.invariant
    ⟨base_init cfg table inode seq, truthful_init table inode seq, fun _ _ => rfl,
      live_init inode h₀.seq, h₀.names, h₀.placed⟩
    fun _ _ _ hc hs hstep => consistent_move hc hs (step_cases hstep)

/-! ## 5. Runs that meet the condition

Whether a step meets the condition can be tested: only the sessions that have been used can be in a
callback. -/

/-- `Fills`, as a test. -/
def fillsNow (s : State) : Event → Bool
  | .advance t i _ =>
    match ((s.srv i).session t).call with
    | some ⟨_, k, _, .enter (.known v)⟩ =>
      v = (s.srv i).table k && s.sids.all fun u =>
        ((s.srv i).session u).phase ≠ .ending || ((s.srv i).session u).toCommit.all fun
          | .updateEntry k' _ => k' ≠ k
          | .addEntry _ => true
    | _ => true
  | _ => true

/-- `RenameCurrent`, as a test. -/
def renameNow (s : State) (t : Sid) : Bool :=
  (s.txn t).all fun x => (sentOf (x.log x.home)).all fun
    | (_, .renameSubRenameLocally p) =>
      (s.srv cnServerId).table p.src = (if p.targetIsDirectory then some p.inodeId else none) &&
        p.dst.parentId ≠ 0
    | _ => true

def soundNow (s : State) (e : Event) : Bool :=
  fillsNow s e && match e with
    | .commit t => renameNow s t
    | .nextInodeId _ _ n => n < 2 ^ 39
    | _ => true

theorem fills_of_fillsNow (hb : Base cfg s) (h : fillsNow s e = true) : Fills s e := by
  cases e with
  | advance t i c =>
    intro c' v hc hst
    obtain ⟨op, k, mode, stage⟩ := c'
    obtain rfl : stage = .enter (.known v) := hst
    simp only [fillsNow, hc, Bool.and_eq_true, decide_eq_true_eq, all_eq_true] at h
    refine ⟨h.1, fun u hu w hmem => ?_⟩
    have hused : u ∈ s.sids := by
      by_contra hno
      rw [((hb.own u).unused hno).2 i] at hu
      cases hu
    have hno := h.2 u hused
    simp only [hu, ne_eq, not_true_eq_false, decide_false, Bool.false_or, all_eq_true] at hno
    simpa using hno _ hmem
  | _ => trivial

theorem renameCurrent_of_renameNow (h : renameNow s t = true) : RenameCurrent s t := by
  intro x w p hx hmem
  simp only [renameNow, hx, Option.all_some, all_eq_true] at h
  simpa using h _ hmem

theorem sound_of_soundNow (hb : Base cfg s) (h : soundNow s e = true) : Sound s e := by
  simp only [soundNow, Bool.and_eq_true] at h
  refine ⟨fills_of_fillsNow hb h.1, ?_, fun t he => ?_⟩
  · cases e with
    | nextInodeId t i n => exact fun _ => by simpa using h.2
    | _ => trivial
  · subst he
    exact renameCurrent_of_renameNow h.2

theorem run_sound
    (h : Run (step cfg) (fun s e => soundNow s e = true) (.init table inode seq) s) :
    Run (step cfg) Sound (.init table inode seq) s :=
  h.strengthen (base_init cfg table inode seq)
    (fun _ _ _ hb _ hs => base_move hb (step_cases hs)) fun _ _ _ hb hn _ =>
    sound_of_soundNow hb hn

/-- Transaction `t` makes up to `n` steps, as long as they pass the test. -/
def resumed (cfg : Config) (ok : State → Event → Bool) (t : Sid) (n : Nat) (s : State) : State :=
  drive (step cfg) ok (turn cfg t) n s

/-- A request starts and makes up to `n` steps, as long as they pass the test. -/
def served (cfg : Config) (ok : State → Event → Bool) (t : Sid) (home : ServerId) (req : Request)
    (n : Nat) (s : State) : State :=
  resumed cfg ok t n (drive (step cfg) ok (fun _ => some (.start t home req)) 1 s)

theorem run_resumed (h : Run (step cfg) (fun s e => ok s e = true) s₀ s) (t : Sid) (n : Nat) :
    Run (step cfg) (fun s e => ok s e = true) s₀ (resumed cfg ok t n s) :=
  h.trans (run_drive _ _ _ _)

theorem run_served (h : Run (step cfg) (fun s e => ok s e = true) s₀ s) (t : Sid)
    (home : ServerId) (req : Request) (n : Nat) :
    Run (step cfg) (fun s e => ok s e = true) s₀ (served cfg ok t home req n s) :=
  run_resumed (h.trans (run_drive _ _ _ _)) t n

/-- The cluster with nothing but the root fits together. -/
theorem fits_freshCluster : Fits oneWorker (fun k => if k = rootKey then some 1 else none)
    (fun i => if i = 1 then insert rootKey (dirRow 1) ∅ else ∅) (fun _ => []) where
  names := by
    have hempty : DirTree fun _ => none :=
      ⟨fun _ _ _ hk => (by cases hk), fun _ hk => (by cases hk), fun _ _ hk => (by cases hk)⟩
    have hroot : (fun k => if k = rootKey then some 1 else none) =
        Function.update (fun _ => none) rootKey (some (1 : InodeId)) := by
      funext k
      simp [Function.update_apply]
    refine ⟨?_, fun w hw k => ?_⟩
    · rw [hroot]
      exact hempty.insert rfl (by simp) (by simp) .root
    · obtain rfl : w = 1 := by simpa [oneWorker] using hw
      by_cases hk : k = rootKey
      · subst hk
        simp only [if_true, lookup_insert]
        refine ⟨rfl, ?_, ?_, .inl rfl⟩
        · rw [InodeRow.entry_of_isDir (isDir_dirRow 1)]
          rfl
        · rw [if_pos (isDir_dirRow 1)]
          rfl
      · simp only [if_true, lookup_insert_ne hk, lookup_empty]
        exact fun _ => if_neg hk
  placed := by
    constructor
    · intro k id hk _
      by_contra hne
      simp [hne] at hk
    · intro k id hk
      split at hk <;> cases hk
      decide
  seq := by
    intro m hm hlt k hk
    dsimp only at hk
    split at hk
    · have hone : 1 = generateInodeId m cnServerId := Option.some.inj hk
      rw [generateInodeId_eq hlt] at hone
      replace hone : 1 = m * 4096 := hone
      omega
    · cases hk

/-- `mkdir /a`, and then `rename /a /b`. -/
def afterRename : State :=
  served oneWorker soundNow 2 cnServerId (.rename (pathTo 97) (pathTo 98)) 200
    (served oneWorker soundNow 1 cnServerId (.mkdir [pathTo 97]) 200 freshCluster)

theorem run_afterRename : Run (step oneWorker) Sound freshCluster afterRename :=
  run_sound (run_served (run_served .refl _ _ _ _) _ _ _ _)

/-! ## 6. The directory table -/

/-- **The directory table is a tree, on every server.**  Every id stands under one key, every parent
is 0 or has a row, the way up from every row ends at the row of the root, and there is no cycle. -/
theorem directory_table_is_tree {cfg : Config} {table : Key → Option InodeId}
    {inode : ServerId → InodeTable} {seq : ServerId → List Nat} (h₀ : Fits cfg table inode seq)
    {s : State} (h : Run (step cfg) Sound (.init table inode seq) s) {i : ServerId}
    (hi : i ∈ cfg.servers) :
    (∀ k k' id, (s.srv i).table k = some id → (s.srv i).table k' = some id → k = k') ∧
      (∀ k id, (s.srv i).table k = some id →
        k.parentId = 0 ∨ ∃ k', (s.srv i).table k' = some k.parentId) ∧
      (∀ k id, (s.srv i).table k = some id → Climbs Key.parentId (s.srv i).table rootKey k) ∧
      ∀ id, ¬ Relation.TransGen (Forest.Above Key.parentId (s.srv i).table) id id := by
  have hc := consistent_run h₀ h
  rw [hc.tables i hi]
  have htree := hc.names.tree
  exact ⟨htree.once, fun k id hk => htree.parent hk, fun k id hk => htree.climbs hc.placed.top hk,
    htree.acyclic⟩

set_option maxRecDepth 4000 in
theorem directory_table_is_tree_rename :
    (afterRename.srv 1).table (below 98) = some 4096 ∧
      (∀ k k' id, (afterRename.srv 1).table k = some id → (afterRename.srv 1).table k' = some id →
        k = k') ∧
      (∀ k id, (afterRename.srv 1).table k = some id →
        k.parentId = 0 ∨ ∃ k', (afterRename.srv 1).table k' = some k.parentId) ∧
      (∀ k id, (afterRename.srv 1).table k = some id →
        Climbs Key.parentId (afterRename.srv 1).table rootKey k) ∧
      ∀ id, ¬ Relation.TransGen (Forest.Above Key.parentId (afterRename.srv 1).table) id id :=
  ⟨by decide, directory_table_is_tree fits_freshCluster run_afterRename (by decide)⟩

/-- `rename /a /d` in session 2 has looked for `/a`, without a lock, when session 3 moves `/a` to
`/x` and session 4 makes another `/a`; then session 2 goes on. -/
def renamedTwice : State :=
  let s₂ := goOn oneWorker 2 8
    (started oneWorker 2 cnServerId (.rename (pathTo 97) (pathTo 100)) afterMkdir)
  let s₃ := goOn oneWorker 3 200
    (started oneWorker 3 cnServerId (.rename (pathTo 97) (pathTo 120)) s₂)
  let s₄ := goOn oneWorker 4 200 (started oneWorker 4 cnServerId (.mkdir [pathTo 97]) s₃)
  goOn oneWorker 2 200 s₄

set_option maxRecDepth 8000 in
/-- **Without the condition two directories have one id**: the second `/a` goes, `/d` gets the id of
the first, which is in use at `/x`. -/
theorem rename_installs_old_id :
    Fits oneWorker (fun k => if k = rootKey then some 1 else none)
        (fun i => if i = 1 then insert rootKey (dirRow 1) ∅ else ∅) (fun _ => []) ∧
      ∃ s, Reach (step oneWorker) freshCluster s ∧
        (s.srv cnServerId).table (below 100) = some 4096 ∧
        (s.srv cnServerId).table (below 120) = some 4096 := by
  refine ⟨fits_freshCluster, renamedTwice, ?_, by decide, by decide⟩
  refine .trans ?_ (reach_goOn oneWorker 2 200 _)
  exact reach_request (reach_request (reach_request reach_afterMkdir))

/-! ## 7. Entries and rows -/

/-- **The directory table and the inode rows agree.**  A key has an entry with an id if and only if
exactly one worker has a row under it, and that is the row of a directory with this id; the key of a
regular file has no entry. -/
theorem directory_entries_match_rows {cfg : Config} {table : Key → Option InodeId}
    {inode : ServerId → InodeTable} {seq : ServerId → List Nat} (h₀ : Fits cfg table inode seq)
    {s : State} (h : Run (step cfg) Sound (.init table inode seq) s) {i : ServerId}
    (hi : i ∈ cfg.servers) :
    (∀ k id, (s.srv i).table k = some id ↔
      ∃ w ∈ cfg.workers, ∃ r, lookup k (s.inode w) = some r ∧ r.isDir = true ∧
        r.stIno = id ∧ ∀ w' ∈ cfg.workers, w' ≠ w → lookup k (s.inode w') = none) ∧
      ∀ w ∈ cfg.workers, ∀ k r, lookup k (s.inode w) = some r → r.isReg = true →
        (s.srv i).table k = none := by
  have hc := consistent_run h₀ h
  rw [hc.tables i hi]
  have hrow : ∀ w ∈ cfg.workers, ∀ k r, lookup k (s.inode w) = some r →
      RowOk cfg (s.srv cnServerId).table w k (some r) := by
    intro w hw k r hr
    have hk := hc.names.rows w hw k
    rwa [hr] at hk
  refine ⟨fun k id => ⟨fun hk => ?_, ?_⟩, fun w hw k r hr hreg => ?_⟩
  · obtain ⟨r, hr, hd, hino⟩ := hc.names.row_of_entry hk
    refine ⟨cfg.owner k, cfg.owner_mem k, r, hr, hd, hino, fun w' hw' hne => ?_⟩
    exact (hc.names.rows w' hw').lookup_none (Ne.symm hne)
  · rintro ⟨w, hw, r, hr, hd, hino, _⟩
    rw [(hrow w hw k r hr).2.1, InodeRow.entry_of_isDir hd, hino]
  · rw [(hrow w hw k r hr).2.1, InodeRow.entry_of_not_isDir (isDir_of_isReg hreg)]

set_option maxRecDepth 4000 in
theorem directory_entries_match_rows_rename :
    (afterRename.srv 1).table (below 98) = some 4096 ∧
      (∀ k id, (afterRename.srv 1).table k = some id ↔
        ∃ w ∈ oneWorker.workers, ∃ r, lookup k (afterRename.inode w) = some r ∧
          r.isDir = true ∧ r.stIno = id ∧
          ∀ w' ∈ oneWorker.workers, w' ≠ w → lookup k (afterRename.inode w') = none) ∧
      ∀ w ∈ oneWorker.workers, ∀ k r, lookup k (afterRename.inode w) = some r →
        r.isReg = true → (afterRename.srv 1).table k = none :=
  ⟨by decide, directory_entries_match_rows fits_freshCluster run_afterRename (by decide)⟩

/-- `rename /a /b` in session 2 has looked for `/a` and found no directory when session 1 makes one;
then session 2 goes on, with the variant for files. -/
def renamedAsFile : State :=
  let s₂ := goOn oneWorker 2 12
    (started oneWorker 2 cnServerId (.rename (pathTo 97) (pathTo 98)) freshCluster)
  let s₁ := goOn oneWorker 1 200 (started oneWorker 1 cnServerId (.mkdir [pathTo 97]) s₂)
  goOn oneWorker 2 200 s₁

set_option maxRecDepth 8000 in
/-- **Without the condition the two tables part**: the entry stays at `/a`, the row of the
directory is at `/b`. -/
theorem file_rename_moves_directory :
    Fits oneWorker (fun k => if k = rootKey then some 1 else none)
        (fun i => if i = 1 then insert rootKey (dirRow 1) ∅ else ∅) (fun _ => []) ∧
      ∃ s, Reach (step oneWorker) freshCluster s ∧
        (s.srv cnServerId).table (below 97) = some 4096 ∧
        (∀ w ∈ oneWorker.workers, lookup (below 97) (s.inode w) = none) ∧
        (s.srv cnServerId).table (below 98) = none ∧
        lookup (below 98) (s.inode 1) = some (dirRow 4096) := by
  refine ⟨fits_freshCluster, renamedAsFile, ?_, by decide, by decide, by decide, by decide⟩
  refine .trans ?_ (reach_goOn oneWorker 2 200 _)
  exact reach_request (reach_request .refl)

/-! ## 8. Transactions beside each other -/

variable {x : Txn}

/-- **Repeatable reads, and no lost update.**  While a transaction is in flight, what it has looked
up under a lock is the committed value on all servers, and its inode writes have replaced the rows
that are there. -/
theorem reads_stand (h₀ : Fits cfg table inode seq)
    (h : Run (step cfg) Sound (.init table inode seq) s) (hx : s.txn t = some x) :
    (∀ i ∈ cfg.servers, ∀ k mode v, Saw (x.log i) k mode v → mode ≠ .none →
      ∀ j ∈ cfg.servers, (s.srv j).table k = v) ∧
      ∀ i, Chained (putsOf (x.log i)) (s.inode i) := by
  have hc := consistent_run h₀ h
  refine ⟨fun i hi k mode v hs hmode j hj => ?_, (hc.live.knows t x hx).puts⟩
  rw [hc.tables j hj]
  exact hc.saw hx hi hs hmode

/-- `mkdir /a` and `mkdir /b`, both shortly before their commit. -/
def beside : State :=
  served oneWorker soundNow 2 0 (.mkdir [pathTo 98]) 25
    (served oneWorker soundNow 1 0 (.mkdir [pathTo 97]) 27 freshCluster)

theorem run_beside : Run (step oneWorker) Sound freshCluster beside :=
  run_sound (run_served (run_served .refl _ _ _ _) _ _ _ _)

theorem txn_beside : beside.txn 1 = some ((beside.txn 1).get (by decide)) :=
  (Option.some_get _).symm

theorem reads_stand_mkdir : (beside.srv 1).table (below 97) = none :=
  (reads_stand fits_freshCluster run_beside txn_beside).1 0 (by decide) (below 97)
    .exclusive none (mem_of_getElem? (i := 3) rfl) (by decide) 1 (by decide)

end FalconFS.Cluster
