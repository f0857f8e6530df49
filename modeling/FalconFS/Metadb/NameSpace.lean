/-
# The name space: the directory table and the inode rows

The directory table and the inode tables of the workers describe one thing, the tree of
directories with the files in it.  `NameSpace` says what that means: the table is a tree, every
row stands on the worker that owns its key, a directory has a row and an entry with the same id, a
file has a row only, and whatever has a row is in a directory that exists.

A transaction changes both tables at once.  There is one theorem for each kind of change: the
requests to one worker, `mkdir`, `rmdir`, and the two variants of `rename`.  Each says what has to
be true of the tables at the commit; nothing here is about how a transaction comes to know it.
-/
import FalconFS.Lib.Forest
import FalconFS.Metadb.PutSpec

namespace FalconFS

open Function InodeRow List AList

open DirPathHash (applyWrites)
open Forest (Rooted)

/-! ## 1. What has to fit together -/

/-- The directory table is a tree; the root's parent is 0. -/
abbrev DirTree (T : Key → Option InodeId) : Prop := Forest.IsTree Key.parentId 0 T

/-- `p` is 0, or the id of a directory. -/
def DirExists (T : Key → Option InodeId) (p : InodeId) : Prop := p = 0 ∨ ∃ k, T k = some p

/-- The entry in the directory table that belongs to a row. -/
def InodeRow.entry (r : InodeRow) : Option InodeId := if r.isDir then some r.stIno else none

section

variable (cfg : Config) (T : Key → Option InodeId)

/-- What worker `w` has under key `k`. -/
def RowOk (w : ServerId) (k : Key) : Option InodeRow → Prop
  | none => cfg.owner k = w → T k = none
  | some r => cfg.owner k = w ∧ T k = r.entry ∧ r.stNlink = (if r.isDir then 2 else 1) ∧
      DirExists T k.parentId

def RowsOk (w : ServerId) (tbl : InodeTable) : Prop :=
  ∀ k, RowOk cfg T w k (lookup k tbl)

structure NameSpace (inode : ServerId → InodeTable) :
    Prop where
  tree : DirTree T
  rows : ∀ w ∈ cfg.workers, RowsOk cfg T w (inode w)

end

section RowOk

variable {cfg : Config} {T T' : Key → Option InodeId} {w : ServerId} {k : Key}

/-- A row that is left alone, and whose directory stays. -/
theorem RowOk.congr {o : Option InodeRow} (h : RowOk cfg T w k o)
    (hk : cfg.owner k = w → T' k = T k)
    (hup : ∀ r, o = some r → DirExists T k.parentId → DirExists T' k.parentId) :
    RowOk cfg T' w k o := by
  cases o with
  | none => exact fun ho => (hk ho).trans (h ho)
  | some r =>
    obtain ⟨ho, hT, hn, hp⟩ := h
    exact ⟨ho, (hk ho).trans hT, hn, hup r rfl hp⟩

theorem RowsOk.lookup_none {tbl : InodeTable} (h : RowsOk cfg T w tbl) (ho : cfg.owner k ≠ w) :
    lookup k tbl = none := by
  have hk := h k
  cases hr : lookup k tbl with
  | none => rfl
  | some r =>
    rw [hr] at hk
    exact absurd hk.1 ho

end RowOk

theorem InodeRow.entry_of_isDir {r : InodeRow} (h : r.isDir = true) : r.entry = some r.stIno :=
  if_pos h

theorem InodeRow.entry_of_not_isDir {r : InodeRow} (h : r.isDir = false) : r.entry = none :=
  if_neg (by simp [h])

section NameSpace

variable {cfg : Config} {T : Key → Option InodeId} {inode : ServerId → InodeTable}
  (h : NameSpace cfg T inode)

include h

/-- Every entry has its row, on the worker that owns the key. -/
theorem NameSpace.row_of_entry {k : Key} {id : InodeId} (hk : T k = some id) :
    ∃ r, lookup k (inode (cfg.owner k)) = some r ∧ r.isDir = true ∧ r.stIno = id := by
  have hrow := h.rows _ (cfg.owner_mem k) k
  cases hr : lookup k (inode (cfg.owner k)) with
  | none =>
    rw [hr] at hrow
    rw [hrow rfl] at hk
    cases hk
  | some r =>
    rw [hr] at hrow
    obtain ⟨_, hT, _⟩ := hrow
    rw [hk] at hT
    cases hd : r.isDir with
    | true =>
      rw [entry_of_isDir hd] at hT
      exact ⟨r, rfl, hd, (Option.some.inj hT).symm⟩
    | false =>
      rw [entry_of_not_isDir hd] at hT
      cases hT

end NameSpace

/-! ## 2. Requests to one worker -/

theorem isDir_of_isReg {r : InodeRow} (h : r.isReg = true) : r.isDir = false := by
  have hmode : r.stMode &&& sIfmt = sIfreg := by simpa [isReg, sIsreg] using h
  have hne : (r.stMode &&& sIfmt == sIfdir) = false := by
    rw [hmode]
    decide
  exact hne

section Local

variable {cfg : Config} {T : Key → Option InodeId} {w : ServerId} {h : List Entry}

theorem LocalPut.rowOk {q : Put} (hq : LocalPut h q) (hold : RowOk cfg T w q.key q.old)
    (howner : q.old = none → cfg.owner q.key = w)
    (hdir : ∀ p, SharedChain h p → DirExists T p) : RowOk cfg T w q.key q.new := by
  cases hq with
  | create k r hd hn hp =>
    have ho := howner rfl
    refine ⟨ho, ?_, by simp [hd, hn], hdir _ hp⟩
    rw [entry_of_not_isDir hd]
    exact hold ho
  | unlink k r hn =>
    obtain ⟨ho, hT, hlink, _⟩ := hold
    intro _
    -- a directory has two links, and would have kept one
    cases hd : r.isDir with
    | false =>
      rw [entry_of_not_isDir hd] at hT
      exact hT
    | true =>
      simp only [hd, if_true] at hlink
      rw [hlink] at hn
      exact absurd hn (by decide)
  | decrement k r r' hr hn =>
    obtain ⟨_, _, hlink, _⟩ := hold
    have hd := isDir_of_isReg hr
    simp only [hd] at hlink
    rw [hlink] at hn
    exact absurd (by decide) hn
  | update k r r' hi hm hn =>
    obtain ⟨ho, hT, hlink, hp⟩ := hold
    have hd : r'.isDir = r.isDir := by simp [isDir, hm]
    refine ⟨ho, ?_, ?_, hp⟩
    · rw [hT]
      simp [entry, hd, hi]
    · rw [hn, hlink, hd]

/-- **The writes of a request to one worker**, one after the other. -/
theorem rowsOk_local (hdir : ∀ p, SharedChain h p → DirExists T p) {tbl : InodeTable}
    (hrows : RowsOk cfg T w tbl) {puts : List Put} (hc : Chained puts tbl)
    (hp : ∀ q ∈ puts, LocalPut h q ∧ (q.old = none → cfg.owner q.key = w)) :
    RowsOk cfg T w (applyPuts puts tbl) := by
  induction puts with
  | nil => exact hrows
  | cons q puts ih =>
    have hbelow := ih hc.2 fun q' hq' => hp q' (mem_cons_of_mem _ hq')
    obtain ⟨hq, howner⟩ := hp q mem_cons_self
    intro k
    rw [lookup_applyPuts_cons]
    split
    · rename_i hk
      subst hk
      refine hq.rowOk ?_ howner hdir
      rw [hc.1]
      exact hbelow q.key
    · exact hbelow k

end Local

/-! ## 3. `mkdir` -/

section Mkdir

variable {cfg : Config} {T : Key → Option InodeId} {es : List DirEntry}

theorem applyWrites_cons (k : Key) (v : Option InodeId) (W : List (Key × Option InodeId))
    (T : Key → Option InodeId) : applyWrites ((k, v) :: W) T = update (applyWrites W T) k v := by
  funext k'
  by_cases hk : k' = k
  · subst hk
    simp [applyWrites]
  · have hbeq : (k' == k) = false := by simpa using hk
    simp [applyWrites, lookup_cons, hbeq, update_of_ne hk]

theorem applyWrites_nil (T : Key → Option InodeId) : applyWrites [] T = T := rfl

/-- One directory after the other. -/
theorem applyWrites_entryWrites_snoc (es : List DirEntry) (e : DirEntry)
    (T : Key → Option InodeId) :
    applyWrites (entryWrites (es ++ [e])) T =
      update (applyWrites (entryWrites es) T) e.key (some e.inodeId) := by
  simp only [entryWrites, map_append, map_cons, map_nil, reverse_append,
    reverse_cons, reverse_nil, nil_append, cons_append]
  exact applyWrites_cons _ _ _ _

/-- New directories: free keys, fresh ids, and parents that exist or come earlier in the list. -/
structure NewDirs (T : Key → Option InodeId) (es : List DirEntry) : Prop where
  free : ∀ e ∈ es, T e.key = none
  keys : es.Pairwise fun e e' => e.key ≠ e'.key
  fresh : ∀ e ∈ es, e.inodeId ≠ 0 ∧ ∀ k, T k ≠ some e.inodeId
  ids : es.Pairwise fun e e' => e.inodeId ≠ e'.inodeId
  parents : ∀ l₁ e l₂, es = l₁ ++ e :: l₂ →
    DirExists T e.key.parentId ∨ ∃ k, ⟨k, e.key.parentId⟩ ∈ l₁

theorem NewDirs.init {e : DirEntry} (h : NewDirs T (es ++ [e])) : NewDirs T es where
  free e' he' := h.free e' (mem_append_left _ he')
  keys := (pairwise_append.mp h.keys).1
  fresh e' he' := h.fresh e' (mem_append_left _ he')
  ids := (pairwise_append.mp h.ids).1
  parents l₁ e' l₂ heq := h.parents l₁ e' (l₂ ++ [e]) (by simp [heq])

/-- The entries of the new table. -/
theorem NewDirs.entry_iff (h : NewDirs T es) (k : Key) (id : InodeId) :
    applyWrites (entryWrites es) T k = some id ↔ T k = some id ∨ ⟨k, id⟩ ∈ es := by
  induction es using reverseRecOn with
  | nil => simp [entryWrites, applyWrites_nil]
  | append_singleton es e ih =>
    rw [applyWrites_entryWrites_snoc, mem_append, mem_singleton]
    have hlast := (pairwise_append.mp h.keys).2.2
    by_cases hk : k = e.key
    · subst hk
      rw [update_self, h.free e (by simp)]
      constructor
      · intro hid
        cases hid
        exact .inr (.inr rfl)
      · rintro (hno | hmem | heq)
        · cases hno
        · exact absurd rfl (hlast _ hmem e (by simp))
        · rw [← heq]
    · rw [update_of_ne hk, ih h.init]
      have hne : (⟨k, id⟩ : DirEntry) ≠ e := fun heq => hk (by rw [← heq])
      simp [hne]

theorem NewDirs.entry_none (h : NewDirs T es) {k : Key} (hk : T k = none)
    (hes : ∀ e ∈ es, e.key ≠ k) : applyWrites (entryWrites es) T k = none := by
  cases hv : applyWrites (entryWrites es) T k with
  | none => rfl
  | some id =>
    rcases (h.entry_iff k id).mp hv with hT | hmem
    · rw [hk] at hT
      cases hT
    · exact absurd rfl (hes _ hmem)

theorem NewDirs.exists_mono (h : NewDirs T es) {p : InodeId} (hp : DirExists T p) :
    DirExists (applyWrites (entryWrites es) T) p := by
  rcases hp with rfl | ⟨k, hk⟩
  · exact .inl rfl
  · exact .inr ⟨k, (h.entry_iff k p).mpr (.inl hk)⟩

/-- **New directories leave a tree**, each below one that is there when its turn comes. -/
theorem NewDirs.tree (h : NewDirs T es) (ht : DirTree T) :
    DirTree (applyWrites (entryWrites es) T) := by
  induction es using reverseRecOn with
  | nil => exact ht
  | append_singleton es e ih =>
    have hinit := h.init
    have htree := ih hinit
    rw [applyWrites_entryWrites_snoc]
    obtain ⟨hpos, hunused⟩ := h.fresh e (by simp)
    refine htree.insert ?_ ?_ hpos ?_
    · exact hinit.entry_none (h.free e (by simp)) fun e' he' =>
        (pairwise_append.mp h.keys).2.2 e' he' e (by simp)
    · intro k hk
      rcases (hinit.entry_iff k _).mp hk with hT | hmem
      · exact hunused k hT
      · exact absurd rfl ((pairwise_append.mp h.ids).2.2 _ hmem e (by simp))
    · refine htree.rooted_of_exists ?_
      rcases h.parents es e [] rfl with hp | ⟨k, hk⟩
      · exact hinit.exists_mono hp
      · exact .inr ⟨k, (hinit.entry_iff k _).mpr (.inr hk)⟩

end Mkdir

/-! ### The rows of new directories -/

/-- Writes under free keys concern different keys, none of which has a committed row. -/
theorem Chained.inserts {puts : List Put} {tbl : InodeTable} (h : Chained puts tbl)
    (hp : ∀ q ∈ puts, q.old = none ∧ q.new ≠ none) :
    puts.Pairwise (fun q q' => q.key ≠ q'.key) ∧
      ∀ q ∈ puts, lookup q.key (applyPuts puts tbl) = q.new := by
  induction puts with
  | nil => exact ⟨.nil, fun _ hq => absurd hq not_mem_nil⟩
  | cons q puts ih =>
    obtain ⟨hpair, hval⟩ := ih h.2 fun q' hq' => hp q' (mem_cons_of_mem _ hq')
    have hne : ∀ q' ∈ puts, q.key ≠ q'.key := by
      intro q' hq' heq
      have hnone : lookup q.key (applyPuts puts tbl) = none := by
        rw [← h.1]
        exact (hp q mem_cons_self).1
      rw [heq, hval q' hq'] at hnone
      exact (hp q' (mem_cons_of_mem _ hq')).2 hnone
    refine ⟨.cons hne hpair, fun q' hq' => ?_⟩
    rw [lookup_applyPuts_cons]
    rcases mem_cons.mp hq' with rfl | hq'
    · rw [if_pos rfl]
    · rw [if_neg (Ne.symm (hne q' hq'))]
      exact hval q' hq'

theorem mem_dirPuts {es : List DirEntry} {q : Put} :
    q ∈ dirPuts es ↔ ∃ e ∈ es, q = ⟨e.key, none, some (dirRow e.inodeId)⟩ := by
  simp only [dirPuts, mem_reverse, mem_map]
  constructor
  · rintro ⟨e, he, rfl⟩
    exact ⟨e, he, rfl⟩
  · rintro ⟨e, he, rfl⟩
    exact ⟨e, he, rfl⟩

/-- The directories whose rows are on worker `w`, in the order in which it inserts them. -/
def ownEntries (cfg : Config) (es : List DirEntry) (w : ServerId) : List DirEntry :=
  byShard cfg (·.key) (es.filter fun e => cfg.owner e.key = w)

section Rows

variable {cfg : Config} {es : List DirEntry} {w : ServerId}

theorem mem_ownEntries {e : DirEntry} : e ∈ ownEntries cfg es w ↔ e ∈ es ∧ cfg.owner e.key = w := by
  constructor
  · intro he
    simpa using mem_filter.mp (mem_byShard he)
  · rintro ⟨he, ho⟩
    refine mem_flatMap.mpr ⟨cfg.shard e.key, cfg.shard_mem _, ?_⟩
    simp [he, ho]

/-- Two entries with one key are on one worker and in one shard, so they would meet there. -/
theorem sublist_ownEntries {e e' : DirEntry} (hs : [e, e'].Sublist es) (hk : e.key = e'.key) :
    [e, e'].Sublist (ownEntries cfg es (cfg.owner e.key)) := by
  have hown : [e, e'].Sublist (es.filter fun a => cfg.owner a.key = cfg.owner e.key) := by
    simpa [hk] using hs.filter fun a => decide (cfg.owner a.key = cfg.owner e.key)
  have hshard : [e, e'].Sublist ((es.filter fun a => cfg.owner a.key = cfg.owner e.key).filter
      fun a => cfg.shard a.key = cfg.shard e.key) := by
    simpa [hk] using hown.filter fun a => decide (cfg.shard a.key = cfg.shard e.key)
  refine hshard.trans ?_
  exact sublist_flatten_of_mem (mem_map_of_mem (cfg.shard_mem e.key))

/-- **The keys of a batch that has inserted its rows are different.** -/
theorem keys_of_chained {inode : ServerId → InodeTable}
    (hc : ∀ w ∈ cfg.workers, Chained (dirPuts (ownEntries cfg es w)) (inode w)) :
    es.Pairwise fun e e' => e.key ≠ e'.key := by
  rw [pairwise_iff_forall_sublist]
  intro e e' hs hk
  have hpair := ((hc _ (cfg.owner_mem e.key)).inserts fun q hq => by
    obtain ⟨_, _, rfl⟩ := mem_dirPuts.mp hq
    simp).1
  rw [dirPuts, pairwise_reverse, pairwise_map] at hpair
  exact (pairwise_iff_forall_sublist.mp hpair (sublist_ownEntries hs hk)) hk.symm

end Rows

variable {cfg : Config} {T : Key → Option InodeId} {inode inode' : ServerId → InodeTable}

/-- **`mkdir`.** -/
theorem NameSpace.mkdir {es : List DirEntry} (h : NameSpace cfg T inode) (hes : NewDirs T es)
    (hc : ∀ w ∈ cfg.workers, Chained (dirPuts (ownEntries cfg es w)) (inode w))
    (hrows : ∀ w ∈ cfg.workers, inode' w = applyPuts (dirPuts (ownEntries cfg es w)) (inode w)) :
    NameSpace cfg (applyWrites (entryWrites es) T) inode' := by
  have htree := hes.tree h.tree
  refine ⟨htree, fun w hw k => ?_⟩
  rw [hrows w hw]
  by_cases hk : ∃ e ∈ ownEntries cfg es w, e.key = k
  · obtain ⟨e, he, rfl⟩ := hk
    have hval := ((hc w hw).inserts fun q hq => by
      obtain ⟨_, _, rfl⟩ := mem_dirPuts.mp hq
      simp).2 _ (mem_dirPuts.mpr ⟨e, he, rfl⟩)
    obtain ⟨hmem, ho⟩ := mem_ownEntries.mp he
    have hT : applyWrites (entryWrites es) T e.key = some e.inodeId :=
      (hes.entry_iff _ _).mpr (.inr hmem)
    rw [hval]
    refine ⟨ho, ?_, ?_, htree.parent hT⟩
    · rw [hT, entry_of_isDir (isDir_dirRow _)]
      rfl
    · rw [if_pos (isDir_dirRow _)]
      rfl
  · have hno : ∀ q ∈ dirPuts (ownEntries cfg es w), q.key ≠ k := by
      intro q hq hqk
      obtain ⟨e, he, rfl⟩ := mem_dirPuts.mp hq
      exact hk ⟨e, he, hqk⟩
    rw [lookup_applyPuts_of_not_mem _ hno]
    refine (h.rows w hw k).congr (fun ho => ?_) fun _ _ hp => hes.exists_mono hp
    have hnew : ∀ e ∈ es, e.key ≠ k := fun e he hek =>
      hk ⟨e, mem_ownEntries.mpr ⟨he, hek ▸ ho⟩, hek⟩
    cases hT : T k with
    | none => exact hes.entry_none hT hnew
    | some id => exact (hes.entry_iff k id).mpr (.inl hT)

/-! ## 4. `rmdir` -/

/-- **`rmdir`**, of a directory without rows below it. -/
theorem NameSpace.rmdir (h : NameSpace cfg T inode) {k : Key} {id : InodeId} (hk : T k = some id)
    (hempty : ∀ k', k'.parentId = id → lookup k' (inode (cfg.owner k')) = none)
    (hrows : ∀ w ∈ cfg.workers, ∀ k', lookup k' (inode' w) =
      if k' = k ∧ cfg.owner k = w then none else lookup k' (inode w)) :
    NameSpace cfg (applyWrites [(k, none)] T) inode' := by
  rw [applyWrites_cons, applyWrites_nil]
  have hleaf : ∀ k' q, T k' = some q → k'.parentId ≠ id := by
    intro k' q hk' hp
    obtain ⟨r, hr, _⟩ := h.row_of_entry hk'
    rw [hempty k' hp] at hr
    cases hr
  refine ⟨h.tree.erase hk hleaf, fun w hw k' => ?_⟩
  rw [hrows w hw k']
  split
  · rename_i hkk
    rw [hkk.1]
    exact fun _ => update_self ..
  · rename_i hkk
    refine (h.rows w hw k').congr (fun ho => ?_) fun r hr hp => ?_
    · have hne : k' ≠ k := fun heq => hkk ⟨heq, heq ▸ ho⟩
      rw [update_of_ne hne]
    · -- the directory of a row that stays is not the one that goes
      have hrow := h.rows w hw k'
      rw [hr] at hrow
      rcases hp with hp | ⟨k₀, hk₀⟩
      · exact .inl hp
      · refine .inr ⟨k₀, ?_⟩
        have hne : k₀ ≠ k := by
          rintro rfl
          rw [hk] at hk₀
          have hnone := hempty k' (Option.some.inj hk₀).symm
          rw [hrow.1, hr] at hnone
          cases hnone
        rw [update_of_ne hne]
        exact hk₀

/-! ## 5. `rename` -/

section Rename

variable {cfg : Config} {T : Key → Option InodeId} {inode inode' : ServerId → InodeTable}
  (h : NameSpace cfg T inode) {src dst : Key} {r : InodeRow}
  (hr : lookup src (inode (cfg.owner src)) = some r)
  (hrows : ∀ w ∈ cfg.workers, ∀ k, lookup k (inode' w) =
    if k = dst ∧ cfg.owner dst = w then some r
    else if k = src ∧ cfg.owner src = w then none else lookup k (inode w))

include h hr hrows

/-- **`rename` of a directory**: the subtree moves, and the row with it. -/
theorem NameSpace.renameDirectory {id : InodeId} (hsrc : T src = some id) (hdst : T dst = none)
    (hup : Rooted Key.parentId 0 (update T src none) dst.parentId) :
    NameSpace cfg (applyWrites [(dst, some id), (src, none)] T) inode' := by
  rw [applyWrites_cons, applyWrites_cons, applyWrites_nil]
  have htree := h.tree.move hsrc hdst hup
  obtain ⟨r', hr', hdir, hino⟩ := h.row_of_entry hsrc
  rw [hr] at hr'
  cases hr'
  have hrow := h.rows _ (cfg.owner_mem src) src
  rw [hr] at hrow
  -- directories stay, under their old key or the new one
  have hstay : ∀ p, DirExists T p →
      DirExists (update (update T src none) dst (some id)) p := by
    rintro p (hp | ⟨k, hk⟩)
    · exact .inl hp
    · by_cases hks : k = src
      · subst hks
        rw [hsrc] at hk
        exact .inr ⟨dst, by rw [update_self, hk]⟩
      · have hkd : k ≠ dst := by
          rintro rfl
          rw [hdst] at hk
          cases hk
        exact .inr ⟨k, by rw [update_of_ne hkd, update_of_ne hks, hk]⟩
  refine ⟨htree, fun w hw k => ?_⟩
  rw [hrows w hw k]
  split
  · rename_i hkd
    obtain ⟨rfl, ho⟩ := hkd
    refine ⟨ho, ?_, hrow.2.2.1, htree.parent (update_self ..)⟩
    rw [update_self, entry_of_isDir hdir, hino]
  · rename_i hkd
    split
    · rename_i hks
      obtain ⟨rfl, ho⟩ := hks
      intro _
      have hne : k ≠ dst := by
        rintro rfl
        rw [hdst] at hsrc
        cases hsrc
      rw [update_of_ne hne, update_self]
    · rename_i hks
      refine (h.rows w hw k).congr (fun ho => ?_) fun _ _ => hstay _
      have hne : k ≠ dst := fun heq => hkd ⟨heq, heq ▸ ho⟩
      have hns : k ≠ src := fun heq => hks ⟨heq, heq ▸ ho⟩
      rw [update_of_ne hne, update_of_ne hns]

/-- **`rename` of a file**: only the row moves. -/
theorem NameSpace.renameFile (hsrc : T src = none) (hdst : T dst = none)
    (hup : DirExists T dst.parentId) : NameSpace cfg T inode' := by
  have hrow := h.rows _ (cfg.owner_mem src) src
  rw [hr] at hrow
  obtain ⟨_, hT, hlink, _⟩ := hrow
  rw [hsrc] at hT
  refine ⟨h.tree, fun w hw k => ?_⟩
  rw [hrows w hw k]
  split
  · rename_i hkd
    obtain ⟨rfl, ho⟩ := hkd
    exact ⟨ho, hdst.trans hT, hlink, hup⟩
  · split
    · rename_i hks
      obtain ⟨rfl, _⟩ := hks
      exact fun _ => hsrc
    · exact h.rows w hw k

end Rename

end FalconFS
