/-
# The effects of the handlers

For every handler, what its transaction has done by the time it returns, as far as other servers
and the commit are concerned: its directory-table writes, its inode writes, the commands it has
sent, and the lookups that justify them.  `SubEffect` says it for a command on a worker,
`MainEffect` for a request.

Nothing here depends on what the operations return, or on other transactions: these are facts about
the programs alone.
-/
import FalconFS.Metadb.ParseSpec

namespace FalconFS

open List Prog

/-! ## 1. The effects -/

/-- The writes for new directories, in the order of the list (a history has its newest write
first). -/
def entryWrites (es : List DirEntry) : List (Key × Option InodeId) :=
  (es.map fun e => (e.key, some e.inodeId)).reverse

/-- The directory writes of a rename on a worker. -/
def renameWrites (p : RenameParam) : List (Key × Option InodeId) :=
  if p.targetIsDirectory then
    if p.srcLockOrder = 0 then [(p.dst, some p.inodeId), (p.src, none)]
    else [(p.src, none), (p.dst, some p.inodeId)]
  else []

def dirPuts (es : List DirEntry) : List Put :=
  (es.map fun e => ⟨e.key, none, some (dirRow e.inodeId)⟩ : List Put).reverse

/-- A command, its reply, its directory writes and its inode writes; `h` is the worker's history. -/
inductive SubEffect (cfg : Config) (i : ServerId) (h : List Entry) :
    SubRequest → SubReply → List (Key × Option InodeId) → List Put → Prop
  | mkdirSubMkdir (es : List DirEntry) :
      SubEffect cfg i h (.mkdirSubMkdir es) .done (entryWrites es) []
  | mkdirSubCreate (es : List DirEntry) (ho : ∀ e ∈ es, cfg.owner e.key = i) :
      SubEffect cfg i h (.mkdirSubCreate es) .done [] (dirPuts (byShard cfg (·.key) es))
  | rmdirSubRmdir (k : Key) (id : InodeId) (hs : Saw h k .exclusive (some id))
      (hscan : ∀ n ∈ cfg.localShards i, (⟨.inode (.scan n id), false⟩ : Entry) ∈ h) :
      SubEffect cfg i h (.rmdirSubRmdir k) .done [(k, none)] []
  | rmdirSubUnlink (k : Key) (r : InodeRow) (hn : r.stNlink = 2) :
      SubEffect cfg i h (.rmdirSubUnlink k) .done [] [⟨k, some r, none⟩]
  | renameOther (p : RenameParam) (hsrc : p.parentIdPartId = 0) :
      SubEffect cfg i h (.renameSubRenameLocally p) .done (renameWrites p) []
  | renameAway (p : RenameParam) (r : InodeRow) (hsrc : p.parentIdPartId ≠ 0)
      (hdst : p.dstParentIdPartId = 0) :
      SubEffect cfg i h (.renameSubRenameLocally p) (.row r) (renameWrites p)
        [⟨p.src, some r, none⟩]
  | renameHere (p : RenameParam) (r : InodeRow) (hsrc : p.parentIdPartId ≠ 0)
      (hdst : p.dstParentIdPartId ≠ 0) :
      SubEffect cfg i h (.renameSubRenameLocally p) .done (renameWrites p)
        [⟨p.dst, none, some r⟩, ⟨p.src, some r, none⟩]
  | renameSubCreate (k : Key) (row : InodeRow) :
      SubEffect cfg i h (.renameSubCreate k row) .done [] [⟨k, none, some row⟩]

variable {cfg : Config} {i : ServerId} {h h' : List Entry} {W : List (Key × Option InodeId)}
  {P : List Put}

theorem SubEffect.mono {c : SubRequest} {r : SubReply} (he : SubEffect cfg i h c r W P)
    (hs : h <:+ h') : SubEffect cfg i h' c r W P := by
  cases he with
  | mkdirSubMkdir => exact .mkdirSubMkdir _
  | mkdirSubCreate _ ho => exact .mkdirSubCreate _ ho
  | rmdirSubRmdir k id hk hscan =>
    exact .rmdirSubRmdir k id (hs.subset hk) fun n hn => hs.subset (hscan n hn)
  | rmdirSubUnlink k r hn => exact .rmdirSubUnlink k r hn
  | renameOther _ hsrc => exact .renameOther _ hsrc
  | renameAway _ r hsrc hdst => exact .renameAway _ r hsrc hdst
  | renameHere _ r hsrc hdst => exact .renameHere _ r hsrc hdst
  | renameSubCreate => exact .renameSubCreate _ _

/-- The effects of a pipeline of commands, oldest first. -/
inductive SubEffects (cfg : Config) (i : ServerId) (h : List Entry) :
    List SubRequest → List SubReply → List (Key × Option InodeId) → List Put → Prop
  | nil : SubEffects cfg i h [] [] [] []
  | snoc {cs : List SubRequest} {rs : List SubReply} {W dW : List (Key × Option InodeId)}
      {P dP : List Put} {c : SubRequest} {r : SubReply} (hi : SubEffects cfg i h cs rs W P)
      (hl : SubEffect cfg i h c r dW dP) :
      SubEffects cfg i h (cs ++ [c]) (rs ++ [r]) (dW ++ W) (dP ++ P)

theorem SubEffects.mono {cs : List SubRequest} {rs : List SubReply}
    (he : SubEffects cfg i h cs rs W P) (hs : h <:+ h') : SubEffects cfg i h' cs rs W P := by
  induction he with
  | nil => exact .nil
  | snoc _ hl ih => exact .snoc ih (hl.mono hs)

/-- A worker that has executed `cs` with replies `rs`. -/
def SubDone (cfg : Config) (i : ServerId) (cs : List SubRequest) (rs : List SubReply)
    (h : List Entry) : Prop :=
  SubEffects cfg i h cs rs (writesOf h) (putsOf h)

/-- An inode write of a request to the worker itself. -/
inductive LocalPut (h : List Entry) : Put → Prop
  | create (k : Key) (r : InodeRow) (hd : r.isDir = false) (hn : r.stNlink = 1)
      (hp : SharedChain h k.parentId) : LocalPut h ⟨k, none, some r⟩
  | unlink (k : Key) (r : InodeRow) (hn : addNlink r.stNlink (-1) = 0) :
      LocalPut h ⟨k, some r, none⟩
  | decrement (k : Key) (r r' : InodeRow) (hr : r.isReg = true)
      (hn : addNlink r.stNlink (-1) ≠ 0) : LocalPut h ⟨k, some r, some r'⟩
  | update (k : Key) (r r' : InodeRow) (hi : r'.stIno = r.stIno) (hm : r'.stMode = r.stMode)
      (hn : r'.stNlink = r.stNlink) : LocalPut h ⟨k, some r, some r'⟩

theorem LocalPut.mono {p : Put} (hp : LocalPut h p) (hs : h <:+ h') : LocalPut h' p := by
  cases hp with
  | create k r hd hn hp => exact .create k r hd hn (hp.mono hs)
  | unlink k r hn => exact .unlink k r hn
  | decrement k r r' hr hn => exact .decrement k r r' hr hn
  | update k r r' hi hm hn => exact .update k r r' hi hm hn

/-- The new directories of a batch: each key was looked up under an exclusive lock and not found,
and is the root's, or its parent is locked or comes earlier in the batch. -/
def MkdirOk (h : List Entry) (es : List DirEntry) : Prop :=
  ∀ l₁ e l₂, es = l₁ ++ e :: l₂ →
    Saw h e.key .exclusive none ∧ (e.key = rootKey ∨ ParentOk true h l₁ e.key.parentId)

/-- What a request has done when its handler returns; `h` is the history at its home server. -/
inductive MainEffect (cfg : Config) (i : ServerId) (h : List Entry) : Prop
  | locally (hw : writesOf h = []) (hs : sentOf h = []) (hp : ∀ p ∈ putsOf h, LocalPut h p)
  | mkdir (es : List DirEntry) (hi : i = cnServerId) (hw : writesOf h = entryWrites es)
      (hp : putsOf h = []) (hs : sentOf h = if es = [] then [] else mkdirCommands cfg es)
      (hes : MkdirOk h es) (hids : (es.map (·.inodeId)).reverse.Sublist (idsOf h))
  | rmdir (k : Key) (id : InodeId) (hi : i = cnServerId) (hw : writesOf h = [(k, none)])
      (hp : putsOf h = []) (hs : sentOf h = rmdirCommands cfg k)
      (hk : Saw h k .exclusive (some id))
  | rename (p : RenameParam) (second : List (ServerId × SubRequest)) (hi : i = cnServerId)
      (hw : writesOf h =
        if p.targetIsDirectory then [(p.dst, some p.inodeId), (p.src, none)] else [])
      (hp : putsOf h = []) (hs : sentOf h = renameCommands cfg p ++ second)
      (hfrom : ∃ k, Saw h k .shared (some p.src.parentId))
      (hup : SharedChain h p.dst.parentId)
      (hdir : p.targetIsDirectory = true →
        (∃ id, Saw h p.src .exclusive (some id)) ∧ Saw h p.dst .exclusive none)
      (hsame : cfg.owner p.src = cfg.owner p.dst → second = [])
      (hother : cfg.owner p.src ≠ cfg.owner p.dst → ∃ a rs,
        second = [(cfg.owner p.dst, .renameSubCreate p.dst (a.rowOr cfg.unset))] ∧
        repliesOf (cfg.owner p.src) h = a :: rs)

/-! ## 2. Reading inode writes from a history -/

/-- The inode writes after an operation that is not on a subtransaction. -/
theorem putsOf_inode {o : InodeOp} {r : o.Res} (hb : o ≠ .beginSub) (hr : o ≠ .rollbackSub) :
    putsOf (⟨.inode o, r⟩ :: h) = o.puts r ++ putsOf h := by
  cases o <;> first | rfl | exact absurd rfl hb | exact absurd rfl hr

/-! ## 3. The commands -/

section Sub

variable {N : Key → Prop} {cfg : Config} {i : ServerId} {cmds : List SubRequest} {h : List Entry}

/-- The effect of one command, relative to the history at its start. -/
structure SubPost (cfg : Config) (i : ServerId) (c : SubRequest) (h h' : List Entry)
    (r : SubReply) : Prop where
  suffix : h <:+ h'
  effect : ∃ dW dP, SubEffect cfg i h' c r dW dP ∧ writesOf h' = dW ++ writesOf h ∧
    putsOf h' = dP ++ putsOf h

theorem safe_deleteDir {α : Type} {Q : List Entry → α → Prop} {k : Key} {mode : DirLockMode}
    {f : Unit → Handler α} (hok : OpOkIn N cfg i cmds h (.hash .delete k mode))
    (hf : ∀ r, Safe (OpOkIn N cfg i cmds) Q (⟨.hash .delete k mode, r⟩ :: h) (f ())) :
    Safe (OpOkIn N cfg i cmds) Q h (Handler.deleteDir k mode >>= f) := ⟨hok, hf⟩

/-- An insert that goes on only if the key was free. -/
theorem safe_insertInode {Q : List Entry → Unit → Prop} {k : Key} {row : InodeRow}
    (hok : cfg.owner k = i) (hN : N k) (hf : Q (⟨.inode (.insert k row), true⟩ :: h) ()) :
    Safe (OpOkIn N cfg i cmds) Q h (insertInode k row) := by
  refine ⟨⟨hok, hN⟩, fun r => ?_⟩
  cases r with
  | false => trivial
  | true => exact hf

theorem safe_mkdirSubMkdir {es : List DirEntry} (hN : ∀ e ∈ es, N e.key) :
    Safe (OpOkIn N cfg i cmds) (SubPost cfg i (.mkdirSubMkdir es) h) h
      (falconMkdirSubMkdirHandle es) := by
  rw [falconMkdirSubMkdirHandle]
  -- the entries before the rest `l` have been inserted
  refine (safe_forM (fun l h' => ∃ done, es = done ++ l ∧ h <:+ h' ∧
    writesOf h' = entryWrites done ++ writesOf h ∧ putsOf h' = putsOf h) ?_ es h
    ⟨[], rfl, suffix_refl _, rfl, rfl⟩).seq fun h' _ _ hi => ?_
  · rintro e l h₁ ⟨done, rfl, hs, hw, hp⟩
    refine ⟨⟨.inr (.inl rfl), fun _ _ => hN e (by simp)⟩, fun r =>
      ⟨done ++ [e], by simp, hs.trans (suffix_cons _ _), ?_, hp⟩⟩
    simp [hw, entryWrites, ServerOp.writes]
  · obtain ⟨done, hdone, hs, hw, hp⟩ := hi
    rw [append_nil] at hdone
    subst hdone
    exact ⟨hs, _, _, .mkdirSubMkdir es, hw, hp⟩

theorem mem_byShard {α : Type} {key : α → Key} {items : List α} {a : α}
    (ha : a ∈ byShard cfg key items) : a ∈ items := by
  obtain ⟨n, -, ha⟩ := mem_flatMap.mp ha
  exact (mem_filter.mp ha).1

theorem safe_mkdirSubCreate {es : List DirEntry} (hN : ∀ e ∈ es, N e.key) :
    Safe (OpOkIn N cfg i cmds) (SubPost cfg i (.mkdirSubCreate es) h) h
      (falconMkdirSubCreateHandle cfg i es) := by
  rw [falconMkdirSubCreateHandle]
  split
  · trivial
  · rename_i hall
    have howner : ∀ e ∈ es, cfg.owner e.key = i := by
      intro e he
      by_contra hne
      exact hall (any_eq_true.mpr ⟨e, he, by simpa using hne⟩)
    refine (safe_forM (fun l h' => ∃ done, byShard cfg (·.key) es = done ++ l ∧ h <:+ h' ∧
      writesOf h' = writesOf h ∧ putsOf h' = dirPuts done ++ putsOf h) ?_ _ h
      ⟨[], rfl, suffix_refl _, rfl, rfl⟩).seq fun h' _ _ hi => ?_
    · rintro e l h₁ ⟨done, hdone, hs, hw, hp⟩
      have he : e ∈ es := mem_byShard (by rw [hdone]; simp)
      refine safe_insertInode (howner e he) (hN e he) ?_
      refine ⟨done ++ [e], by simp [hdone], hs.trans (suffix_cons _ _), hw, ?_⟩
      rw [putsOf_inode (by simp) (by simp), hp]
      simp [InodeOp.puts, dirPuts]
    · obtain ⟨done, hdone, hs, hw, hp⟩ := hi
      rw [append_nil] at hdone
      rw [← hdone] at hp
      exact ⟨hs, _, _, .mkdirSubCreate es howner, hw, hp⟩

theorem safe_rmdirSubRmdir (k : Key) (hcmd : .rmdirSubRmdir k ∈ cmds) :
    Safe (OpOkIn N cfg i cmds) (SubPost cfg i (.rmdirSubRmdir k) h) h
      (falconRmdirSubRmdirHandle cfg i k) := by
  rw [falconRmdirSubRmdirHandle]
  refine safe_search fun v => ?_
  cases v with
  | none => trivial
  | some id =>
    refine safe_deleteDir ⟨.inr (.inr ⟨rfl, mem_cons_self⟩), nofun⟩ fun r => ?_
    set h₀ : List Entry :=
      ⟨.hash .delete k .none, r⟩ :: ⟨.hash .search k .exclusive, some id⟩ :: h with hh₀
    have hsaw : Saw h₀ k .exclusive (some id) := mem_cons_of_mem _ mem_cons_self
    -- the shards before the rest `l` are empty
    refine (safe_forM (fun l h' => ∃ done, cfg.localShards i = done ++ l ∧ h₀ <:+ h' ∧
      writesOf h' = writesOf h₀ ∧ putsOf h' = putsOf h₀ ∧
      ∀ n ∈ done, (⟨.inode (.scan n id), false⟩ : Entry) ∈ h') ?_ _ h₀
      ⟨[], rfl, suffix_refl _, rfl, rfl, by simp⟩).seq fun h' _ _ hi => ?_
    · rintro n l h₁ ⟨done, hdone, hs, hw, hp, hscan⟩
      refine ⟨⟨k, hcmd, hs.subset hsaw⟩, fun b => ?_⟩
      cases b with
      | true => trivial
      | false =>
        refine ⟨done ++ [n], by simp [hdone], hs.trans (suffix_cons _ _), hw, hp, ?_⟩
        intro m hm
        rcases mem_append.mp hm with hm | hm
        · exact mem_cons_of_mem _ (hscan m hm)
        · rw [mem_singleton.mp hm]
          exact mem_cons_self
    · obtain ⟨done, hdone, hs, hw, hp, hscan⟩ := hi
      rw [append_nil] at hdone
      subst hdone
      have hsuffix : h <:+ h₀ := (suffix_cons _ _).trans (suffix_cons _ _)
      exact ⟨hsuffix.trans hs, _, _, .rmdirSubRmdir k id (hs.subset hsaw) hscan, hw, hp⟩

theorem apply_rmdirUnlink {r : InodeRow} (hn : r.stNlink = 2) :
    rmdirUnlink.apply r = some none := by
  have hzero : addNlink r.stNlink (-2) = 0 := by rw [hn]; decide
  simp [rmdirUnlink, SearchAndUpdate.apply, hzero]

theorem safe_rmdirSubUnlink (k : Key) :
    Safe (OpOkIn N cfg i cmds) (SubPost cfg i (.rmdirSubUnlink k) h) h
      (falconRmdirSubUnlinkHandle cfg i k) := by
  rw [falconRmdirSubUnlinkHandle]
  split
  · trivial
  · refine ⟨trivial, fun r => ?_⟩
    cases r with
    | none => trivial
    | some r =>
      change Safe _ _ _ (if r.stNlink ≠ 2 then _ else _)
      split
      · trivial
      · rename_i hn
        rw [not_not] at hn
        refine ⟨suffix_cons _ _, _, _, .rmdirSubUnlink k r hn, rfl, ?_⟩
        rw [putsOf_inode (by simp) (by simp)]
        simp [InodeOp.puts, apply_rmdirUnlink hn]

theorem safe_renameDirectories {p : RenameParam} (hN : N p.dst) :
    Safe (OpOkIn N cfg i cmds) (fun h' _ => writesOf h' = renameWrites p ++ writesOf h ∧
      putsOf h' = putsOf h) h (renameDirectories p) := by
  have hdel : ∀ h, OpOkIn N cfg i cmds h (.hash .delete p.src .exclusive) := fun _ =>
    ⟨.inr (.inl rfl), nofun⟩
  have hins : ∀ h, OpOkIn N cfg i cmds h (.hash (.insert p.inodeId) p.dst .exclusive) := fun _ =>
    ⟨.inr (.inl rfl), fun _ _ => hN⟩
  rw [renameDirectories]
  cases hd : p.targetIsDirectory with
  | false => exact ⟨by simp [renameWrites, hd], rfl⟩
  | true =>
    simp only [if_true]
    split
    · rename_i ho
      refine ⟨hdel _, fun _ => ⟨hins _, fun _ => ⟨?_, rfl⟩⟩⟩
      simp [renameWrites, hd, ho, ServerOp.writes]
    · rename_i ho
      split
      · refine ⟨hins _, fun _ => ⟨hdel _, fun _ => ⟨?_, rfl⟩⟩⟩
        simp [renameWrites, hd, ho, ServerOp.writes]
      · trivial

theorem safe_renameSubRenameLocally {p : RenameParam} (hN : N p.dst) :
    Safe (OpOkIn N cfg i cmds) (SubPost cfg i (.renameSubRenameLocally p) h) h
      (falconRenameSubRenameLocallyHandle cfg i p) := by
  rw [falconRenameSubRenameLocallyHandle]
  refine (safe_renameDirectories hN).seq fun h₁ _ hs hpost => ?_
  obtain ⟨hw, hp⟩ := hpost
  split
  · rename_i hsrc
    exact ⟨hs, _, _, .renameOther p hsrc, hw, hp⟩
  · rename_i hsrc
    split
    · trivial
    · refine ⟨trivial, fun r => ?_⟩
      cases r with
      | none => trivial
      | some r =>
        set h₂ : List Entry := ⟨.inode (.remove p.src), some r⟩ :: h₁
        have hs₂ : h <:+ h₂ := hs.trans (suffix_cons _ _)
        have hp₂ : putsOf h₂ = ⟨p.src, some r, none⟩ :: putsOf h := by
          rw [putsOf_inode (by simp) (by simp), hp]
          rfl
        change Safe _ _ _ (if p.dstParentIdPartId = 0 then _ else _)
        split
        · rename_i hdst
          exact ⟨hs₂, _, _, .renameAway p r hsrc hdst, hw, hp₂⟩
        · rename_i hdst
          split
          · trivial
          · rename_i howner
            rw [not_not] at howner
            refine Safe.bind (safe_insertInode howner hN ?_)
            refine ⟨hs₂.trans (suffix_cons _ _), _, _, .renameHere p r hsrc hdst, hw, ?_⟩
            rw [putsOf_inode (by simp) (by simp), hp₂]
            rfl

theorem safe_renameSubCreate {k : Key} (row : InodeRow) (hN : N k) :
    Safe (OpOkIn N cfg i cmds) (SubPost cfg i (.renameSubCreate k row) h) h
      (falconRenameSubCreateHandle cfg i k row) := by
  rw [falconRenameSubCreateHandle]
  split
  · trivial
  · rename_i howner
    rw [not_not] at howner
    refine Safe.bind (safe_insertInode howner hN ?_)
    refine ⟨suffix_cons _ _, _, _, .renameSubCreate k row, rfl, ?_⟩
    rw [putsOf_inode (by simp) (by simp)]
    rfl

theorem safe_subHandle {c : SubRequest} (hc : c ∈ cmds) (hN : ∀ k ∈ c.stores, N k) :
    Safe (OpOkIn N cfg i cmds) (SubPost cfg i c h) h (subHandle cfg i c) := by
  cases c with
  | mkdirSubMkdir es => exact safe_mkdirSubMkdir (forall_mem_map.mp hN)
  | mkdirSubCreate es => exact safe_mkdirSubCreate (forall_mem_map.mp hN)
  | rmdirSubRmdir k => exact safe_rmdirSubRmdir k hc
  | rmdirSubUnlink k => exact safe_rmdirSubUnlink k
  | renameSubRenameLocally p => exact safe_renameSubRenameLocally (hN _ mem_cons_self)
  | renameSubCreate k row => exact safe_renameSubCreate row (hN _ mem_cons_self)

/-- **A pipeline of commands**, after those that are done. -/
theorem safe_subHandles (cs : List SubRequest) (hcs : cs ⊆ cmds) :
    ∀ (done : List SubRequest) (rs : List SubReply) (h : List Entry), SubDone cfg i done rs h →
      Safe (OpOk cfg i cmds) (fun h' rs' => SubDone cfg i (done ++ cs) (rs ++ rs') h') h
        (subHandles cfg i cs) := by
  induction cs with
  | nil =>
    intro done rs h hd
    simpa [subHandles] using hd
  | cons c cs ih =>
    intro done rs h hd
    rw [subHandles]
    refine (safe_subHandle (hcs mem_cons_self) fun _ _ => trivial).seq fun h₁ r _ hpost => ?_
    obtain ⟨hs, dW, dP, heff, hw, hp⟩ := hpost
    have hd₁ : SubDone cfg i (done ++ [c]) (rs ++ [r]) h₁ := by
      rw [SubDone, hw, hp]
      exact .snoc (hd.mono hs) heff
    refine (ih (fun x hx => hcs (mem_cons_of_mem _ hx)) _ _ _ hd₁).map fun h₂ rs' _ hd₂ => ?_
    simpa using hd₂

end Sub

/-! ## 4. `mkdir` -/

section Coordinator

variable {N : Key → Prop} {cfg : Config} {h h' : List Entry}

variable {es : List DirEntry} {s : MkdirState} {c : ServerId × SubRequest} {k : Key} {i : ServerId}
  {p : RenameParam}

theorem MkdirOk.mono (hes : MkdirOk h es) (hs : h <:+ h') : MkdirOk h' es := by
  intro l₁ e l₂ heq
  obtain ⟨he, hp⟩ := hes l₁ e l₂ heq
  exact ⟨hs.subset he, hp.imp_right (·.mono hs)⟩

theorem MkdirOk.snoc {e : DirEntry} (hes : MkdirOk h es) (hs : h <:+ h')
    (hsaw : Saw h' e.key .exclusive none)
    (hp : e.key = rootKey ∨ ParentOk true h' es e.key.parentId) : MkdirOk h' (es ++ [e]) := by
  intro l₁ x l₂ heq
  rcases eq_nil_or_concat l₂ with rfl | ⟨l, y, rfl⟩
  · obtain ⟨rfl, hx⟩ := append_inj' heq rfl
    cases hx
    exact ⟨hsaw, hp⟩
  · rw [concat_eq_append, ← cons_append, ← append_assoc] at heq
    obtain ⟨hl, -⟩ := append_inj' heq rfl
    exact hes.mono hs l₁ x l hl

/-- What holds between two requests of a batch. -/
structure MkdirInv (N : Key → Prop) (h : List Entry) (s : MkdirState) : Prop where
  named : ∀ e ∈ s.entries, N e.key
  tree : TreeOk true h s.entries s.tree
  writes : writesOf h = entryWrites s.entries
  puts : putsOf h = []
  sent : sentOf h = []
  entries : MkdirOk h s.entries
  ids : (s.entries.map (·.inodeId)).reverse.Sublist (idsOf h)

/-- Lookups and draws change nothing but the tree and the codes. -/
theorem MkdirInv.looks (hi : MkdirInv N h s) (hl : OnlyLooks h h') (hids : idsOf h <:+ idsOf h')
    {tree : PathTree} (ht : TreeOk true h' s.entries tree) (codes : List ErrorCode) :
    MkdirInv N h' { s with tree := tree, codes := codes } where
  named := hi.named
  tree := ht
  writes := hl.writes.trans hi.writes
  puts := (congrArg Prod.fst hl.puts).trans hi.puts
  sent := hl.sent.trans hi.sent
  entries := hi.entries.mono hl.suffix
  ids := hi.ids.trans hids.sublist

theorem isAbsolute_of_verify {p : Path} {requirement : PathRequirement}
    (h : verifyPathValidity p requirement = .success) : p.isAbsolute = true := by
  cases ha : p.isAbsolute with
  | true => rfl
  | false => simp [verifyPathValidity, ha] at h

theorem safe_mkdirOne (hi : MkdirInv N h s) {p : Path}
    (hN : verifyPathValidity p .mustBeDirectory = .success → ∀ g, TargetOf p g → N g.key) :
    Safe (OpOkIn N cfg cnServerId []) (MkdirInv N) h (mkdirOne s p) := by
  have hcode : ∀ e, MkdirInv N h { s with codes := s.codes ++ [e] } := fun e =>
    hi.looks (.refl h) (suffix_refl _) hi.tree _
  rw [mkdirOne]
  split
  · rename_i hv
    refine (safe_pathParseTreeInsert hi.tree rfl (fun _ => rfl) p).seq fun h₁ r _ hpost => ?_
    obtain ⟨tree, r⟩ := r
    cases r with
    | error e => exact hi.looks hpost.looks hpost.ids (hpost.onError e rfl) _
    | ok g =>
      have hok := hpost.onOk g rfl
      have hsaw := hok.isNew rfl rfl
      have hg := hN hv g hok.target.target
      refine ⟨⟨.inr (.inr ⟨rfl, hsaw.exclusive_mem⟩), fun _ _ => hg⟩, fun r => ?_⟩
      have hs₁ : h₁ <:+ ⟨.hash (.insert g.inodeId) g.key .none, r⟩ :: h₁ := suffix_cons _ _
      have hplace : g.key = rootKey ∨ ParentOk true h₁ s.entries g.parentId := by
        by_cases hone : p.names.length = 1
        · exact .inl (hok.target.target.key_eq_rootKey
            (Path.isRoot_of_length (isAbsolute_of_verify hv) hone))
        · exact .inr (hok.target.parent hone)
      exact {
        named := by simpa [or_imp, forall_and] using ⟨hi.named, hg⟩
        tree := hok.tree.mono hs₁ (List.Subset.refl _)
        writes := by simp [ServerOp.writes, hpost.looks.writes, hi.writes, entryWrites]
        puts := (congrArg Prod.fst hpost.looks.puts).trans hi.puts
        sent := hpost.looks.sent.trans hi.sent
        entries := hi.entries.snoc (hpost.looks.suffix.trans hs₁) (hs₁.subset hsaw)
          (hplace.imp_right (·.mono hs₁))
        ids := by
          rw [map_append, reverse_append]
          change List.Sublist _ (idsOf h₁)
          rw [hok.drawn rfl rfl]
          exact hi.ids.cons_cons _ }
  · exact hcode _

theorem mkdirCommands_fst (hc : c ∈ mkdirCommands cfg es) : c.1 ∈ cfg.workers := by
  rcases mem_append.mp hc with hc | hc
  · obtain ⟨w, hw, rfl⟩ := mem_map.mp hc
    exact hw
  · obtain ⟨w, hw, rfl⟩ := mem_map.mp hc
    exact (mem_filter.mp hw).1

/-- No `RENAME_SUB_RENAME_LOCALLY` has been sent. -/
def NoRename (h : List Entry) : Prop := ∀ w p, (w, .renameSubRenameLocally p) ∉ sentOf h

theorem noRename_of_sent (hs : sentOf h = []) : NoRename h := by
  intro w p
  rw [hs]
  exact not_mem_nil

theorem noRename_remote {cs : List (ServerId × SubRequest)} {r : ServerId → List SubReply}
    (hs : sentOf h = []) (hc : ∀ w p, (w, .renameSubRenameLocally p) ∉ cs) :
    NoRename (⟨.remote cs, r⟩ :: h) := by
  intro w p hmem
  change _ ∈ sentOf h ++ cs at hmem
  rw [hs] at hmem
  exact hc w p hmem

theorem mkdirCommands_stores (hes : ∀ e ∈ es, N e.key) (hc : c ∈ mkdirCommands cfg es) :
    ∀ k ∈ c.2.stores, N k := by
  rcases mem_append.mp hc with hc | hc
  · obtain ⟨w, -, rfl⟩ := mem_map.mp hc
    exact forall_mem_map.mpr hes
  · obtain ⟨w, -, rfl⟩ := mem_map.mp hc
    exact forall_mem_map.mpr fun e he => hes e (mem_filter.mp he).1

theorem safe_mkdir {paths : List Path} (i : ServerId)
    (hN : ∀ p ∈ paths, verifyPathValidity p .mustBeDirectory = .success →
      ∀ g, TargetOf p g → N g.key) :
    Safe (OpOkIn N cfg i []) (fun h' _ => MainEffect cfg i h' ∧ NoRename h') []
      (falconMkdirHandle cfg i paths) := by
  rw [falconMkdirHandle]
  split
  · trivial
  · rename_i hcn
    rw [not_not] at hcn
    subst hcn
    have hinit : MkdirInv N [] ⟨[], [], []⟩ :=
      ⟨nofun, treeOk_nil, rfl, rfl, rfl, (fun l₁ e l₂ heq => by simp at heq), List.Sublist.refl _⟩
    refine (safe_foldlM (fun l h' s' => l ⊆ paths ∧ MkdirInv N h' s') ?_ paths [] _
      ⟨List.Subset.refl _, hinit⟩).seq fun h₁ s _ ⟨_, hi⟩ => ?_
    · rintro p l h' s' ⟨hl, hi⟩
      refine (safe_mkdirOne hi (hN p (hl mem_cons_self))).mono fun _ _ _ hi' => ⟨?_, hi'⟩
      exact fun q hq => hl (mem_cons_of_mem _ hq)
    · split
      · rename_i hnil
        refine ⟨.mkdir s.entries rfl hi.writes hi.puts ?_ hi.entries hi.ids,
          noRename_of_sent hi.sent⟩
        rw [if_pos hnil, hi.sent]
      · rename_i hne
        refine ⟨⟨rfl, fun c hc => mkdirCommands_fst hc, ?_,
          fun c hc => mkdirCommands_stores hi.named hc⟩, fun r => ?_⟩
        · intro w k hmem
          simp [mkdirCommands] at hmem
        · have hs₁ : h₁ <:+ ⟨.remote (mkdirCommands cfg s.entries), r⟩ :: h₁ :=
            suffix_cons _ _
          refine ⟨.mkdir s.entries rfl hi.writes hi.puts ?_ (hi.entries.mono hs₁) hi.ids,
            noRename_remote hi.sent (by simp [mkdirCommands])⟩
          rw [if_neg hne]
          change sentOf h₁ ++ _ = _
          rw [hi.sent, nil_append]

/-! ## 5. `rmdir` -/

theorem rmdirCommands_fst (hc : c ∈ rmdirCommands cfg k) : c.1 ∈ cfg.workers := by
  rcases mem_append.mp hc with hc | hc
  · obtain ⟨w, hw, rfl⟩ := mem_map.mp hc
    exact hw
  · rw [mem_singleton.mp hc]
    exact cfg.owner_mem k

theorem safe_rmdir (p : Path) (i : ServerId) :
    Safe (OpOkIn N cfg i []) (fun h' _ => MainEffect cfg i h' ∧ NoRename h') []
      (falconRmdirHandle cfg i p) := by
  rw [falconRmdirHandle]
  split
  · trivial
  · rename_i hcn
    rw [not_not] at hcn
    subst hcn
    split
    · have hnil : TreeOk false [] [] [] := treeOk_nil
      refine (safe_pathParseTreeInsert hnil rfl (by simp) p).seq fun h₁ r _ hpost => ?_
      obtain ⟨tree, r⟩ := r
      cases r with
      | error e => trivial
      | ok g =>
        have hsaw := (hpost.onOk g rfl).isOld rfl rfl rfl
        refine ⟨⟨.inr (.inr ⟨rfl, hsaw.exclusive_mem⟩), nofun⟩, fun r₁ => ?_⟩
        refine ⟨⟨rfl, fun c hc => rmdirCommands_fst hc, ?_, ?_⟩, fun r₂ => ?_⟩
        · intro w k hmem
          have hk : k = g.key := by
            simp only [rmdirCommands, mem_append, mem_map, mem_singleton,
              Prod.mk.injEq, SubRequest.rmdirSubRmdir.injEq, reduceCtorEq, and_false,
              or_false] at hmem
            obtain ⟨_, -, -, hk⟩ := hmem
            exact hk.symm
          rw [hk]
          exact mem_locksOf_of_suffix (suffix_cons _ _) hsaw.exclusive_mem
        · simp [rmdirCommands, SubRequest.stores, or_imp, forall_and]
        · refine ⟨.rmdir g.key g.inodeId rfl ?_ ?_ ?_ ?_,
            noRename_remote hpost.looks.sent (by simp [rmdirCommands])⟩
          · change (g.key, none) :: writesOf h₁ = _
            rw [hpost.looks.writes]
            rfl
          · change (putsState h₁).1 = _
            rw [hpost.looks.puts]
            rfl
          · change sentOf h₁ ++ _ = _
            rw [hpost.looks.sent]
            rfl
          · exact mem_cons_of_mem _ (mem_cons_of_mem _ hsaw)
    · trivial

/-! ## 6. `rename` -/

theorem safe_checkNames (ns : List Name) : ∀ (p : InodeId) (h : List Entry),
    Safe (OpOkIn N cfg i []) (fun h' _ => OnlyLooks h h') h (checkNames p ns) := by
  induction ns with
  | nil => exact fun p h => .refl h
  | cons n ns ih =>
    intro p h
    rw [checkNames]
    refine safe_search fun v => ?_
    have hlook := onlyLooks_search h ⟨p, n⟩ .none v
    cases v with
    | none => exact hlook
    | some id => exact (ih id _).mono fun h' _ _ hl => hlook.trans hl

/-- What the handler knows about the two targets. -/
structure RenameTargets (src dst : Path) (renameDirectory : Bool) (input : InodeId)
    (h h' : List Entry) (s d : PathTarget) : Prop where
  target : TargetOf dst d
  looks : OnlyLooks h h'
  above : src.isAbsolute = true → ∃ k, Saw h' k .shared (some s.parentId)
  chain : SharedChain h' d.parentId
  inodeId : d.inodeId = input
  source : renameDirectory = true → ∃ id, Saw h' s.key .exclusive (some id)
  destination : renameDirectory = true → Saw h' d.key .exclusive none

/-- A path that begins with a slash, and is not the root, has a directory above its target. -/
theorem Parsed.above {created : List DirEntry} {flag : PathParseFlag} {p : Path} {g : PathTarget}
    (hg : Parsed false created flag p h g) (hflag : flag.notRoot = true)
    (ha : p.isAbsolute = true) : ∃ k, Saw h k .shared (some g.parentId) := by
  have hlen : p.names.length ≠ 1 := by
    intro hone
    have hroot := Path.isRoot_of_length ha hone
    rw [hg.notRoot hflag] at hroot
    cases hroot
  rcases hg.parent hlen with hk | ⟨hallow, _⟩
  · exact hk
  · cases hallow

theorem safe_renameParse (src dst : Path) (srcFirst renameDirectory : Bool) (input : InodeId) :
    Safe (OpOkIn N cfg i [])
      (fun h' g => RenameTargets src dst renameDirectory input h h' g.1 g.2) h
      (renameParse src dst srcFirst renameDirectory input) := by
  rw [renameParse]
  have hnil : TreeOk false h [] [] := treeOk_nil
  have hallow : ∀ b, (renameFlag renameDirectory b).allowOperationUnderCreatedDirectory = false :=
    fun _ => rfl
  refine (safe_pathParseTreeInsert hnil (hallow _) (by simp) _).seq fun h₁ r _ hpost => ?_
  obtain ⟨tree, r⟩ := r
  cases r with
  | error e => trivial
  | ok g₁ =>
    have h₁ok := hpost.onOk g₁ rfl
    refine (safe_pathParseTreeInsert h₁ok.tree (hallow srcFirst) (by simp) _).seq
      fun h₂ r hs₂ hpost₂ => ?_
    obtain ⟨tree₂, r⟩ := r
    cases r with
    | error e => trivial
    | ok g₂ =>
      have h₂ok := hpost₂.onOk g₂ rfl
      have hlooks := hpost.looks.trans hpost₂.looks
      cases srcFirst with
      | true =>
        exact ⟨h₂ok.target.target, hlooks,
          fun ha => (h₁ok.target.above rfl ha).imp fun _ hk => hs₂.subset hk, h₂ok.chain rfl,
          h₂ok.given rfl rfl, fun hd => ⟨_, hs₂.subset (h₁ok.isOld rfl rfl hd)⟩,
          fun hd => h₂ok.isNew rfl hd⟩
      | false =>
        exact ⟨h₁ok.target.target, hlooks, h₂ok.target.above rfl, (h₁ok.chain rfl).mono hs₂,
          h₁ok.given rfl rfl, fun hd => ⟨_, h₂ok.isOld rfl rfl hd⟩,
          fun hd => hs₂.subset (h₁ok.isNew rfl hd)⟩

theorem renameCommands_fst (hc : c ∈ renameCommands cfg p) : c.1 ∈ cfg.workers := by
  rcases mem_cons.mp hc with rfl | hc
  · exact cfg.owner_mem p.src
  · obtain ⟨w, hw, rfl⟩ := mem_map.mp hc
    exact mem_of_mem_erase hw

theorem rmdirSubRmdir_notMem_renameCommands {w : ServerId} :
    (w, SubRequest.rmdirSubRmdir k) ∉ renameCommands cfg p := by
  simp [renameCommands]

/-- The two rounds of commands.  The rest of the effect is known when the first one starts. -/
theorem safe_renameOnWorkers
    (hw : writesOf h = if p.targetIsDirectory then [(p.dst, some p.inodeId), (p.src, none)] else [])
    (hp : putsOf h = []) (hs : sentOf h = []) (hr : ∀ i, repliesOf i h = [])
    (hfrom : ∃ k, Saw h k .shared (some p.src.parentId)) (hup : SharedChain h p.dst.parentId)
    (hdir : p.targetIsDirectory = true →
      (∃ id, Saw h p.src .exclusive (some id)) ∧ Saw h p.dst .exclusive none) (hN : N p.dst) :
    Safe (OpOkIn N cfg cnServerId []) (fun h' _ => MainEffect cfg cnServerId h') h
      (renameOnWorkers cfg p) := by
  rw [renameOnWorkers]
  have hdir' : ∀ h', h <:+ h' → p.targetIsDirectory = true →
      (∃ id, Saw h' p.src .exclusive (some id)) ∧ Saw h' p.dst .exclusive none :=
    fun h' hsuf hd => ⟨(hdir hd).1.imp fun _ hk => hsuf.subset hk, hsuf.subset (hdir hd).2⟩
  have hfrom' : ∀ h', h <:+ h' → ∃ k, Saw h' k .shared (some p.src.parentId) :=
    fun h' hsuf => hfrom.imp fun _ hk => hsuf.subset hk
  refine ⟨⟨rfl, fun c hc => renameCommands_fst hc, ?_, ?_⟩, fun replies => ?_⟩
  · exact fun w k hmem => absurd hmem rmdirSubRmdir_notMem_renameCommands
  · simp [renameCommands, renameAtSource, SubRequest.stores, or_imp, forall_and, hN]
  · have hsuf : h <:+ ⟨.remote (renameCommands cfg p), replies⟩ :: h := suffix_cons _ _
    change Safe _ _ _ (if cfg.owner p.src = cfg.owner p.dst then _ else _)
    split
    · rename_i hsame
      refine .rename p [] rfl hw hp ?_ (hfrom' _ hsuf) (hup.mono hsuf) (hdir' _ hsuf)
        (fun _ => rfl) fun hne => absurd hsame hne
      change sentOf h ++ _ = _
      rw [hs, nil_append, append_nil]
    · rename_i hne
      split
      · rename_i a hreply
        refine ⟨⟨rfl, fun c hc => ?_, fun w k hmem => by simp at hmem, ?_⟩, fun replies₂ => ?_⟩
        · rw [mem_singleton.mp hc]
          exact cfg.owner_mem p.dst
        · simpa [SubRequest.stores] using hN
        · have hsuf₂ := hsuf.trans (suffix_cons (⟨.remote
            [(cfg.owner p.dst, .renameSubCreate p.dst (a.rowOr cfg.unset))], replies₂⟩ : Entry) _)
          refine .rename p _ rfl hw hp ?_ (hfrom' _ hsuf₂) (hup.mono hsuf₂) (hdir' _ hsuf₂)
            (fun hsame => absurd hsame hne) fun _ => ⟨a, replies₂ (cfg.owner p.src), rfl, ?_⟩
          · change (sentOf h ++ _) ++ _ = _
            rw [hs, nil_append]
          · change (repliesOf _ h ++ replies _) ++ _ = _
            rw [hr, hreply]
            rfl
      · trivial

theorem safe_rename (src : Path) {dst : Path} (i : ServerId) (hN : ∀ g, TargetOf dst g → N g.key) :
    Safe (OpOkIn N cfg i []) (fun h' _ => MainEffect cfg i h') []
      (falconRenameHandle cfg i src dst) := by
  rw [falconRenameHandle]
  split
  · trivial
  · rename_i hcn
    rw [not_not] at hcn
    subst hcn
    have hfound : Safe (OpOkIn N cfg cnServerId [])
        (fun h' _ => OnlyLooks [] h' ∧ src.isAbsolute = true) []
        (checkWhetherPathExistsInDirectoryTable src) := by
      rw [checkWhetherPathExistsInDirectoryTable]
      split
      · trivial
      · rename_i ha
        exact (safe_checkNames _ 0 []).mono fun _ _ _ hl => ⟨hl, by simpa using ha⟩
    refine hfound.seq fun h₁ found _ ⟨hlook, ha⟩ => ?_
    dsimp only
    split
    · trivial
    · refine (safe_renameParse src dst _ _ _).seq fun h₂ g _ hg => ?_
      obtain ⟨s, d⟩ := g
      have hl := hlook.trans hg.looks
      cases found with
      | none =>
        exact safe_renameOnWorkers hl.writes (congrArg Prod.fst hl.puts) hl.sent hl.replies
          (hg.above ha) hg.chain (by simp) (hN d hg.target)
      | some id =>
        refine ⟨⟨.inr (.inr ⟨rfl, (hg.source rfl).choose_spec.exclusive_mem⟩), nofun⟩,
          fun r₁ => ?_⟩
        refine ⟨⟨.inr (.inr ⟨rfl, ?_⟩), fun _ _ => hN d hg.target⟩, fun r₂ => ?_⟩
        · exact mem_locksOf_of_suffix (suffix_cons _ _) (hg.destination rfl).exclusive_mem
        · have hsuf : h₂ <:+ ⟨.hash (.insert d.inodeId) d.key .none, r₂⟩ ::
              ⟨.hash .delete s.key .none, r₁⟩ :: h₂ :=
            (suffix_cons _ _).trans (suffix_cons _ _)
          refine safe_renameOnWorkers ?_ (congrArg Prod.fst hl.puts) hl.sent hl.replies
            ((hg.above ha).imp fun _ hk => hsuf.subset hk) (hg.chain.mono hsuf)
            (fun _ => ⟨?_, hsuf.subset (hg.destination rfl)⟩) (hN d hg.target)
          · change (d.key, some d.inodeId) :: (s.key, none) :: writesOf h₂ = _
            rw [hl.writes]
            rfl
          · exact (hg.source rfl).imp fun _ hk => hsuf.subset hk

end Coordinator

/-! ## 7. Requests to the worker that owns the row -/

section Local

variable {N : Key → Prop} {cfg : Config} {i : ServerId} {h h' : List Entry}

/-- A resolved target: its row would be here, and the directories above it are locked. -/
def TargetHere (N : Key → Prop) (cfg : Config) (i : ServerId) (h : List Entry) (g : PathTarget) :
    Prop :=
  cfg.owner g.key = i ∧ N g.key ∧ SharedChain h g.parentId

theorem TargetHere.mono {g : PathTarget} (hg : TargetHere N cfg i h g) (hs : h <:+ h') :
    TargetHere N cfg i h' g := ⟨hg.1, hg.2.1, hg.2.2.mono hs⟩

structure ResolveInv (N : Key → Prop) (cfg : Config) (i : ServerId) (h : List Entry)
    (s : ResolveState) : Prop where
  looks : OnlyLooks [] h
  tree : ∃ created, TreeOk false h created s.tree
  targets : ∀ g, .ok g ∈ s.targets → TargetHere N cfg i h g

variable {s : ResolveState} {requirement : PathRequirement} {flag : PathParseFlag}
  {u : SearchAndUpdate} {todo : List CreateItem}

/-- One more request has been looked at. -/
theorem ResolveInv.snoc (hi : ResolveInv N cfg i h s) (hl : OnlyLooks h h') {tree : PathTree}
    {created : List DirEntry} (ht : TreeOk false h' created tree) {t : Except ErrorCode PathTarget}
    (hg : ∀ g, t = .ok g → TargetHere N cfg i h' g) :
    ResolveInv N cfg i h' ⟨tree, s.targets ++ [t]⟩ := by
  refine ⟨hi.looks.trans hl, ⟨created, ht⟩, fun g hmem => ?_⟩
  rcases mem_append.mp hmem with hmem | hmem
  · exact (hi.targets g hmem).mono hl.suffix
  · exact hg g (mem_singleton.mp hmem).symm

theorem safe_resolveOne (hallow : flag.allowOperationUnderCreatedDirectory = false)
    (hi : ResolveInv N cfg i h s) {p : Path}
    (hN : verifyPathValidity p requirement = .success → ∀ g, TargetOf p g → N g.key) :
    Safe (OpOkIn N cfg i []) (ResolveInv N cfg i) h
      (resolveOne cfg i requirement flag s p) := by
  obtain ⟨created, ht⟩ := hi.tree
  rw [resolveOne]
  split
  · rename_i hv
    refine (safe_pathParseTreeInsert ht hallow (by simp) p).seq fun h₁ r _ hpost => ?_
    obtain ⟨tree, r⟩ := r
    cases r with
    | error e => exact hi.snoc hpost.looks (hpost.onError e rfl) (by simp)
    | ok g =>
      have hok := hpost.onOk g rfl
      change Safe _ _ _ (if cfg.owner g.key ≠ i then _ else _)
      split
      · exact hi.snoc hpost.looks hok.tree (by simp)
      · rename_i howner
        rw [not_not] at howner
        refine hi.snoc hpost.looks hok.tree fun g' hg' => ?_
        cases hg'
        exact ⟨howner, hN hv g hok.target.target, hok.chain rfl⟩
  · exact hi.snoc (.refl h) ht (by simp)

theorem safe_resolveAll (hallow : flag.allowOperationUnderCreatedDirectory = false)
    (paths : List Path)
    (hN : ∀ p, verifyPathValidity p requirement = .success → ∀ g, TargetOf p g → N g.key) :
    Safe (OpOkIn N cfg i []) (fun h' targets => OnlyLooks [] h' ∧
      ∀ g, .ok g ∈ targets → TargetHere N cfg i h' g) []
      (resolveAll cfg i requirement flag paths) := by
  have hinit : ResolveInv N cfg i [] ⟨[], []⟩ := ⟨.refl [], ⟨[], treeOk_nil⟩, by simp⟩
  refine (safe_foldlM (fun _ => ResolveInv N cfg i) ?_ paths [] _ hinit).seq
    fun h₁ s _ hi => ⟨hi.looks, hi.targets⟩
  exact fun p _ h' s' hi => safe_resolveOne hallow hi (hN p)

theorem target_of_mem_itemsOf {targets : List (Except ErrorCode PathTarget)} {it : Item}
    (hit : it ∈ itemsOf targets) : .ok it.target ∈ targets := by
  obtain ⟨⟨t, n⟩, hmem, ht⟩ := mem_filterMap.mp hit
  cases t with
  | error e => cases ht
  | ok g =>
    cases ht
    obtain ⟨-, -, heq⟩ := mem_zipIdx hmem
    rw [heq]
    exact getElem_mem _

/-- The transaction has changed nothing but inode rows of this server. -/
structure LocalInv (h : List Entry) : Prop where
  writes : writesOf h = []
  sent : sentOf h = []
  puts : ∀ p ∈ (putsState h).1, LocalPut h p
  saved : ∀ p ∈ (putsState h).2, LocalPut h p

theorem OnlyLooks.localInv (hl : OnlyLooks [] h) : LocalInv h := by
  refine ⟨hl.writes, hl.sent, ?_, ?_⟩ <;> rw [hl.puts] <;> simp [putsState]

theorem LocalInv.mainEffect (hi : LocalInv h) : MainEffect cfg i h :=
  .locally hi.writes hi.sent hi.puts

/-- One more operation on the inode table. -/
theorem LocalInv.inode (hi : LocalInv h) {o : InodeOp} {r : o.Res}
    (hp : ∀ p ∈ o.puts r, LocalPut (⟨.inode o, r⟩ :: h) p) : LocalInv (⟨.inode o, r⟩ :: h) := by
  have hs : h <:+ ⟨.inode o, r⟩ :: h := suffix_cons _ _
  have hputs : ∀ p ∈ (putsState h).1, LocalPut (⟨.inode o, r⟩ :: h) p :=
    fun p hmem => (hi.puts p hmem).mono hs
  have hsaved : ∀ p ∈ (putsState h).2, LocalPut (⟨.inode o, r⟩ :: h) p :=
    fun p hmem => (hi.saved p hmem).mono hs
  have happ : ∀ p ∈ o.puts r ++ (putsState h).1, LocalPut (⟨.inode o, r⟩ :: h) p := by
    intro p hmem
    rcases mem_append.mp hmem with hmem | hmem
    · exact hp p hmem
    · exact hputs p hmem
  cases o with
  | beginSub => exact ⟨hi.writes, hi.sent, hputs, hputs⟩
  | rollbackSub => exact ⟨hi.writes, hi.sent, hsaved, hsaved⟩
  | _ => exact ⟨hi.writes, hi.sent, happ, hsaved⟩

/-- Without a change of the link count, the row stays what it is. -/
theorem apply_of_nlinkChange_none {r : InodeRow} {new : Option InodeRow} (hu : u.nlinkChange = none)
    (happ : u.apply r = some new) :
    ∃ r', new = some r' ∧ r'.stIno = r.stIno ∧ r'.stMode = r.stMode ∧
      r'.stNlink = r.stNlink := by
  simp only [SearchAndUpdate.apply, hu, Option.any_none, Bool.false_eq_true, if_false,
    Option.map_none, Option.getD_none, Option.isSome_none, Bool.or_false] at happ
  split at happ
  · split at happ
    · cases happ
    · split at happ
      · cases happ
        exact ⟨_, rfl, rfl, rfl, rfl⟩
      · cases happ
  · cases happ

theorem safe_searchInode (hi : LocalInv h) {k : Key} (hu : u.nlinkChange = none) :
    Safe (OpOkIn N cfg i []) (fun h' _ => LocalInv h') h (searchInode k u) := by
  refine ⟨trivial, fun r => ?_⟩
  have hi' : LocalInv (⟨.inode (.searchAndUpdate k u), r⟩ :: h) := by
    refine hi.inode fun p hp => ?_
    cases r with
    | none => cases hp
    | some r =>
      simp only [InodeOp.puts] at hp
      split at hp
      · cases hp
      · rename_i new happ
        rw [mem_singleton.mp hp]
        obtain ⟨r', rfl, hino, hmode, hnlink⟩ := apply_of_nlinkChange_none hu happ
        exact .update k r r' hino hmode hnlink
  cases r with
  | none => exact hi'
  | some r => exact hi'

theorem apply_unlinkUpdate (r : InodeRow) :
    unlinkUpdate.apply r =
      if addNlink r.stNlink (-1) = 0 then some none
      else if r.isReg then some (some { r with stNlink := addNlink r.stNlink (-1) })
      else none := by
  by_cases hn : addNlink r.stNlink (-1) = 0 <;> cases hreg : r.isReg <;>
    simp [unlinkUpdate, SearchAndUpdate.apply, ModeCheck.fails, hn, hreg]

theorem safe_unlinkOne (hi : LocalInv h) (k : Key) :
    Safe (OpOkIn N cfg i []) (fun h' _ => LocalInv h') h (unlinkOne k) := by
  refine ⟨trivial, fun r => ?_⟩
  have hi' : LocalInv (⟨.inode (.searchAndUpdate k unlinkUpdate), r⟩ :: h) := by
    refine hi.inode fun p hp => ?_
    cases r with
    | none => cases hp
    | some r =>
      simp only [InodeOp.puts, apply_unlinkUpdate] at hp
      by_cases hn : addNlink r.stNlink (-1) = 0
      · rw [if_pos hn] at hp
        rw [mem_singleton.mp hp]
        exact .unlink k r hn
      · rw [if_neg hn] at hp
        cases hreg : r.isReg with
        | false => simp [hreg] at hp
        | true =>
          simp only [hreg, if_true, mem_singleton] at hp
          rw [hp]
          exact .decrement k r _ hreg hn
  cases r with
  | none => exact hi'
  | some r =>
    change Safe _ _ _ (if !r.isReg then _ else if r.stNlink ≠ 1 then _ else _)
    split
    · exact hi'
    · split <;> exact hi'

/-- The common shape. -/
theorem safe_batchHandle {body : Nat → Key → Handler ErrorCode}
    (hbody : ∀ n k h, LocalInv h → Safe (OpOk cfg i []) (fun h' _ => LocalInv h') h (body n k))
    (paths : List Path) :
    Safe (OpOk cfg i []) (fun h' _ => MainEffect cfg i h') []
      (batchHandle cfg i requirement body paths) := by
  rw [batchHandle]
  refine (safe_resolveAll rfl paths fun _ _ _ _ => trivial).seq fun h₁ targets _ hr => ?_
  refine (safe_mapM LocalInv ?_ _ h₁ hr.1.localInv).seq fun h₂ _ _ hi => hi.mainEffect
  exact fun it h hi => (hbody _ _ h hi).seq fun h' c _ hi' => hi'

/-! ## 8. `create` -/

/-- Requests that are still to be worked off. -/
def AllHere (N : Key → Prop) (cfg : Config) (i : ServerId) (h : List Entry)
    (todo : List CreateItem) : Prop :=
  ∀ c ∈ todo, TargetHere N cfg i h c.item.target

theorem AllHere.mono (ht : AllHere N cfg i h todo) (hs : h <:+ h') :
    AllHere N cfg i h' todo := fun c hc => (ht c hc).mono hs

theorem safe_createGroup (todo : List CreateItem) : ∀ (n : Nat) (h : List Entry), LocalInv h →
    AllHere N cfg i h todo → Safe (OpOkIn N cfg i []) (fun h' r => LocalInv h' ∧
      ∀ rest, r = .ok rest → AllHere N cfg i h' rest) h (createGroup i n todo) := by
  induction todo with
  | nil =>
    intro n h hi ht
    rw [createGroup]
    exact ⟨hi, fun rest hr => by cases hr; exact ht⟩
  | cons c todo ih =>
    intro n h hi ht
    have htail : ∀ e : Entry, AllHere N cfg i (e :: h) todo := fun e c' hc' =>
      (ht c' (mem_cons_of_mem _ hc')).mono (suffix_cons _ _)
    cases n with
    | zero =>
      rw [createGroup]
      · exact ⟨hi, fun rest hr => by cases hr; exact ht⟩
      · simp
    | succ n =>
      rw [createGroup]
      split
      · refine ⟨trivial, fun r => ih (n + 1) _ (hi.inode fun p hp => ?_) (htail _)⟩
        cases r with
        | none => cases hp
        | some r => cases hp
      · obtain ⟨howner, hN, hchain⟩ := ht c mem_cons_self
        refine ⟨⟨howner, hN⟩, fun free => ?_⟩
        have hi' : LocalInv (⟨.inode (.insert c.item.target.key
            (fileRow i c.item.target.inodeId)), free⟩ :: h) := by
          refine hi.inode fun p hp => ?_
          cases free with
          | false => cases hp
          | true =>
            rw [mem_singleton.mp hp]
            exact .create _ _ (isDir_fileRow _ _) rfl (hchain.mono (suffix_cons _ _))
        cases free with
        | true => exact ih n _ hi' (htail _)
        | false => exact ⟨hi', fun rest hr => by cases hr⟩

theorem allHere_markExists (ht : AllHere N cfg i h todo) (n : Nat) :
    AllHere N cfg i h (markExists n todo) := by
  intro c hc
  obtain ⟨c', hc', rfl⟩ := mem_map.mp hc
  split <;> exact ht c' hc'

theorem safe_createGroups (rounds : Nat) : ∀ (todo : List CreateItem) (h : List Entry),
    LocalInv h → AllHere N cfg i h todo →
      Safe (OpOkIn N cfg i []) (fun h' _ => LocalInv h') h (createGroups i rounds todo) := by
  induction rounds with
  | zero => exact fun _ _ hi _ => hi
  | succ rounds ih =>
    intro todo h hi ht
    rw [createGroups]
    split
    · exact hi
    · refine ⟨trivial, fun _ => ?_⟩
      have hnone : ∀ {h : List Entry} {o : InodeOp} {r : o.Res}, LocalInv h → o.puts r = [] →
          LocalInv (⟨.inode o, r⟩ :: h) := fun hi hp => hi.inode fun p hmem => by simp [hp] at hmem
      have ht' := ht.mono (suffix_cons (⟨.inode .beginSub, ()⟩ : Entry) h)
      refine (safe_createGroup todo batchOperationGroupSize _ (hnone hi rfl) ht').seq
        fun h₁ r hs₁ hpost => ?_
      cases r with
      | ok rest =>
        refine ⟨trivial, fun _ => ih rest _ (hnone hpost.1 rfl) ?_⟩
        exact (hpost.2 rest rfl).mono (suffix_cons _ _)
      | error n =>
        refine ⟨rfl, fun _ => ?_⟩
        refine (ih (markExists n todo) _ (hnone hpost.1 rfl) ?_).map fun h₂ _ _ hi₂ => hi₂
        exact (allHere_markExists ht' n).mono (hs₁.trans (suffix_cons _ _))

theorem safe_create (paths : List Path)
    (hN : ∀ p, verifyPathValidity p .mustBeFile = .success → ∀ g, TargetOf p g → N g.key) :
    Safe (OpOkIn N cfg i []) (fun h' _ => MainEffect cfg i h' ∧ NoRename h') []
      (falconCreateHandle cfg i paths) := by
  rw [falconCreateHandle]
  refine (safe_resolveAll rfl paths hN).seq fun h₁ targets _ hr => ?_
  have hitems : ∀ n, AllHere N cfg i h₁ (((itemsOf targets).filter fun it =>
      cfg.shard it.target.key = n).map fun it => ⟨it, false⟩) := by
    intro n c hc
    obtain ⟨it, hit, rfl⟩ := mem_map.mp hc
    exact hr.2 _ (target_of_mem_itemsOf (mem_filter.mp hit).1)
  refine (safe_mapM (fun h' => h₁ <:+ h' ∧ LocalInv h') ?_ _ h₁
    ⟨suffix_refl _, hr.1.localInv⟩).seq fun h₂ _ _ hi =>
      ⟨hi.2.mainEffect, noRename_of_sent hi.2.sent⟩
  intro n h hi
  refine (safe_createGroups _ _ h hi.2 ((hitems n).mono hi.1)).mono fun h' _ hs hi' => ?_
  exact ⟨hi.1.trans hs, hi'⟩

end Local

/-! ## 9. All requests -/

/-- **The effect of a request**, whatever its operations return. -/
theorem safe_handle (cfg : Config) (i : ServerId) (req : Request) :
    Safe (OpOk cfg i []) (fun h _ => MainEffect cfg i h) [] (handle cfg i req) := by
  cases req with
  | mkdir paths => exact (safe_mkdir i fun _ _ _ _ _ => trivial).mono fun _ _ _ h => h.1
  | rmdir path => exact (safe_rmdir path i).mono fun _ _ _ h => h.1
  | rename src dst => exact safe_rename src i fun _ _ => trivial
  | create paths => exact (safe_create paths fun _ _ _ _ => trivial).mono fun _ _ _ h => h.1
  | stat paths =>
    rw [handle, falconStatHandle]
    exact safe_batchHandle (fun _ _ _ hi => safe_searchInode hi rfl) paths
  | openFile paths =>
    rw [handle, falconOpenHandle]
    exact safe_batchHandle (fun _ _ _ hi => safe_searchInode hi rfl) paths
  | close reqs =>
    rw [handle, falconCloseHandle]
    refine safe_batchHandle (fun n _ _ hi => safe_searchInode hi ?_) _
    cases reqs[n]? <;> rfl
  | unlink paths =>
    rw [handle, falconUnlinkHandle]
    exact safe_batchHandle (fun _ k _ hi => safe_unlinkOne hi k) paths

/-- `create`, `mkdir` and `rmdir`. -/
def Request.makesOrRemoves : Request → Bool
  | .create _ | .mkdir _ | .rmdir _ => true
  | _ => false

/-- They rename nothing. -/
theorem noRename_handle {cfg : Config} {i : ServerId} {req : Request}
    (h : req.makesOrRemoves = true) :
    Safe (OpOk cfg i []) (fun h _ => NoRename h) [] (handle cfg i req) := by
  cases req with
  | create paths => exact (safe_create paths fun _ _ _ _ => trivial).mono fun _ _ _ h => h.2
  | mkdir paths => exact (safe_mkdir i fun _ _ _ _ _ => trivial).mono fun _ _ _ h => h.2
  | rmdir path => exact (safe_rmdir path i).mono fun _ _ _ h => h.2
  | rename | stat | openFile | close | unlink => cases h

end FalconFS
