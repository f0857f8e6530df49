/-
# What a parsed path guarantees

A handler acts on the key that `PathParseTreeInsert` hands out.  What makes that safe is in the
transaction's own history: the directory above the target, and every directory above that one, has
been looked up under a lock that the transaction still holds, or has been created by the
transaction itself.  The tree only remembers this, so its invariant (`TreeOk`) ties every node to
the lookup that made it.

`OpOk` collects the conditions that the operations of all handlers meet, among them the discipline
the dir-path hash expects of its callers.
-/
import FalconFS.Metadb.MetaHandle

namespace FalconFS

open List

/-! ## 1. Conditions on operations -/

/-- The keys under which a command stores new rows. -/
def SubRequest.stores : SubRequest → List Key
  | .mkdirSubMkdir es | .mkdirSubCreate es => es.map (·.key)
  | .renameSubRenameLocally p => [p.dst]
  | .renameSubCreate k _ => [k]
  | .rmdirSubRmdir _ | .rmdirSubUnlink _ => []

/-- What holds when a program on server `i`, working for the coordinator's commands `cmds`, performs
an operation after history `h`; new rows are stored under keys of `N` only. -/
def OpOkIn (N : Key → Prop) (cfg : Config) (i : ServerId) (cmds : List SubRequest)
    (h : List Entry) : ServerOp → Prop
  | .hash op k mode =>
    (op = .search ∨ mode = .exclusive ∨ mode = .none ∧ (k, .exclusive) ∈ locksOf h) ∧
      ∀ id, op = .insert id → N k
  | .nextInodeId => True
  | .inode (.insert k _) => cfg.owner k = i ∧ N k
  | .inode (.scan _ p) => ∃ k, .rmdirSubRmdir k ∈ cmds ∧ Saw h k .exclusive (some p)
  | .inode .rollbackSub => cmds = []
  | .inode _ => True
  | .remote sent => i = cnServerId ∧ (∀ c ∈ sent, c.1 ∈ cfg.workers) ∧
      (∀ w k, (w, .rmdirSubRmdir k) ∈ sent → (k, .exclusive) ∈ locksOf h) ∧
      ∀ c ∈ sent, ∀ k ∈ c.2.stores, N k

/-- The same for any keys. -/
abbrev OpOk : Config → ServerId → List SubRequest → List Entry → ServerOp → Prop :=
  OpOkIn fun _ => True

/-! ## 2. Directories above -/

/-- `p` is a directory that the transaction has locked, or, where that is allowed, one that it has
locked exclusively or that is among those it creates. -/
def ParentOk (allow : Bool) (h : List Entry) (created : List DirEntry) (p : InodeId) : Prop :=
  (∃ k, Saw h k .shared (some p)) ∨
    allow = true ∧ ∃ k, Saw h k .exclusive (some p) ∨ ⟨k, p⟩ ∈ created

/-- All directories from `p` up are locked in shared mode. -/
inductive SharedChain (h : List Entry) : InodeId → Prop
  | root : SharedChain h 0
  | step {k : Key} {p : InodeId} (hs : Saw h k .shared (some p))
      (hup : SharedChain h k.parentId) : SharedChain h p

variable {h h' : List Entry} {p : InodeId}

theorem ParentOk.mono {allow : Bool} {created : List DirEntry} (hp : ParentOk allow h created p)
    (hs : h <:+ h') : ParentOk allow h' created p := by
  rcases hp with ⟨k, hk⟩ | ⟨ha, k, hk | hk⟩
  · exact .inl ⟨k, hs.subset hk⟩
  · exact .inr ⟨ha, k, .inl (hs.subset hk)⟩
  · exact .inr ⟨ha, k, .inr hk⟩

theorem SharedChain.mono (hp : SharedChain h p) (hs : h <:+ h') : SharedChain h' p := by
  induction hp with
  | root => exact .root
  | step hk _ ih => exact .step (hs.subset hk) ih

/-! ## 3. The tree -/

/-- The walk can pass through the node that these names lead to. -/
inductive Through (tree : PathTree) : List Name → InodeId → Prop
  | root : Through tree [] 0
  | node {n : Name} {cur : List Name} {node : PathNode}
      (hl : tree.lookup (n :: cur) = some node) (hx : node.lockAcquired ≠ .exclusive) :
      Through tree (n :: cur) node.inodeId

/-- The lookup behind a node. -/
def NodeOk (allow : Bool) (h : List Entry) (created : List DirEntry) (k : Key)
    (node : PathNode) : Prop :=
  match node.lockAcquired with
  | .shared => Saw h k .shared (some node.inodeId)
  | .exclusive => True
  | .exclusiveForCreate =>
    allow = true ∧ (Saw h k .exclusive (some node.inodeId) ∨ ⟨k, node.inodeId⟩ ∈ created)

def TreeOk (allow : Bool) (h : List Entry) (created : List DirEntry) (tree : PathTree) : Prop :=
  ∀ n cur node, tree.lookup (n :: cur) = some node →
    ∃ p, Through tree cur p ∧ NodeOk allow h created ⟨p, n⟩ node

section Tree

variable {allow : Bool} {h h' : List Entry} {created created' : List DirEntry} {tree : PathTree}

theorem treeOk_nil : TreeOk allow h created [] := fun _ _ _ hl => by simp at hl

theorem NodeOk.mono {k : Key} {node : PathNode} (hn : NodeOk allow h created k node)
    (hs : h <:+ h') (hc : created ⊆ created') : NodeOk allow h' created' k node := by
  unfold NodeOk at hn ⊢
  split at hn
  · exact hs.subset hn
  · trivial
  · exact ⟨hn.1, hn.2.imp (fun hk => hs.subset hk) fun hk => hc hk⟩

theorem TreeOk.mono (ht : TreeOk allow h created tree) (hs : h <:+ h')
    (hc : created ⊆ created') : TreeOk allow h' created' tree := by
  intro n cur node hl
  obtain ⟨p, hp, hn⟩ := ht n cur node hl
  exact ⟨p, hp, hn.mono hs hc⟩

theorem lookup_cons_ne {cur cur' : List Name} {node : PathNode} (hne : cur' ≠ cur) :
    List.lookup cur' ((cur, node) :: tree) = tree.lookup cur' := by
  have hbeq : (cur' == cur) = false := by simpa using hne
  simp [lookup_cons, hbeq]

theorem Through.cons {cur cur' : List Name} {node : PathNode} {p : InodeId}
    (hnew : tree.lookup cur = none) (ht : Through tree cur' p) :
    Through ((cur, node) :: tree) cur' p := by
  cases ht with
  | root => exact .root
  | node hl hx =>
    refine .node ?_ hx
    rw [lookup_cons_ne fun heq => ?_]
    · exact hl
    · rw [heq, hnew] at hl
      cases hl

/-- A new node below one that the walk has reached. -/
theorem TreeOk.cons (ht : TreeOk allow h created tree) {n : Name} {cur : List Name} {p : InodeId}
    {node : PathNode} (hnew : tree.lookup (n :: cur) = none) (hcur : Through tree cur p)
    (hnode : NodeOk allow h created ⟨p, n⟩ node) :
    TreeOk allow h created ((n :: cur, node) :: tree) := by
  intro n' cur' node' hl
  by_cases heq : n' :: cur' = n :: cur
  · cases heq
    simp only [lookup_cons, beq_self_eq_true, Option.some.injEq] at hl
    rw [← hl]
    exact ⟨p, hcur.cons hnew, hnode⟩
  · rw [lookup_cons_ne heq] at hl
    obtain ⟨p', hp', hn'⟩ := ht n' cur' node' hl
    exact ⟨p', hp'.cons hnew, hn'⟩

theorem Through.parentOk (ht : TreeOk allow h created tree) {cur : List Name} {p : InodeId}
    (hp : Through tree cur p) (hcur : cur ≠ []) : ParentOk allow h created p := by
  cases hp with
  | root => exact absurd rfl hcur
  | node hl hx =>
    obtain ⟨q, -, hn⟩ := ht _ _ _ hl
    unfold NodeOk at hn
    split at hn
    · exact .inl ⟨_, hn⟩
    · rename_i hlock
      exact absurd hlock hx
    · exact .inr ⟨hn.1, _, hn.2⟩

/-- Without directories of its own, the walk goes through shared locks only. -/
theorem Through.sharedChain (ht : TreeOk false h created tree) :
    ∀ {cur : List Name} {p : InodeId}, Through tree cur p → SharedChain h p
  | _, _, .root => .root
  | n :: cur, _, .node hl hx => by
    obtain ⟨q, hq, hn⟩ := ht n cur _ hl
    unfold NodeOk at hn
    split at hn
    · exact .step hn (Through.sharedChain ht hq)
    · rename_i hlock
      exact absurd hlock hx
    · cases hn.1

end Tree

/-! ## 4. The walk -/

section Parse

variable {N : Key → Prop} {cfg : Config} {i : ServerId} {cmds : List SubRequest} {allow : Bool}
  {created : List DirEntry}

/-- What the walk leaves behind. -/
structure WalkPost (allow : Bool) (created : List DirEntry) (depth : Nat) (h h' : List Entry)
    (r : PathTree × Except ErrorCode (List Name × InodeId)) : Prop where
  looks : OnlyLooks h h'
  ids : idsOf h' = idsOf h
  tree : TreeOk allow h' created r.1
  through : ∀ cur p, r.2 = .ok (cur, p) → Through r.1 cur p ∧ cur.length = depth

theorem safe_search {α : Type} {Q : List Entry → α → Prop} {h : List Entry} {k : Key}
    {mode : DirLockMode} {f : Option InodeId → Handler α}
    (hf : ∀ v, Prog.Safe (OpOkIn N cfg i cmds) Q (⟨.hash .search k mode, v⟩ :: h) (f v)) :
    Prog.Safe (OpOkIn N cfg i cmds) Q h (Handler.search k mode >>= f) :=
  ⟨⟨.inl rfl, nofun⟩, hf⟩

theorem safe_walk (ns : List Name) : ∀ (tree : PathTree) (cur : List Name) (p : InodeId)
    (h : List Entry), TreeOk allow h created tree → Through tree cur p →
      Prog.Safe (OpOkIn N cfg i cmds) (WalkPost allow created (cur.length + ns.length) h) h
        (walk tree cur p ns) := by
  induction ns with
  | nil =>
    intro tree cur p h ht hp
    refine ⟨.refl h, rfl, ht, ?_⟩
    rintro cur' p' hr
    cases hr
    exact ⟨hp, rfl⟩
  | cons n ns ih =>
    intro tree cur p h ht hp
    have hdepth : cur.length + (n :: ns).length = (n :: cur).length + ns.length := by
      rw [length_cons, length_cons, Nat.add_assoc, Nat.add_comm 1]
    rw [walk, hdepth]
    split
    · rename_i node hl
      split
      · exact ⟨.refl h, rfl, ht, by simp⟩
      · rename_i hx
        exact ih tree (n :: cur) node.inodeId h ht (.node hl hx)
    · rename_i hnew
      refine safe_search fun v => ?_
      have hlook := onlyLooks_search h ⟨p, n⟩ .shared v
      have ht' := ht.mono hlook.suffix (List.Subset.refl created)
      cases v with
      | none => exact ⟨hlook, rfl, ht', by simp⟩
      | some id =>
        have hnode : NodeOk allow (⟨.hash .search ⟨p, n⟩ .shared, some id⟩ :: h) created ⟨p, n⟩
            ⟨id, .shared⟩ := mem_cons_self
        have htree := ht'.cons hnew hp hnode
        have hl : lookup (n :: cur) ((n :: cur, (⟨id, .shared⟩ : PathNode)) :: tree) =
            some ⟨id, .shared⟩ := by simp
        have hcur : Through ((n :: cur, ⟨id, .shared⟩) :: tree) (n :: cur) id :=
          .node hl (by simp)
        refine (ih _ _ _ _ htree hcur).mono fun h' r _ hr => ?_
        exact ⟨hlook.trans hr.looks, hr.ids, hr.tree, hr.through⟩

/-! ## 5. The target -/

/-- The output parameters for a path. -/
def TargetOf (p : Path) (g : PathTarget) : Prop :=
  p.names.getLast? = some g.fileName ∧ (p.names.length = 1 → g.parentId = 0)

abbrev KeyIs (k : Key) (_ : List Entry) (g : PathTarget) : Prop := g.key = k

/-- ... and the directory above the target. -/
structure Parsed (allow : Bool) (created : List DirEntry) (flag : PathParseFlag) (p : Path)
    (h : List Entry) (g : PathTarget) : Prop where
  target : TargetOf p g
  notRoot : flag.notRoot = true → p.isRoot = false
  parent : p.names.length ≠ 1 → ParentOk allow h created g.parentId

theorem TargetOf.key_eq_rootKey {p : Path} {g : PathTarget} (hg : TargetOf p g)
    (hroot : p.isRoot = true) : g.key = rootKey := by
  obtain ⟨bytes⟩ := p
  obtain rfl : bytes = [slash] := by simpa [Path.isRoot] using hroot
  obtain ⟨hname, hparent⟩ := hg
  rw [PathTarget.key, hparent rfl, ← Option.some.inj hname]
  rfl

section

variable (allow : Bool) (created : List DirEntry) (flag : PathParseFlag) (input : InodeId)
  (T : List Entry → PathTarget → Prop) (h h' : List Entry)

include h h'

/-- What a handler knows about a target it gets; `T` says what it is the target of. -/
structure TargetOk (tree : PathTree)
    (g : PathTarget) : Prop where
  target : T h' g
  chain : allow = false → SharedChain h' g.parentId
  tree : TreeOk allow h' (created ++ [⟨g.key, g.inodeId⟩]) tree
  isNew : flag.targetToBeCreated = true → flag.targetIsDirectory = true →
    Saw h' g.key .exclusive none
  drawn : flag.targetToBeCreated = true → flag.inodeIdForInput = false →
    idsOf h' = g.inodeId :: idsOf h
  given : flag.targetToBeCreated = true → flag.inodeIdForInput = true → g.inodeId = input
  isOld : flag.targetToBeCreated = false → flag.targetToBeDeleted = true →
    flag.targetIsDirectory = true → Saw h' g.key .exclusive (some g.inodeId)

structure ParsePost (r : PathTree × Except ErrorCode PathTarget) : Prop where
  looks : OnlyLooks h h'
  ids : idsOf h <:+ idsOf h'
  onError : ∀ e, r.2 = .error e → TreeOk allow h' created r.1
  onOk : ∀ g, r.2 = .ok g → TargetOk allow created flag input T h h' r.1 g

end

section Target

variable {flag : PathParseFlag} {input : InodeId} {tree : PathTree} {cur : List Name}
  {p : InodeId} {h : List Entry}

variable {h' : List Entry} {k : Key} {id : InodeId} {T : List Entry → PathTarget → Prop}

theorem parsePost_error {e : ErrorCode} (hlook : OnlyLooks h h') (hids : idsOf h <:+ idsOf h')
    (ht : TreeOk allow h' created tree) :
    ParsePost allow created flag input T h h' (tree, .error e) :=
  ⟨hlook, hids, fun _ _ => ht, fun _ hg => by cases hg⟩

/-- The node of a directory that exists, or that the transaction will add to `created`. -/
theorem nodeOk_locked (hallow : flag.allowOperationUnderCreatedDirectory = allow)
    (hs : allow = true → Saw h' k .exclusive (some id) ∨ ⟨k, id⟩ ∈ created) :
    NodeOk allow h' created k ⟨id,
      if flag.allowOperationUnderCreatedDirectory then .exclusiveForCreate else .exclusive⟩ := by
  cases allow with
  | false =>
    rw [if_neg (by simp [hallow])]
    trivial
  | true =>
    rw [if_pos hallow]
    exact ⟨rfl, hs rfl⟩

variable (ht : TreeOk allow h created tree) (hp : Through tree cur p)

include ht hp

/-- A target that is left alone. -/
theorem targetOk_plain (hlook : OnlyLooks h h') {n : Name}
    (hcreate : flag.targetToBeCreated = true → flag.targetIsDirectory = false ∧
      (flag.inodeIdForInput = false → idsOf h' = id :: idsOf h) ∧
      (flag.inodeIdForInput = true → id = input))
    (hdelete : flag.targetToBeCreated = false →
      (flag.targetToBeDeleted && flag.targetIsDirectory) = false) :
    TargetOk allow created flag input (KeyIs ⟨p, n⟩) h h' tree ⟨p, n, id⟩ where
  target := rfl
  chain ha := by
    subst ha
    exact (hp.sharedChain ht).mono hlook.suffix
  tree := ht.mono hlook.suffix (subset_append_left _ _)
  isNew hc hd := by simp [(hcreate hc).1] at hd
  drawn hc hi := (hcreate hc).2.1 hi
  given hc hi := (hcreate hc).2.2 hi
  isOld hc hdel hdir := by simp [hdel, hdir] at hdelete; simp [hdelete] at hc

theorem safe_deleteTarget (hc : flag.targetToBeCreated = false) (n : Name) :
    Prog.Safe (OpOkIn N cfg i cmds) (ParsePost allow created flag input (KeyIs ⟨p, n⟩) h) h
      (deleteTarget tree cur p n) := by
  rw [deleteTarget]
  split
  · exact parsePost_error (.refl h) (suffix_refl _) ht
  · rename_i hnew
    refine safe_search fun v => ?_
    have hlook := onlyLooks_search h ⟨p, n⟩ .exclusive v
    have ht' := ht.mono hlook.suffix (List.Subset.refl created)
    cases v with
    | none => exact parsePost_error hlook (suffix_refl _) ht'
    | some id =>
      refine ⟨hlook, suffix_refl _, by simp, ?_⟩
      rintro g hg
      cases hg
      have hnode : NodeOk allow (⟨.hash .search ⟨p, n⟩ .exclusive, some id⟩ :: h) created ⟨p, n⟩
          ⟨id, .exclusive⟩ := trivial
      exact {
        target := rfl
        chain := fun ha => by
          subst ha
          exact (hp.sharedChain ht).mono hlook.suffix
        tree := (ht'.cons hnew hp hnode).mono (suffix_refl _)
          (subset_append_left _ _)
        isNew := fun hc' => by simp [hc] at hc'
        drawn := fun hc' => by simp [hc] at hc'
        given := fun hc' => by simp [hc] at hc'
        isOld := fun _ _ _ => mem_cons_self }

theorem safe_createTarget (hc : flag.targetToBeCreated = true)
    (hallow : flag.allowOperationUnderCreatedDirectory = allow)
    (hinput : allow = true → flag.inodeIdForInput = false) (n : Name) :
    Prog.Safe (OpOkIn N cfg i cmds) (ParsePost allow created flag input (KeyIs ⟨p, n⟩) h) h
      (createTarget flag input tree cur p n) := by
  rw [createTarget]
  split
  · exact parsePost_error (.refl h) (suffix_refl _) ht
  · rename_i hnew
    refine safe_search fun v => ?_
    have hlook := onlyLooks_search h ⟨p, n⟩ .exclusive v
    -- the end of the branch, after the id has been chosen with history `h'`
    have hnone : ∀ h' id, v = none → OnlyLooks h h' → Saw h' ⟨p, n⟩ .exclusive none →
        (flag.inodeIdForInput = false → idsOf h' = id :: idsOf h) →
        (flag.inodeIdForInput = true → id = input) →
        TargetOk allow created flag input (KeyIs ⟨p, n⟩) h h' ((n :: cur, ⟨id,
          if flag.allowOperationUnderCreatedDirectory then .exclusiveForCreate
          else .exclusive⟩) :: tree) ⟨p, n, id⟩ := by
      intro h' id _ hl hsaw hdrawn hgiven
      exact {
        target := rfl
        chain := fun ha => by
          subst ha
          exact (hp.sharedChain ht).mono hl.suffix
        tree := (ht.mono hl.suffix (subset_append_left _ _)).cons hnew hp
          (nodeOk_locked hallow fun _ => .inr (mem_append_right _ mem_cons_self))
        isNew := fun _ _ => hsaw
        drawn := fun _ => hdrawn
        given := fun _ => hgiven
        isOld := fun hc' => by simp [hc] at hc' }
    cases v with
    | some e =>
      have htree : ∀ id, (flag.inodeIdForInput = false → id = e) →
          TreeOk allow (⟨.hash .search ⟨p, n⟩ .exclusive, some e⟩ :: h) created ((n :: cur, ⟨id,
            if flag.allowOperationUnderCreatedDirectory then .exclusiveForCreate
            else .exclusive⟩) :: tree) := by
        intro id hid
        refine (ht.mono hlook.suffix (List.Subset.refl created)).cons hnew hp ?_
        refine nodeOk_locked hallow fun ha => .inl ?_
        rw [hid (hinput ha)]
        exact mem_cons_self
      cases hi : flag.inodeIdForInput with
      | true => exact parsePost_error hlook (suffix_refl _) (htree input (by simp [hi]))
      | false => exact parsePost_error hlook (suffix_refl _) (htree e fun _ => rfl)
    | none =>
      cases hi : flag.inodeIdForInput with
      | true =>
        refine ⟨hlook, suffix_refl _, (fun e he => by cases he), ?_⟩
        rintro g hg
        cases hg
        exact hnone _ input rfl hlook mem_cons_self (by simp [hi]) fun _ => rfl
      | false =>
        refine ⟨trivial, fun id => ?_⟩
        have hl' := hlook.trans (onlyLooks_nextInodeId _ id)
        refine ⟨hl', suffix_cons _ _, (fun e he => by cases he), ?_⟩
        rintro g hg
        cases hg
        exact hnone _ id rfl hl' (mem_cons_of_mem _ mem_cons_self) (fun _ => rfl)
          (by simp [hi])

theorem safe_handleTarget (hallow : flag.allowOperationUnderCreatedDirectory = allow)
    (hinput : allow = true → flag.inodeIdForInput = false) (n : Name) :
    Prog.Safe (OpOkIn N cfg i cmds) (ParsePost allow created flag input (KeyIs ⟨p, n⟩) h) h
      (handleTarget flag input tree cur p n) := by
  have hplain : ∀ {h' : List Entry} {id : InodeId}, OnlyLooks h h' → idsOf h <:+ idsOf h' →
      TargetOk allow created flag input (KeyIs ⟨p, n⟩) h h' tree ⟨p, n, id⟩ →
      ParsePost allow created flag input (KeyIs ⟨p, n⟩) h h' (tree, .ok ⟨p, n, id⟩) := by
    intro h' id hl hids htarget
    refine ⟨hl, hids, (fun e he => by cases he), ?_⟩
    rintro g hg
    cases hg
    exact htarget
  rw [handleTarget]
  cases hc : flag.targetToBeCreated with
  | true =>
    cases hd : flag.targetIsDirectory with
    | true => exact safe_createTarget ht hp hc hallow hinput n
    | false =>
      cases hi : flag.inodeIdForInput with
      | true =>
        refine hplain (.refl h) (suffix_refl _) (targetOk_plain ht hp (.refl h) ?_ ?_)
        · exact fun _ => ⟨hd, by simp [hi], fun _ => rfl⟩
        · simp [hc]
      | false =>
        refine ⟨trivial, fun id => ?_⟩
        have hl := onlyLooks_nextInodeId h id
        refine hplain hl (suffix_cons _ _) (targetOk_plain ht hp hl ?_ ?_)
        · exact fun _ => ⟨hd, fun _ => rfl, by simp [hi]⟩
        · simp [hc]
  | false =>
    simp only [Bool.false_eq_true, if_false]
    split
    · exact safe_deleteTarget ht hp hc n
    · rename_i hdel
      refine hplain (.refl h) (suffix_refl _) (targetOk_plain ht hp (.refl h) ?_ ?_)
      · simp [hc]
      · exact fun _ => by simpa using hdel

end Target

/-- **What a parsed path guarantees.** -/
theorem safe_pathParseTreeInsert {flag : PathParseFlag} {input : InodeId} {tree : PathTree}
    {h : List Entry} (ht : TreeOk allow h created tree)
    (hallow : flag.allowOperationUnderCreatedDirectory = allow)
    (hinput : allow = true → flag.inodeIdForInput = false) (p : Path) :
    Prog.Safe (OpOkIn N cfg i cmds)
      (ParsePost allow created flag input (Parsed allow created flag p) h) h
      (pathParseTreeInsert tree p flag input) := by
  rw [pathParseTreeInsert]
  split
  · exact parsePost_error (.refl h) (suffix_refl _) ht
  · rename_i hnot
    refine (safe_walk _ tree [] 0 h ht .root).seq fun h₁ r _ hw => ?_
    obtain ⟨tree₁, r⟩ := r
    cases r with
    | error e => exact parsePost_error hw.looks (by rw [hw.ids]) hw.tree
    | ok c =>
      obtain ⟨cur, curId⟩ := c
      obtain ⟨hcur, hlen⟩ := hw.through cur curId rfl
      refine (safe_handleTarget hw.tree hcur hallow hinput _).mono fun h' r _ hr => ?_
      refine ⟨hw.looks.trans hr.looks, by rw [← hw.ids]; exact hr.ids, hr.onError, ?_⟩
      intro g hg
      have hok := hr.onOk g hg
      obtain ⟨hid, hn⟩ := Key.mk.inj hok.target
      have hdepth : cur.length = p.names.length - 1 := by simpa using hlen
      have hroot : p.names.length = 1 → g.parentId = 0 := by
        intro hone
        rw [hone] at hdepth
        obtain rfl := length_eq_zero_iff.mp hdepth
        cases hcur
        exact hid
      have habove : p.names.length ≠ 1 → ParentOk allow h' created g.parentId := by
        intro hne
        have hpos := length_pos_iff.mpr p.names_ne_nil
        have hcur' : cur ≠ [] := length_pos_iff.mp (by omega)
        rw [hid]
        exact (hcur.parentOk hw.tree hcur').mono hr.looks.suffix
      exact { hok with
        target := ⟨⟨hn ▸ getLast?_eq_some_getLast _, hroot⟩, fun hf => by simpa [hf] using hnot,
          habove⟩
        drawn := fun hc hi => by rw [hok.drawn hc hi, hw.ids] }

end Parse

end FalconFS
