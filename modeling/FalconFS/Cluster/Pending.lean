/-
# What a live transaction can rely on

Between its first step and its commit a transaction collects facts: values it has looked up under
a lock, rows it has replaced, scans that found nothing, inode ids it has drawn.  This module says
which of them are still facts when it commits, however many other transactions have committed
since.

* A value looked up under a lock stays the committed one (`Knows.saw`): the commit that changes it
  would need the exclusive lock.
* What a write has replaced stays what it was (`Knows.puts`): the others wait for the row.
* No two transactions have drawn the same inode id, and none of the ids is in use (`Drawn`), as long
  as no bit of the numbers is lost (`Draws`).
* A scan of a directory stays true (`Knows.scans`) as long as nobody commits a row below it; who
  could do that is the subject of the next module.

All this rests on lookups that return the committed value, so the runs are those in which every
value that is filled into a hash is current (`Fills`).
-/
import FalconFS.Cluster.Replication
import FalconFS.Metadb.PutSpec

namespace FalconFS.Cluster

open Function DirPathHash List

open DirPathHash (Server Coherent Answers FillOk rwMode applyWrites)
open InodeSequence (IsNewNumber toNat_generateInodeIdBySeqAndNodeId)

/-! ## 1. The servers -/

/-- A value that is filled into the hash of a server is current. -/
def Fills (s : State) : Event → Prop
  | .advance t i c => FillOk (s.srv i) (.advance t c)
  | _ => True

/-- What a server does in a step of the cluster: nothing, or a step of its own, which is a step of a
call only if the cluster's is. -/
def ServerDoes (e : Event) (i : ServerId) (x x' : Server) : Prop :=
  x' = x ∨ ∃ e' : DirPathHash.Event, e'.isLocal = true ∧ DirPathHash.step x e' = some x' ∧
    ∀ t c, e' = .advance t c → e = .advance t i c

variable {s s' : State} {i : ServerId} {e : Event} {e' : DirPathHash.Event} {cfg : Config}

theorem serverDoes_setServer {y : Server} (hl : e'.isLocal = true)
    (hy : DirPathHash.step (s.srv i) e' = some y)
    (ha : ∀ t c, e' = .advance t c → e = .advance t i c) (j : ServerId) :
    ServerDoes e j (s.srv j) ((s.setServer i y).srv j) := by
  by_cases hj : j = i
  · subst hj
    rw [setServer_srv_self]
    exact .inr ⟨e', hl, hy, ha⟩
  · exact .inl (setServer_srv_ne s y hj)

theorem serverDoes_getD {x : Server} (hl : e'.isLocal = true) (ha : ∀ t c, e' ≠ .advance t c) :
    ServerDoes e i x ((DirPathHash.step x e').getD x) := by
  cases hs : DirPathHash.step x e' with
  | none => exact .inl rfl
  | some x' => exact .inr ⟨e', hl, hs, fun t c he => absurd he (ha t c)⟩

theorem Move.server (hm : Move cfg s e s') (i : ServerId) :
    ServerDoes e i (s.srv i) (s'.srv i) := by
  cases hm with
  | start _ _ _ hy => exact serverDoes_setServer rfl hy (by simp) i
  | call _ _ hy | ret _ _ _ hy | applyToCommit hy | release hy | evict hy =>
    exact serverDoes_setServer rfl hy (by simp) i
  | advance _ hy =>
    exact serverDoes_setServer rfl hy (by rintro t c he; cases he; rfl) i
  | nextInodeId | inode | receive => exact .inl rfl
  | send =>
    simp only [setTxn_srv, sendServers]
    split
    · exact .inl rfl
    · exact serverDoes_getD rfl (by simp)
  | commit | abort => exact serverDoes_getD rfl (by simp)

/-- The hash of every server tells the truth, and so do its lookups. -/
structure Truthful (s : State) : Prop where
  coherent : ∀ i, Coherent (s.srv i)
  answers : ∀ i, Answers (s.srv i)

theorem truthful_init (table : Key → Option InodeId) (inode : ServerId → InodeTable)
    (seq : ServerId → List Nat) : Truthful (.init table inode seq) :=
  ⟨fun _ => coherent_init table, fun _ => answers_init table⟩

theorem truthful_move (hb : Base cfg s) (ht : Truthful s) (hf : Fills s e) (hm : Move cfg s e s') :
    Truthful s' := by
  have hone : ∀ i, Coherent (s'.srv i) ∧ Answers (s'.srv i) := by
    intro i
    rcases hm.server i with heq | ⟨e', hl, hs, ha⟩
    · rw [heq]
      exact ⟨ht.coherent i, ht.answers i⟩
    · have hfill : FillOk (s.srv i) e' := by
        cases e' with
        | advance t c =>
          rw [ha t c rfl] at hf
          exact hf
        | _ => trivial
      have hsteady := steady_of_isLocal (hb.plain i).prepared hl hfill
      exact ⟨coherent_step (ht.coherent i) hsteady hs,
        answers_step (ht.answers i) (ht.coherent i) hl hs⟩
  exact ⟨fun i => (hone i).1, fun i => (hone i).2⟩

/-! ## 2. Histories grow -/

/-- The ids of directories keep their bits, also where they are shifted for the keys of the inode
tables: the coordinator's numbers are below `2 ^ 39`. -/
def Draws : Event → Prop
  | .nextInodeId _ i n => i = cnServerId → n < 2 ^ 39
  | _ => True

/-- The histories of a transaction after a step: the old ones, or one entry more on one server. -/
inductive Grows (cfg : Config) (s s' : State) (t : Sid) (x : Txn) :
    (ServerId → List Entry) → Prop
  | same : Grows cfg s s' t x x.log
  | call {i : ServerId} {op : DirPathHash.Op} {k : Key} {mode : DirLockMode}
      {f : Option InodeId → Process} {r : Option InodeId}
      (hprog : x.prog i = .op (.hash op k mode) f) (hr : returned (s.srv i) t = some r) :
      Grows cfg s s' t x (update x.log i (⟨.hash op k mode, r⟩ :: x.log i))
  | draw (i : ServerId) (n : Nat) (hseq : s'.seq = update s.seq i (n :: s.seq i))
      (hn : IsNewNumber (s.seq i) n) (hlt : i = cnServerId → n < 2 ^ 39) :
      Grows cfg s s' t x (update x.log i (⟨.nextInodeId, generateInodeId n i⟩ :: x.log i))
  | inode {i : ServerId} (o : InodeOp)
      (hfree : s.blocked t i (o.waitsFor (o.result cfg.shard (s.view x i))) = false) :
      Grows cfg s s' t x
        (update x.log i (⟨.inode o, o.result cfg.shard (s.view x i)⟩ :: x.log i))
  | receive (cmds : List (ServerId × SubRequest)) (r : ServerId → List SubReply) :
      Grows cfg s s' t x (update x.log x.home (⟨.remote cmds, r⟩ :: x.log x.home))

/-- **A transaction after a step** is new, or was there before and has grown. -/
theorem Move.log (hm : Move cfg s e s') (hd : Draws e) {u : Sid} {x' : Txn}
    (hx' : s'.txn u = some x') :
    s.txn u = none ∧ x'.log = (fun _ => []) ∨
      ∃ x, s.txn u = some x ∧ Grows cfg s s' u x x'.log := by
  by_cases hu : e.sid = some u
  · have hsame : ∀ {s₁ : State} {t : Sid} {x : Txn}, some t = some u → s.txn t = some x →
        s₁.txn = s.txn → s₁.txn u = some x' →
          ∃ x, s.txn u = some x ∧ Grows cfg s s' u x x'.log := by
      rintro s₁ t x ht hx heq hx₁
      cases ht
      rw [heq, hx] at hx₁
      cases hx₁
      exact ⟨_, hx, .same⟩
    cases hm with
    | start hx =>
      cases hu
      rw [setTxn_txn_self] at hx'
      cases hx'
      exact .inl ⟨hx, rfl⟩
    | call hx | advance hx => exact .inr (hsame hu hx rfl hx')
    | @ret t i x op k mode f r y hx hprog hr =>
      cases hu
      rw [setTxn_txn_self] at hx'
      cases hx'
      exact .inr ⟨x, hx, .call hprog hr⟩
    | @nextInodeId t i n x f hx hprog hn =>
      cases hu
      rw [setTxn_txn_self] at hx'
      cases hx'
      exact .inr ⟨x, hx, .draw i n rfl hn hd⟩
    | @inode t i x o f hx hprog hfree =>
      cases hu
      rw [setTxn_txn_self] at hx'
      cases hx'
      exact .inr ⟨x, hx, .inode o hfree⟩
    | @send t x cmds f hx =>
      cases hu
      rw [setTxn_txn_self] at hx'
      cases hx'
      exact .inr ⟨x, hx, .same⟩
    | @receive t x cmds f hx =>
      cases hu
      rw [setTxn_txn_self] at hx'
      cases hx'
      exact .inr ⟨x, hx, .receive cmds _⟩
    | commit | abort =>
      cases hu
      rw [setTxn_txn_self] at hx'
      cases hx'
    | applyToCommit | release => exact .inr ⟨x', hx', .same⟩
    | evict => cases hu
  · rw [(hm.frame hu).1] at hx'
    exact .inr ⟨x', hx', .same⟩

/-! ## 3. Locks -/

section Locks

variable {cfg : Config} {s : State} {t u : Sid} {x y : Txn} (hb : Base cfg s)
  (hx : s.txn t = some x)

include hb hx

variable {i : ServerId} {k : Key} {m : RWLockMode}

/-- The locks of a history are held by the session. -/
theorem held_of_mem_locksOf {l : Key × RWLockMode} (hl : l ∈ locksOf (x.log i)) :
    l ∈ ((s.srv i).session t).held := by
  have hok := (hb.own t).txn x hx
  by_cases hr : x.runs i
  · exact (hok.runs i hr).locks hl
  · rw [(hok.rests i hr).2.1] at hl
    cases hl

/-- **Exclusion between transactions.** -/
theorem exclusive_alone (hy : s.txn u = some y) (hk : (k, .exclusive) ∈ locksOf (x.log i))
    (hm : m ≠ .declare) (hl : (k, m) ∈ locksOf (y.log i)) : u = t ∧ m = .exclusive := by
  obtain ⟨hu, hme, _⟩ := (hb.plain i).lock.exclusive_unique (held_of_mem_locksOf hb hx hk) hm
    (held_of_mem_locksOf hb hy hl)
  exact ⟨hu, hme⟩

/-- A commit leaves what another transaction has locked. -/
theorem applyWrites_of_locked (hret : ∀ i ∈ cfg.servers, (x.prog i).isRet = true)
    (hy : s.txn u = some y) (hne : u ≠ t) (hm : m ≠ .declare) (hl : (k, m) ∈ locksOf (y.log i)) :
    applyWrites (writesOf (x.log i)) (s.srv i).table k = (s.srv i).table k := by
  by_cases hr : x.runs i
  · rw [← (hb.between hx hret hr).2.2.2]
    exact (hb.plain i).lock.commit_table t (held_of_mem_locksOf hb hy hl) hm hne
  · rw [(((hb.own t).txn x hx).rests i hr).2.1]
    rfl

/-- A lookup that takes a lock returns the committed value. -/
theorem table_of_returned (htr : Truthful s) {op : DirPathHash.Op} {mode : DirLockMode}
    {f : Option InodeId → Process} {r : Option InodeId} (hprog : x.prog i = .op (.hash op k mode) f)
    (hr : returned (s.srv i) t = some r) (hop : op = .search) (hmode : mode ≠ .none) :
    (s.srv i).table k = r := by
  obtain ⟨c, hc, hst⟩ := call_of_returned hr
  have hsess := (hb.plain i).lock.ok t
  have hact : ((s.srv i).session t).phase = .active := by
    by_contra hne
    rw [hsess.quiet hne] at hc
    cases hc
  have hok := (hb.own t).txn x hx
  have hm := hok.runs i (hok.runs_of (by simp [hact]))
  rw [hprog] at hm
  cases hm with
  | between _ hc' => simp [hc'] at hc
  | failed hp => simp [hact] at hp
  | calling c' _ hc' =>
    rw [hc'] at hc
    cases hc
    cases hl : rwMode c.mode with
    | none => cases hmd : c.mode <;> simp_all [rwMode]
    | some m => exact ((htr.answers i t c hc').answer r m hop hl hst).2.symm

end Locks

theorem locked_of_saw {h : List Entry} {k : Key} {mode : DirLockMode} {v : Option InodeId}
    (hs : Saw h k mode v) (hmode : mode ≠ .none) : ∃ m, m ≠ .declare ∧ (k, m) ∈ locksOf h := by
  cases mode with
  | none => exact absurd rfl hmode
  | shared => exact ⟨.shared, by simp, hs.shared_mem⟩
  | exclusive => exact ⟨.exclusive, by simp, hs.exclusive_mem⟩

/-! ## 4. What one transaction knows -/

structure Knows (cfg : Config) (s : State) (log : ServerId → List Entry) : Prop where
  /-- A value looked up under a lock is the committed one. -/
  saw : ∀ i k mode v, mode ≠ .none → Saw (log i) k mode v → (s.srv i).table k = v
  /-- The inode writes are linked to each other and to the committed rows. -/
  puts : ∀ i, Chained (putsOf (log i)) (s.inode i)
  /-- A scan that has found nothing would find nothing now. -/
  scans : ∀ i n p h, (⟨.inode (.scan n p), false⟩ :: h : List Entry) <:+ log i →
    ∀ k, cfg.shard k = n → k.parentId = p →
      AList.lookup k (applyPuts (putsOf h) (s.inode i)) = none

section Knows

variable {cfg : Config} {s s' : State} {log : ServerId → List Entry}

theorem knows_nil : Knows cfg s fun _ => [] where
  saw _ _ _ _ _ hs := by cases hs
  puts _ := trivial
  scans _ _ _ _ hs := by simp at hs

theorem Knows.congr (h : Knows cfg s log) (ht : ∀ i, (s'.srv i).table = (s.srv i).table)
    (hi : s'.inode = s.inode) : Knows cfg s' log where
  saw i k mode v hmode hs := by
    rw [ht i]
    exact h.saw i k mode v hmode hs
  puts i := by
    rw [hi]
    exact h.puts i
  scans i n p h' hs k hk hp := by
    rw [hi]
    exact h.scans i n p h' hs k hk hp

/-- One more entry on one server. -/
theorem Knows.cons (h : Knows cfg s log) {i : ServerId} {e : Entry}
    (hsaw : ∀ k mode v, mode ≠ .none → (⟨.hash .search k mode, v⟩ : Entry) = e →
      (s.srv i).table k = v)
    (hputs : Chained (putsOf (e :: log i)) (s.inode i))
    (hscan : ∀ n p, (⟨.inode (.scan n p), false⟩ : Entry) = e → ∀ k, cfg.shard k = n →
      k.parentId = p → AList.lookup k (applyPuts (putsOf (log i)) (s.inode i)) = none) :
    Knows cfg s (update log i (e :: log i)) where
  saw j k mode v hmode hs := by
    by_cases hj : j = i
    · subst hj
      rw [update_self] at hs
      rcases mem_cons.mp hs with heq | hs
      · exact hsaw k mode v hmode heq
      · exact h.saw j k mode v hmode hs
    · rw [update_of_ne hj] at hs
      exact h.saw j k mode v hmode hs
  puts j := by
    by_cases hj : j = i
    · subst hj
      rwa [update_self]
    · rw [update_of_ne hj]
      exact h.puts j
  scans j n p h' hs k hk hp := by
    by_cases hj : j = i
    · subst hj
      rw [update_self] at hs
      rcases suffix_cons_iff.mp hs with heq | hs
      · obtain ⟨he, rfl⟩ := cons.inj heq
        exact hscan n p he k hk hp
      · exact h.scans j n p h' hs k hk hp
    · rw [update_of_ne hj] at hs
      exact h.scans j n p h' hs k hk hp

theorem lookup_of_scan {shard : Key → Nat} {view : InodeTable} {n : Nat} {p : InodeId}
    (h : InodeOp.result shard view (.scan n p) = false) {k : Key} (hk : shard k = n)
    (hp : k.parentId = p) : AList.lookup k view = none := by
  rw [AList.lookup_eq_none]
  intro hmem
  have hany : (view.keys.any fun k => shard k = n ∧ k.parentId = p) = true :=
    any_eq_true.mpr ⟨k, hmem, by simp [hk, hp]⟩
  exact Bool.false_ne_true (h.symm.trans hany)

/-- **A transaction that takes a step goes on knowing.** -/
theorem Knows.grows (hb : Base cfg s) (htr : Truthful s) {t : Sid} {x : Txn}
    (hx : s.txn t = some x) (h : Knows cfg s x.log) (hg : Grows cfg s s' t x log) :
    Knows cfg s log := by
  cases hg with
  | same => exact h
  | @call i op k mode f r hprog hr =>
    refine h.cons ?_ (h.puts i) (by simp)
    intro k' mode' v hmode heq
    cases heq
    exact table_of_returned hb hx htr hprog hr rfl hmode
  | draw i => exact h.cons (by simp) (h.puts i) (by simp)
  | receive cmds r => exact h.cons (by simp) (h.puts x.home) (by simp)
  | @inode i o hfree =>
    refine h.cons (by simp) (chained_cons_inode o cfg.shard (h.puts i)) ?_
    intro n p heq k hk hp
    have ho : InodeOp.scan n p = o := by
      have h₁ := congrArg Sigma.fst heq
      exact ServerOp.inode.inj h₁
    subst ho
    exact lookup_of_scan (eq_of_heq (Sigma.mk.inj heq).2).symm hk hp

end Knows

/-! ## 5. Fresh inode ids -/

section

variable {n : Nat} (hn : n < 2 ^ 39)

include hn

theorem generateInodeId_eq : generateInodeId n cnServerId = n * 2 ^ 12 := by
  have hnode : cnServerId % 2 ^ 12 = 0 := rfl
  rw [generateInodeId, toNat_generateInodeIdBySeqAndNodeId (Nat.lt_trans hn (by decide)), hnode,
    Nat.add_zero]

theorem generateInodeId_lt : generateInodeId n cnServerId < 2 ^ 51 := by
  rw [generateInodeId_eq hn]
  exact Nat.mul_lt_mul_of_pos_right hn (by decide)

theorem generateInodeId_inj {m : Nat} (hm : m < 2 ^ 39)
    (h : generateInodeId m cnServerId = generateInodeId n cnServerId) : m = n := by
  rw [generateInodeId_eq hm, generateInodeId_eq hn] at h
  exact Nat.eq_of_mul_eq_mul_right (by decide) h

end

section

variable (T : Key → Option InodeId) (numbers : List Nat)

/-- Ids that a transaction has made on the coordinator, which has drawn `numbers`, and that the
directory table does not use. -/
structure Drawn (ids : List InodeId) : Prop where
  nodup : ids.Nodup
  old : ∀ id ∈ ids, ∃ m ∈ numbers, 0 < m ∧ m < 2 ^ 39 ∧ id = generateInodeId m cnServerId
  unused : ∀ id ∈ ids, ∀ k, T k ≠ some id

/-- The ids that are still to come are not in use. -/
def SeqOk : Prop :=
  ∀ m, IsNewNumber numbers m → m < 2 ^ 39 → ∀ k, T k ≠ some (generateInodeId m cnServerId)

theorem drawn_nil : Drawn T numbers [] where
  nodup := nodup_nil
  old _ hid := absurd hid not_mem_nil
  unused _ hid := absurd hid not_mem_nil

end

section Drawn

variable {T T' : Key → Option InodeId} {numbers numbers' : List Nat} {ids : List InodeId}

theorem Drawn.mono (h : Drawn T numbers ids) (hsub : numbers ⊆ numbers') :
    Drawn T numbers' ids where
  nodup := h.nodup
  old id hid := by
    obtain ⟨m, hm, heq⟩ := h.old id hid
    exact ⟨m, hsub hm, heq⟩
  unused := h.unused

theorem SeqOk.mono (h : SeqOk T numbers) (hsub : numbers ⊆ numbers') : SeqOk T numbers' :=
  fun m hm => h m ⟨hm.1, fun hmem => hm.2 (hsub hmem)⟩

theorem Drawn.bounds (h : Drawn T numbers ids) {id : InodeId} (hid : id ∈ ids) :
    id ≠ 0 ∧ id < 2 ^ 51 := by
  obtain ⟨m, -, hpos, hlt, rfl⟩ := h.old id hid
  refine ⟨?_, generateInodeId_lt hlt⟩
  rw [generateInodeId_eq hlt]
  exact (Nat.mul_pos hpos (by decide)).ne'

section

variable {n : Nat} (hnew : IsNewNumber numbers n) (hlt : n < 2 ^ 39)

include hnew hlt

/-- The next id is a new one. -/
theorem Drawn.notMem (h : Drawn T numbers ids) : generateInodeId n cnServerId ∉ ids := by
  intro hmem
  obtain ⟨m, hm, -, hmlt, heq⟩ := h.old _ hmem
  exact hnew.2 (generateInodeId_inj hmlt hlt heq ▸ hm)

theorem Drawn.draw (h : Drawn T numbers ids) (hs : SeqOk T numbers) :
    Drawn T (n :: numbers) (generateInodeId n cnServerId :: ids) where
  nodup := nodup_cons.mpr ⟨h.notMem hnew hlt, h.nodup⟩
  old id hid := by
    rcases mem_cons.mp hid with rfl | hid
    · exact ⟨n, mem_cons_self, hnew.1, hlt, rfl⟩
    · exact (h.mono (subset_cons_self _ _)).old id hid
  unused id hid := by
    rcases mem_cons.mp hid with rfl | hid
    · exact hs n hnew hlt
    · exact h.unused id hid

end

/-- A commit brings no ids into the table but those its transaction has drawn. -/
def NewIds (T T' : Key → Option InodeId) (ids : List InodeId) : Prop :=
  ∀ k id, T' k = some id → (∃ k', T k' = some id) ∨ id ∈ ids

theorem SeqOk.commit (h : SeqOk T numbers) (hd : Drawn T numbers ids) (hT : NewIds T T' ids) :
    SeqOk T' numbers := by
  intro m hm hlt k hk
  rcases hT k _ hk with ⟨k', hk'⟩ | hid
  · exact h m hm hlt k' hk'
  · exact hd.notMem hm hlt hid

theorem Drawn.commit {ids' : List InodeId} (h : Drawn T numbers ids) (hT : NewIds T T' ids')
    (hne : ∀ id ∈ ids', id ∉ ids) : Drawn T' numbers ids where
  nodup := h.nodup
  old := h.old
  unused id hid k hk := by
    rcases hT k id hk with ⟨k', hk'⟩ | hid'
    · exact h.unused id hid k' hk'
    · exact hne id hid' hid

end Drawn

variable {cfg : Config} {s s' : State} {e : Event} {t u : Sid} {x y : Txn}
  {log : ServerId → List Entry} {T : Key → Option InodeId} {i : ServerId}

theorem Move.seq_subset (hm : Move cfg s e s') (i : ServerId) : s.seq i ⊆ s'.seq i := by
  cases hm with
  | @nextInodeId t j n x f hx =>
    show s.seq i ⊆ update s.seq j (n :: s.seq j) i
    by_cases hi : i = j
    · subst hi
      rw [update_self]
      exact subset_cons_self _ _
    · rw [update_of_ne hi]
      exact List.Subset.refl _
  | _ => exact List.Subset.refl _

theorem Grows.drawn (hg : Grows cfg s s' t x log) (hsub : s.seq cnServerId ⊆ s'.seq cnServerId)
    (hs : SeqOk T (s.seq cnServerId)) (h : Drawn T (s.seq cnServerId) (idsOf (x.log cnServerId))) :
    Drawn T (s'.seq cnServerId) (idsOf (log cnServerId)) := by
  have hsame : ∀ {i : ServerId} {e : Entry}, idsOf (e :: x.log i) = idsOf (x.log i) →
      Drawn T (s'.seq cnServerId) (idsOf (update x.log i (e :: x.log i) cnServerId)) := by
    intro i e he
    by_cases hi : cnServerId = i
    · subst hi
      rw [update_self, he]
      exact h.mono hsub
    · rw [update_of_ne hi]
      exact h.mono hsub
  cases hg with
  | same => exact h.mono hsub
  | call | inode | receive => exact hsame rfl
  | draw i n hseq hn hlt =>
    by_cases hi : cnServerId = i
    · subst hi
      rw [update_self, hseq, update_self]
      exact h.draw hn (hlt rfl) hs
    · rw [update_of_ne hi]
      exact h.mono hsub

/-! ## 6. What two transactions have apart -/

/-- No row is written by both, no id is drawn by both. -/
structure Apart (log log' : ServerId → List Entry) : Prop where
  puts : ∀ i, ∀ p ∈ putsOf (log i), ∀ q ∈ putsOf (log' i), p.key ≠ q.key
  ids : ∀ id ∈ idsOf (log cnServerId), id ∉ idsOf (log' cnServerId)

theorem Apart.symm {log' : ServerId → List Entry} (h : Apart log log') : Apart log' log :=
  ⟨fun i p hp q hq hk => h.puts i q hq p hp hk.symm, fun id hid hid' => h.ids id hid' hid⟩

theorem apart_nil (log : ServerId → List Entry) : Apart (fun _ => []) log :=
  ⟨fun _ _ hp => absurd hp not_mem_nil, fun _ hid => absurd hid not_mem_nil⟩

theorem key_ne_of_not_blocked {keys : List Key} (h : s.blocked t i keys = false)
    (hy : s.txn u = some y) (hmem : u ∈ s.sids) (hne : u ≠ t)
    {q : Put} (hq : q ∈ putsOf (y.log i)) : q.key ∉ keys := by
  intro hk
  have hany : s.blocked t i keys = true := by
    refine any_eq_true.mpr ⟨u, hmem, ?_⟩
    simp only [hy, Option.any_some, Bool.and_eq_true]
    exact ⟨by simpa using hne, any_eq_true.mpr ⟨q, hq, by simpa using hk⟩⟩
  rw [h] at hany
  cases hany

/-- One more entry on one server. -/
theorem Apart.cons {log log' : ServerId → List Entry} (h : Apart log log') {i : ServerId}
    {e : Entry}
    (hputs : ∀ p ∈ putsOf (e :: log i), p ∈ putsOf (log i) ∨
      ∀ q ∈ putsOf (log' i), p.key ≠ q.key)
    (hids : ∀ id ∈ idsOf (e :: log i), id ∈ idsOf (log i) ∨
      (i = cnServerId → id ∉ idsOf (log' cnServerId))) :
    Apart (update log i (e :: log i)) log' where
  puts j p hp q hq := by
    by_cases hj : j = i
    · subst hj
      rw [update_self] at hp
      rcases hputs p hp with hp | hne
      · exact h.puts j p hp q hq
      · exact hne q hq
    · rw [update_of_ne hj] at hp
      exact h.puts j p hp q hq
  ids id hid := by
    by_cases hi : cnServerId = i
    · subst hi
      rw [update_self] at hid
      rcases hids id hid with hid | hne
      · exact h.ids id hid
      · exact hne rfl
    · rw [update_of_ne hi] at hid
      exact h.ids id hid

/-- **A step of one transaction keeps it apart from another.** -/
theorem Apart.grows (h : Apart x.log y.log) (hg : Grows cfg s s' t x log) (hy : s.txn u = some y)
    (hmem : u ∈ s.sids) (hne : u ≠ t) (hd : Drawn T (s.seq cnServerId) (idsOf (y.log cnServerId))) :
    Apart log y.log := by
  cases hg with
  | same => exact h
  | call | receive => exact h.cons (fun p hp => .inl hp) fun id hid => .inl hid
  | draw i n _ hn hlt =>
    refine h.cons (fun p hp => .inl hp) fun id hid => ?_
    rcases mem_cons.mp hid with rfl | hid
    · refine .inr fun hi => ?_
      subst hi
      exact hd.notMem hn (hlt rfl)
    · exact .inl hid
  | @inode i o hfree =>
    refine h.cons (fun p hp => ?_) fun id hid => .inl hid
    rcases putsOf_cons_inode o (o.result cfg.shard (s.view x i)) (x.log i) with heq | hs
    · rw [heq, mem_append] at hp
      rcases hp with hp | hp
      · refine .inr fun q hq hk => ?_
        exact key_ne_of_not_blocked hfree hy hmem hne hq (hk ▸ mem_waitsFor hp)
      · exact .inl hp
    · exact .inl (hs.subset hp)

/-! ## 7. All live transactions -/

structure Live (cfg : Config) (s : State) : Prop where
  knows : ∀ t x, s.txn t = some x → Knows cfg s x.log
  apart : ∀ t u x y, t ≠ u → s.txn t = some x → s.txn u = some y → Apart x.log y.log
  seq : SeqOk (s.srv cnServerId).table (s.seq cnServerId)
  drawn : ∀ t x, s.txn t = some x →
    Drawn (s.srv cnServerId).table (s.seq cnServerId) (idsOf (x.log cnServerId))

theorem live_init {table : Key → Option InodeId} (inode : ServerId → InodeTable)
    {seq : ServerId → List Nat} (h : SeqOk table (seq cnServerId)) :
    Live cfg (.init table inode seq) where
  knows _ _ hx := by cases hx
  apart _ _ _ _ _ hx := by cases hx
  seq := h
  drawn _ _ hx := by cases hx

section Live

variable {cfg : Config} {s s' : State} {e : Event} (hb : Base cfg s) (htr : Truthful s)
  (hl : Live cfg s) (hd : Draws e) (hm : Move cfg s e s')

include hb hl hd hm

section

variable {t u : Sid} {x' y' : Txn} (hne : t ≠ u) (hx' : s'.txn t = some x')
  (hy' : s'.txn u = some y')

include hne hx' hy'

/-- A pair of transactions after a step, of which the first may have moved. -/
theorem apart_of_move (hu : e.sid ≠ some u) : Apart x'.log y'.log := by
  rw [(hm.frame hu).1] at hy'
  rcases hm.log hd hx' with ⟨_, hnil⟩ | ⟨x, hx, hg⟩
  · rw [hnil]
    exact apart_nil _
  · exact (hl.apart t u x y' hne hx hy').grows hg hy' ((hb.own u).mem_sids hy') (Ne.symm hne)
      (hl.drawn u y' hy')

theorem apart_move : Apart x'.log y'.log := by
  by_cases hu : e.sid = some u
  · have ht : e.sid ≠ some t := by
      rw [hu]
      exact fun h => hne (Option.some.inj h).symm
    exact (apart_of_move hb hl hd hm (Ne.symm hne) hy' hx' ht).symm
  · exact apart_of_move hb hl hd hm hne hx' hy' hu

end

include htr

/-- **A step that commits nothing.** -/
theorem live_move (ht : ∀ i, (s'.srv i).table = (s.srv i).table) (hi : s'.inode = s.inode) :
    Live cfg s' where
  knows u x' hx' := by
    rcases hm.log hd hx' with ⟨_, hnil⟩ | ⟨x, hx, hg⟩
    · rw [hnil]
      exact knows_nil
    · exact ((hl.knows u x hx).grows hb htr hx hg).congr ht hi
  apart t u x y hne hx hy := apart_move hb hl hd hm hne hx hy
  seq := by
    rw [ht]
    exact hl.seq.mono (hm.seq_subset cnServerId)
  drawn u x' hx' := by
    rw [ht]
    rcases hm.log hd hx' with ⟨_, hnil⟩ | ⟨x, hx, hg⟩
    · rw [hnil]
      exact drawn_nil _ _
    · exact hg.drawn (hm.seq_subset cnServerId) hl.seq (hl.drawn u x hx)

end Live

/-- Transaction `x` inserts no row where transaction `y` has scanned. -/
def NotScanned (cfg : Config) (x y : Txn) : Prop :=
  ∀ i n p h, (⟨.inode (.scan n p), false⟩ :: h : List Entry) <:+ y.log i →
    ∀ q ∈ putsOf (x.log i), cfg.shard q.key = n → q.key.parentId = p → q.old ≠ none

section Commit

variable {cfg : Config} {s s' : State} {t : Sid} {x : Txn} (hb : Base cfg s) (hl : Live cfg s)
  (hx : s.txn t = some x) (hret : ∀ i ∈ cfg.servers, (x.prog i).isRet = true)
  (htable : ∀ i, (s'.srv i).table = applyWrites (writesOf (x.log i)) (s.srv i).table)
  (hinode : s'.inode = fun i => applyPuts (putsOf (x.log i)) (s.inode i))

include hb hl hx hret htable hinode

/-- What the others know survives the commit of `t`. -/
theorem knows_commit {u : Sid} {y : Txn} (hne : u ≠ t) (hy : s.txn u = some y)
    (hscan : NotScanned cfg x y) : Knows cfg s' y.log := by
  have hk := hl.knows u y hy
  refine ⟨fun i k mode v hmode hsaw => ?_, fun i => ?_, fun i n p h hs k hn hp => ?_⟩
  · obtain ⟨m, hm, hlock⟩ := locked_of_saw hsaw hmode
    rw [htable, applyWrites_of_locked hb hx hret hy hne hm hlock]
    exact hk.saw i k mode v hmode hsaw
  · refine (hk.puts i).congr fun p hp => ?_
    rw [hinode]
    exact lookup_applyPuts_of_not_mem _ fun q hq =>
      (hl.apart t u x y (Ne.symm hne) hx hy).puts i q hq p hp
  · have hbefore := hk.scans i n p h hs k hn hp
    by_cases hmem : ∃ q ∈ putsOf h, q.key = k
    · rw [lookup_applyPuts_of_mem hmem (s.inode i)]
      exact hbefore
    · have hno : ∀ q ∈ putsOf h, q.key ≠ k := fun q hq hqk => hmem ⟨q, hq, hqk⟩
      rw [lookup_applyPuts_of_not_mem _ hno] at hbefore ⊢
      rw [hinode]
      cases hr : AList.lookup k (applyPuts (putsOf (x.log i)) (s.inode i)) with
      | none => rfl
      | some r =>
        obtain ⟨q, hq, hqk, hold⟩ := ((hl.knows t x hx).puts i).exists_old_none hbefore hr
        subst hqk
        exact absurd hold (hscan i n p h hs q hq hn hp)

/-- **The commit of a transaction**, as far as the others are concerned. -/
theorem live_commit (htxn : ∀ u, s'.txn u = if u = t then none else s.txn u) (hseq : s'.seq = s.seq)
    (hids : NewIds (s.srv cnServerId).table (s'.srv cnServerId).table (idsOf (x.log cnServerId)))
    (hscan : ∀ u y, u ≠ t → s.txn u = some y → NotScanned cfg x y) : Live cfg s' := by
  have hold : ∀ u y, s'.txn u = some y → u ≠ t ∧ s.txn u = some y := by
    intro u y hy
    rw [htxn] at hy
    split at hy
    · cases hy
    · rename_i hne
      exact ⟨hne, hy⟩
  constructor
  · intro u y hy
    obtain ⟨hne, hy⟩ := hold u y hy
    exact knows_commit hb hl hx hret htable hinode hne hy (hscan u y hne hy)
  · intro u v y z hne hy hz
    exact hl.apart u v y z hne (hold u y hy).2 (hold v z hz).2
  · rw [hseq]
    exact hl.seq.commit (hl.drawn t x hx) hids
  · intro u y hy
    obtain ⟨hne, hy⟩ := hold u y hy
    rw [hseq]
    exact (hl.drawn u y hy).commit hids (hl.apart t u x y (Ne.symm hne) hx hy).ids

end Commit

end FalconFS.Cluster
