/-
# What a commit changes, on all servers

When a transaction commits, its home program has returned and every command it has sent has been
executed.  `Outcome` says what that means for the transaction as a whole: which directory writes and
which inode writes it has on each server, and which of its lookups justify them.  There are four
kinds of transactions, one constructor for each.
-/
import FalconFS.Cluster.Base

namespace FalconFS.Cluster

open List

/-! ## 1. Pipelines of one or two commands -/

section Pipeline

variable {cfg : Config} {i : ServerId} {h : List Entry} {rs : List SubReply}
  {W : List (Key × Option InodeId)} {P : List Put}

theorem subEffects_nil (he : SubEffects cfg i h [] rs W P) : rs = [] ∧ W = [] ∧ P = [] := by
  generalize hcs : ([] : List SubRequest) = cs at he
  cases he with
  | nil => exact ⟨rfl, rfl, rfl⟩
  | snoc => simp at hcs

theorem subEffects_snoc (cs : List SubRequest) {c : SubRequest}
    (he : SubEffects cfg i h (cs ++ [c]) rs W P) :
    ∃ rs' r W' dW P' dP, rs = rs' ++ [r] ∧ W = dW ++ W' ∧ P = dP ++ P' ∧
      SubEffects cfg i h cs rs' W' P' ∧ SubEffect cfg i h c r dW dP := by
  generalize hcs : cs ++ [c] = cs' at he
  cases he with
  | nil => simp at hcs
  | snoc hi hl =>
    obtain ⟨rfl, hc⟩ := append_inj' hcs rfl
    cases hc
    exact ⟨_, _, _, _, _, _, rfl, rfl, rfl, hi, hl⟩

theorem subEffects_one {c : SubRequest} (he : SubEffects cfg i h [c] rs W P) :
    ∃ r, rs = [r] ∧ SubEffect cfg i h c r W P := by
  obtain ⟨rs', r, W', dW, P', dP, rfl, rfl, rfl, hi, hl⟩ := subEffects_snoc [] he
  obtain ⟨rfl, rfl, rfl⟩ := subEffects_nil hi
  exact ⟨r, rfl, by simpa using hl⟩

theorem subEffects_two {c₁ c₂ : SubRequest} (he : SubEffects cfg i h [c₁, c₂] rs W P) :
    ∃ r₁ r₂ W₁ W₂ P₁ P₂, rs = [r₁, r₂] ∧ W = W₂ ++ W₁ ∧ P = P₂ ++ P₁ ∧
      SubEffect cfg i h c₁ r₁ W₁ P₁ ∧ SubEffect cfg i h c₂ r₂ W₂ P₂ := by
  obtain ⟨rs', r, W', dW, P', dP, rfl, rfl, rfl, hi, hl⟩ := subEffects_snoc [c₁] he
  obtain ⟨r₁, rfl, h₁⟩ := subEffects_one hi
  exact ⟨r₁, r, W', dW, P', dP, rfl, rfl, rfl, h₁, hl⟩

end Pipeline

/-! ## 2. The commands of one worker -/

theorem forServer_map {l : List ServerId} (hl : l.Nodup) (c : ServerId → SubRequest)
    (w : ServerId) : forServer w (l.map fun v => (v, c v)) = if w ∈ l then [c w] else [] := by
  have hmap : forServer w (l.map fun v => (v, c v)) = (l.filter (· = w)).map c := by
    simp [forServer, filter_map, Function.comp_def]
  rw [hmap, filter_eq, hl.count]
  split <;> rfl

theorem forServer_single (v w : ServerId) (c : SubRequest) :
    forServer w [(v, c)] = if v = w then [c] else [] := by
  by_cases h : v = w <;> simp [forServer, h]

section Worker

variable {cfg : Config} {w : ServerId} (hw : w ∈ cfg.workers) {h : List Entry}
  {rs : List SubReply}

include hw

theorem subDone_mkdir {es : List DirEntry}
    (hd : SubDone cfg w (forServer w (mkdirCommands cfg es)) rs h) :
    writesOf h = entryWrites es ∧
      putsOf h = dirPuts (byShard cfg (·.key) (es.filter fun e => cfg.owner e.key = w)) := by
  rw [SubDone, mkdirCommands, forServer_append, forServer_map cfg.workers_nodup, if_pos hw,
    forServer_map (cfg.workers_nodup.filter _)] at hd
  split at hd
  · obtain ⟨r₁, r₂, W₁, W₂, P₁, P₂, -, hW, hP, h₁, h₂⟩ := subEffects_two hd
    cases h₁
    cases h₂
    exact ⟨hW, by rw [hP, append_nil]⟩
  · rename_i hno
    obtain ⟨r, -, h₁⟩ := subEffects_one hd
    have hnil : (es.filter fun e => cfg.owner e.key = w) = [] := by
      rw [filter_eq_nil_iff]
      intro e he howner
      exact hno (mem_filter.mpr ⟨hw, any_eq_true.mpr ⟨e, he, howner⟩⟩)
    generalize writesOf h = W at h₁ ⊢
    generalize putsOf h = P at h₁ ⊢
    cases h₁
    rw [hnil]
    refine ⟨rfl, ?_⟩
    simp [byShard, dirPuts]

theorem subDone_rmdir {k : Key} (hd : SubDone cfg w (forServer w (rmdirCommands cfg k)) rs h) :
    writesOf h = [(k, none)] ∧
      (∃ id, Saw h k .exclusive (some id) ∧
        ∀ n ∈ cfg.localShards w, (⟨.inode (.scan n id), false⟩ : Entry) ∈ h) ∧
      (cfg.owner k ≠ w → putsOf h = []) ∧
      (cfg.owner k = w → ∃ r : InodeRow, r.stNlink = 2 ∧ putsOf h = [⟨k, some r, none⟩]) := by
  rw [SubDone, rmdirCommands, forServer_append, forServer_map cfg.workers_nodup, if_pos hw,
    forServer_single] at hd
  split at hd
  · rename_i howner
    obtain ⟨r₁, r₂, W₁, W₂, P₁, P₂, -, hW, hP, h₁, h₂⟩ := subEffects_two hd
    cases h₁ with
    | rmdirSubRmdir _ id hs hscan =>
      cases h₂ with
      | rmdirSubUnlink _ r hn =>
        exact ⟨hW, ⟨id, hs, hscan⟩, fun hne => absurd howner hne, fun _ => ⟨r, hn, hP⟩⟩
  · rename_i howner
    obtain ⟨r, -, h₁⟩ := subEffects_one hd
    generalize hW : writesOf h = W at h₁ ⊢
    generalize hP : putsOf h = P at h₁ ⊢
    cases h₁ with
    | rmdirSubRmdir _ id hs hscan =>
      exact ⟨rfl, ⟨id, hs, hscan⟩, fun _ => rfl, fun heq => absurd heq howner⟩

end Worker

/-! ## 3. The commands of a rename -/

/-- The parameter of `RENAME_SUB_RENAME_LOCALLY` that a worker gets. -/
def renameParamFor (cfg : Config) (p : RenameParam) (w : ServerId) : RenameParam :=
  if cfg.owner p.src = w then renameAtSource cfg p
  else { p with parentIdPartId := 0, dstParentIdPartId := 0 }

/-- The inode writes of a worker, when the rename moves the row `r`. -/
def renamePuts (cfg : Config) (p : RenameParam) (r : InodeRow) (w : ServerId) : List Put :=
  (if cfg.owner p.dst = w then [⟨p.dst, none, some r⟩] else []) ++
    if cfg.owner p.src = w then [⟨p.src, some r, none⟩] else []

/-- Neither combined id is 0, which a worker takes for "no row". -/
def Stored (cfg : Config) (p : RenameParam) : Prop :=
  cfg.parentIdPartId p.src ≠ 0 ∧ cfg.parentIdPartId p.dst ≠ 0

section Rename

variable {cfg : Config} {p : RenameParam}

theorem forServer_renameCommands {w : ServerId} (hw : w ∈ cfg.workers) :
    forServer w (renameCommands cfg p) = [.renameSubRenameLocally (renameParamFor cfg p w)] := by
  rw [renameCommands, ← singleton_append, forServer_append, forServer_single,
    forServer_map (cfg.workers_nodup.erase _), renameParamFor]
  by_cases howner : cfg.owner p.src = w
  · simp [howner, cfg.workers_nodup.not_mem_erase]
  · have hmem : w ∈ cfg.workers.erase (cfg.owner p.src) :=
      (mem_erase_of_ne (Ne.symm howner)).mpr hw
    simp [howner, hmem]

section Effect

variable {w : ServerId} {h : List Entry} {a : SubReply} {W : List (Key × Option InodeId)}
  {P : List Put}
  (he : SubEffect cfg w h (.renameSubRenameLocally (renameParamFor cfg p w)) a W P)

include he

theorem writes_rename : W = renameWrites p := by
  unfold renameParamFor at he
  split at he <;> cases he <;> rfl

/-- What a worker does, by the rows it owns. -/
theorem subEffect_rename :
    (cfg.owner p.src ≠ w → P = []) ∧
      (Stored cfg p → cfg.owner p.src = w → ∃ r, (cfg.owner p.dst = w → P = renamePuts cfg p r w) ∧
        (cfg.owner p.dst ≠ w → a = .row r ∧ P = [⟨p.src, some r, none⟩])) := by
  unfold renameParamFor at he
  by_cases hsrc : cfg.owner p.src = w
  · rw [if_pos hsrc] at he
    refine ⟨fun hne => absurd hsrc hne, fun hst _ => ?_⟩
    cases he with
    | renameOther _ hrow => exact absurd hrow hst.1
    | renameAway _ r _ hrow =>
      refine ⟨r, fun hdst => ?_, fun _ => ⟨rfl, rfl⟩⟩
      rw [renameAtSource, if_pos (hdst.trans hsrc.symm)] at hrow
      exact absurd hrow hst.2
    | renameHere _ r _ hrow =>
      have hdst : cfg.owner p.dst = w := by
        by_contra hne
        exact hrow (if_neg fun heq => hne (heq.trans hsrc))
      refine ⟨r, fun _ => ?_, fun hne => absurd hdst hne⟩
      simp [renamePuts, renameAtSource, hdst, hsrc]
  · rw [if_neg hsrc] at he
    refine ⟨fun _ => ?_, fun _ heq => absurd heq hsrc⟩
    cases he with
    | renameOther => rfl
    | renameAway _ _ hrow | renameHere _ _ hrow => exact absurd rfl hrow

end Effect

variable {log : ServerId → List Entry} (reps : ServerId → List SubReply)

theorem subDone_rename_same (hsame : cfg.owner p.src = cfg.owner p.dst)
    (hd : ∀ w ∈ cfg.workers, SubDone cfg w (forServer w (renameCommands cfg p)) (reps w) (log w)) :
    (∀ w ∈ cfg.workers, writesOf (log w) = renameWrites p) ∧
      (Stored cfg p → ∃ r, ∀ w ∈ cfg.workers, putsOf (log w) = renamePuts cfg p r w) := by
  have hone : ∀ w ∈ cfg.workers, ∃ a, SubEffect cfg w (log w)
      (.renameSubRenameLocally (renameParamFor cfg p w)) a (writesOf (log w))
      (putsOf (log w)) := by
    intro w hw
    have hdw := hd w hw
    rw [SubDone, forServer_renameCommands hw] at hdw
    obtain ⟨a, -, he⟩ := subEffects_one hdw
    exact ⟨a, he⟩
  refine ⟨fun w hw => writes_rename (hone w hw).choose_spec, fun hst => ?_⟩
  obtain ⟨a, he⟩ := hone _ (cfg.owner_mem p.src)
  obtain ⟨r, hr, -⟩ := (subEffect_rename he).2 hst rfl
  refine ⟨r, fun w hw => ?_⟩
  obtain ⟨a', he'⟩ := hone w hw
  by_cases hsrc : cfg.owner p.src = w
  · subst hsrc
    exact hr hsame.symm
  · rw [(subEffect_rename he').1 hsrc]
    simp [renamePuts, hsrc, ← hsame]

theorem subDone_rename_other {a : SubReply} {rs : List SubReply}
    (hne : cfg.owner p.src ≠ cfg.owner p.dst) (hreply : reps (cfg.owner p.src) = a :: rs)
    (hd : ∀ w ∈ cfg.workers, SubDone cfg w (forServer w (renameCommands cfg p ++
      [(cfg.owner p.dst, .renameSubCreate p.dst (a.rowOr cfg.unset))])) (reps w) (log w)) :
    (∀ w ∈ cfg.workers, writesOf (log w) = renameWrites p) ∧
      (Stored cfg p → ∃ r, ∀ w ∈ cfg.workers, putsOf (log w) = renamePuts cfg p r w) := by
  suffices h : ∀ w ∈ cfg.workers, writesOf (log w) = renameWrites p ∧
      (Stored cfg p → putsOf (log w) = renamePuts cfg p (a.rowOr cfg.unset) w) from
    ⟨fun w hw => (h w hw).1, fun hst => ⟨_, fun w hw => (h w hw).2 hst⟩⟩
  intro w hw
  have hdw := hd w hw
  rw [SubDone, forServer_append, forServer_renameCommands hw, forServer_single] at hdw
  by_cases hdst : cfg.owner p.dst = w
  · -- the worker that gets the row
    have hsrc : cfg.owner p.src ≠ w := fun heq => hne (heq.trans hdst.symm)
    rw [if_pos hdst] at hdw
    obtain ⟨r₁, r₂, W₁, W₂, P₁, P₂, -, hW, hP, h₁, h₂⟩ := subEffects_two hdw
    obtain rfl := writes_rename h₁
    cases h₂ with
    | renameSubCreate =>
      refine ⟨hW, fun _ => ?_⟩
      rw [hP, (subEffect_rename h₁).1 hsrc]
      simp [renamePuts, hdst, hsrc]
  · rw [if_neg hdst, append_nil] at hdw
    obtain ⟨a', hreps, he⟩ := subEffects_one hdw
    refine ⟨writes_rename he, fun hst => ?_⟩
    by_cases hsrc : cfg.owner p.src = w
    · -- the worker that has had it: its reply carries the row
      obtain ⟨r, -, hr⟩ := (subEffect_rename he).2 hst hsrc
      obtain ⟨rfl, hP⟩ := hr hdst
      rw [← hsrc, hreply] at hreps
      cases hreps
      rw [hP]
      simp [renamePuts, hdst, hsrc, SubReply.rowOr]
    · rw [(subEffect_rename he).1 hsrc]
      simp [renamePuts, hdst, hsrc]

end Rename

/-! ## 4. The four kinds of transactions -/

/-- What a transaction has done, everywhere, when all its programs have returned. -/
inductive Outcome (cfg : Config) (x : Txn) : Prop
  /-- A request to one server: no directory writes, inode writes at home only. -/
  | locally (hw : ∀ i, writesOf (x.log i) = []) (hp : ∀ i, i ≠ x.home → putsOf (x.log i) = [])
      (hl : ∀ p ∈ putsOf (x.log x.home), LocalPut (x.log x.home) p)
  | mkdir (es : List DirEntry) (hw : ∀ i ∈ cfg.servers, writesOf (x.log i) = entryWrites es)
      (hp : putsOf (x.log cnServerId) = [])
      (hrows : ∀ w ∈ cfg.workers, putsOf (x.log w) =
        dirPuts (byShard cfg (·.key) (es.filter fun e => cfg.owner e.key = w)))
      (hes : MkdirOk (x.log cnServerId) es)
      (hids : (es.map (·.inodeId)).reverse.Sublist (idsOf (x.log cnServerId)))
  | rmdir (k : Key) (id : InodeId) (hw : ∀ i ∈ cfg.servers, writesOf (x.log i) = [(k, none)])
      (hk : Saw (x.log cnServerId) k .exclusive (some id))
      (hp : putsOf (x.log cnServerId) = [])
      (hscan : ∀ w ∈ cfg.workers, ∃ id', Saw (x.log w) k .exclusive (some id') ∧
        ∀ n ∈ cfg.localShards w, (⟨.inode (.scan n id'), false⟩ : Entry) ∈ x.log w)
      (hrows : ∀ w ∈ cfg.workers, cfg.owner k ≠ w → putsOf (x.log w) = [])
      (hrow : ∃ r : InodeRow, r.stNlink = 2 ∧ putsOf (x.log (cfg.owner k)) = [⟨k, some r, none⟩])
  | rename (p : RenameParam)
      (hsent : (cfg.owner p.src, .renameSubRenameLocally (renameAtSource cfg p)) ∈
        sentOf (x.log x.home))
      (hw : writesOf (x.log cnServerId) =
        if p.targetIsDirectory then [(p.dst, some p.inodeId), (p.src, none)] else [])
      (hws : ∀ w ∈ cfg.workers, writesOf (x.log w) = renameWrites p)
      (hp : putsOf (x.log cnServerId) = [])
      (hrows : Stored cfg p →
        ∃ r, ∀ w ∈ cfg.workers, putsOf (x.log w) = renamePuts cfg p r w)
      (hfrom : ∃ k, Saw (x.log cnServerId) k .shared (some p.src.parentId))
      (hup : SharedChain (x.log cnServerId) p.dst.parentId)
      (hdir : p.targetIsDirectory = true →
        (∃ id, Saw (x.log cnServerId) p.src .exclusive (some id)) ∧
        Saw (x.log cnServerId) p.dst .exclusive none)

section Outcome

variable {cfg : Config} {s : State} {t : Sid} {x : Txn} (hb : Base cfg s)
  (hx : s.txn t = some x) (hret : ∀ i ∈ cfg.servers, (x.prog i).isRet = true)

include hb hx hret

/-- When all programs have returned, the specifications speak. -/
theorem effects_at_commit : MainEffect cfg x.home (x.log x.home) ∧
    ∀ i, i ≠ x.home → SubDone cfg i (forServer i (sentOf (x.log x.home)))
      (repliesOf i (x.log x.home)) (x.log i) := by
  have hok := (hb.own t).txn x hx
  have hhome := hret x.home hok.home
  have hw : x.waiting = false := by
    by_contra hw
    obtain ⟨cmds, f, hprog⟩ := hok.waits ((Bool.not_eq_false _).mp hw)
    rw [hprog] at hhome
    cases hhome
  have hpend : x.pending = [] := by simp [Txn.pending, hw]
  refine ⟨?_, fun i hi => ?_⟩
  · have hmain := hok.main
    cases hp : x.prog x.home with
    | fail | op => simp [hp, Prog.isRet] at hhome
    | ret a =>
      rw [hp] at hmain
      exact hmain
  · obtain ⟨-, hd⟩ := hok.done i hi (by rw [hpend]; rfl)
    rwa [Txn.cmds, hpend, append_nil] at hd

theorem outcome_at_commit : Outcome cfg x := by
  obtain ⟨hmain, hsub⟩ := effects_at_commit hb hx hret
  -- the commands of the coordinator go to all workers
  have hworker : x.home = cnServerId → ∀ w ∈ cfg.workers,
      SubDone cfg w (forServer w (sentOf (x.log x.home))) (repliesOf w (x.log x.home))
        (x.log w) := by
    intro hcn w hw
    exact hsub w fun heq => cfg.cn_not_worker (hcn ▸ heq ▸ hw)
  cases hmain with
  | locally hw hs hp =>
    have hidle : ∀ i, i ≠ x.home → writesOf (x.log i) = [] ∧ putsOf (x.log i) = [] := by
      intro i hi
      have hd := hsub i hi
      rw [hs] at hd
      exact (subEffects_nil hd).2
    refine .locally (fun i => ?_) (fun i hi => (hidle i hi).2) hp
    by_cases hi : i = x.home
    · rw [hi, hw]
    · exact (hidle i hi).1
  | mkdir es hcn hw hp hs hes hids =>
    have hwork : ∀ w ∈ cfg.workers, writesOf (x.log w) = entryWrites es ∧ putsOf (x.log w) =
        dirPuts (byShard cfg (·.key) (es.filter fun e => cfg.owner e.key = w)) := by
      intro w hw
      have hd := hworker hcn w hw
      rw [hs] at hd
      split at hd
      · rename_i hnil
        obtain ⟨-, hW, hP⟩ := subEffects_nil hd
        rw [hW, hP, hnil]
        refine ⟨rfl, ?_⟩
        simp [byShard, dirPuts]
      · exact subDone_mkdir hw hd
    rw [hcn] at hw hp hes hids
    refine .mkdir es (fun i hi => ?_) hp (fun w hw => (hwork w hw).2) hes hids
    rcases mem_cons.mp hi with rfl | hi
    · exact hw
    · exact (hwork i hi).1
  | rmdir k id hcn hw hp hs hk =>
    have hwork := fun w hmem => subDone_rmdir hmem (hs ▸ hworker hcn w hmem)
    rw [hcn] at hw hp hk
    refine .rmdir k id (fun i hi => ?_) hk hp (fun w hmem => (hwork w hmem).2.1)
      (fun w hmem => (hwork w hmem).2.2.1) ((hwork _ (cfg.owner_mem k)).2.2.2 rfl)
    rcases mem_cons.mp hi with rfl | hi
    · exact hw
    · exact (hwork i hi).1
  | rename p second hcn hw hp hs hfrom hup hdir hsame hother =>
    have hsent : (cfg.owner p.src, .renameSubRenameLocally (renameAtSource cfg p)) ∈
        sentOf (x.log x.home) := by
      rw [hs]
      exact mem_append_left _ mem_cons_self
    have hwork : (∀ w ∈ cfg.workers, writesOf (x.log w) = renameWrites p) ∧
        (Stored cfg p → ∃ r, ∀ w ∈ cfg.workers, putsOf (x.log w) = renamePuts cfg p r w) := by
      by_cases howner : cfg.owner p.src = cfg.owner p.dst
      · refine subDone_rename_same (repliesOf · (x.log x.home)) howner fun w hmem => ?_
        have hd := hworker hcn w hmem
        rwa [hs, hsame howner, append_nil] at hd
      · obtain ⟨a, rs, rfl, hreply⟩ := hother howner
        refine subDone_rename_other (repliesOf · (x.log x.home)) howner hreply fun w hmem => ?_
        have hd := hworker hcn w hmem
        rwa [hs] at hd
    rw [hcn] at hw hp hfrom hup hdir
    exact .rename p hsent hw hwork.1 hp hwork.2 hfrom hup hdir

/-- The directory table of every server after the commit. -/
theorem commit_table (i : ServerId) :
    ((DirPathHash.step (s.srv i) (.commit t)).getD (s.srv i)).table =
      DirPathHash.applyWrites (writesOf (x.log i)) (s.srv i).table := by
  rcases commit_srv hb hx hret i with ⟨hr, heq⟩ | ⟨hr, heq⟩
  · rw [heq, ← (hb.between hx hret hr).2.2.2]
    rfl
  · rw [heq, (((hb.own t).txn x hx).rests i hr).2.1]
    rfl

end Outcome

/-! ## 5. Tables change at commits only -/

theorem table_of_step {x x' : DirPathHash.Server} {e : DirPathHash.Event} (hl : e.isLocal = true)
    (hne : ∀ t, e ≠ .commit t) (hs : DirPathHash.step x e = some x') : x'.table = x.table := by
  rcases DirPathHash.step_table hl hs with ht | ⟨t, he, -⟩
  · exact ht
  · exact absurd he (hne t)

theorem table_setServer {s : State} {i : ServerId} {y : DirPathHash.Server}
    {e : DirPathHash.Event} (hl : e.isLocal = true) (hne : ∀ t, e ≠ .commit t)
    (hy : DirPathHash.step (s.srv i) e = some y) (j : ServerId) :
    ((s.setServer i y).srv j).table = (s.srv j).table := by
  by_cases hj : j = i
  · subst hj
    rw [setServer_srv_self]
    exact table_of_step hl hne hy
  · rw [setServer_srv_ne s y hj]

theorem table_getD {x : DirPathHash.Server} {e : DirPathHash.Event} (hl : e.isLocal = true)
    (hne : ∀ t, e ≠ .commit t) : ((DirPathHash.step x e).getD x).table = x.table := by
  cases hy : DirPathHash.step x e with
  | none => rfl
  | some y => exact table_of_step hl hne hy

/-- **A step changes no table, or it is the commit of a transaction that has returned.** -/
theorem Move.tables {cfg : Config} {s s' : State} {e : Event} (hb : Base cfg s)
    (hm : Move cfg s e s') :
    (∀ i, (s'.srv i).table = (s.srv i).table) ∧ s'.inode = s.inode ∧ (∀ t, e ≠ .commit t) ∨
      ∃ t x, e = .commit t ∧ s.txn t = some x ∧ (∀ i ∈ cfg.servers, (x.prog i).isRet = true) ∧
        (∀ i, (s'.srv i).table =
          DirPathHash.applyWrites (writesOf (x.log i)) (s.srv i).table) ∧
        s'.inode = fun i => applyPuts (putsOf (x.log i)) (s.inode i) := by
  cases hm with
  | start _ _ _ hy => exact .inl ⟨table_setServer rfl (by simp) hy, rfl, by simp⟩
  | call _ _ hy | advance _ hy | ret _ _ _ hy | applyToCommit hy | release hy | evict hy =>
    exact .inl ⟨table_setServer rfl (by simp) hy, rfl, by simp⟩
  | nextInodeId | inode | receive => exact .inl ⟨fun _ => rfl, rfl, by simp⟩
  | send =>
    refine .inl ⟨fun i => ?_, rfl, by simp⟩
    simp only [setTxn_srv, sendServers]
    split
    · rfl
    · exact table_getD rfl (by simp)
  | abort => exact .inl ⟨fun i => table_getD rfl (by simp), rfl, by simp⟩
  | commit hx hret =>
    exact .inr ⟨_, _, rfl, hx, hret, fun i => commit_table hb hx hret i, rfl⟩

end FalconFS.Cluster
