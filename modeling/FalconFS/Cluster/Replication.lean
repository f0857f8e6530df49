/-
# The directory tables of all servers are equal

The coordinator changes its directory table while it works through a request; the workers repeat the
change from the commands they are sent.  By `Outcome`, a transaction that commits has the same
directory writes everywhere, up to the order in which a rename's two are made; and that order does
not matter, since the two keys of a directory rename are locked exclusively, one lookup after the
other, so that they are different.
-/
import FalconFS.Cluster.Commit

namespace FalconFS.Cluster

open Machine List

open DirPathHash (applyWrites)

/-! ## 1. The two keys of a rename -/

/-- Two different answers under an exclusive lock come from two lookups, and two locks. -/
theorem two_le_count_exclusive {h : List Entry} {k : Key} {v v' : Option InodeId}
    (hv : Saw h k .exclusive v) (hv' : Saw h k .exclusive v') (hne : v ≠ v') :
    2 ≤ (locksOf h).count (k, .exclusive) := by
  induction h with
  | nil => cases hv
  | cons e h ih =>
    have hmem : ∀ {w}, Saw h k .exclusive w → 1 ≤ (locksOf h).count (k, .exclusive) :=
      fun hw => count_pos_iff.mpr hw.exclusive_mem
    have hhead : ∀ {w}, e = ⟨.hash .search k .exclusive, w⟩ →
        e.1.locks.count (k, .exclusive) = 1 := by
      rintro w rfl
      simp [ServerOp.locks, DirPathHash.rwMode]
    rw [locksOf_cons, count_append]
    rcases mem_cons.mp hv with he | hv
    · rcases mem_cons.mp hv' with he' | hv'
      · rw [← he] at he'
        cases he'
        exact absurd rfl hne
      · have h₁ := hhead he.symm
        have h₂ := hmem hv'
        omega
    · rcases mem_cons.mp hv' with he' | hv'
      · have h₁ := hhead he'.symm
        have h₂ := hmem hv
        omega
      · have h₁ := ih hv hv'
        omega

theorem applyWrites_swap {k k' : Key} (hne : k ≠ k') (v v' : Option InodeId)
    (table : Key → Option InodeId) :
    applyWrites [(k, v), (k', v')] table = applyWrites [(k', v'), (k, v)] table := by
  funext j
  simp only [applyWrites, lookup_cons, lookup_nil]
  by_cases hk : j = k
  · subst hk
    have hbeq : (j == k') = false := by simpa using hne
    simp [hbeq]
  · by_cases hk' : j = k'
    · subst hk'
      have hbeq : (j == k) = false := by simpa using hk
      simp [hbeq]
    · have hbeq : (j == k) = false := by simpa using hk
      have hbeq' : (j == k') = false := by simpa using hk'
      simp [hbeq, hbeq']

/-! ## 2. Equal tables -/

section Commit

variable {cfg : Config} {s : State} {t : Sid} {x : Txn} (hb : Base cfg s)
  (hx : s.txn t = some x) (hret : ∀ i ∈ cfg.servers, (x.prog i).isRet = true)

include hb hx hret

/-- The source and the destination of a directory rename differ. -/
theorem rename_keys_ne {k k' : Key} {id : InodeId}
    (hk : Saw (x.log cnServerId) k .exclusive (some id))
    (hk' : Saw (x.log cnServerId) k' .exclusive none) : k ≠ k' := by
  rintro rfl
  have hcount := two_le_count_exclusive hk hk' (by simp)
  have hr : x.runs cnServerId := by
    by_contra hno
    rw [(((hb.own t).txn x hx).rests _ hno).2.1] at hk
    cases hk
  have hheld := (hb.between hx hret hr).2.2.1
  have hmem : (k, .exclusive) ∈ ((s.srv cnServerId).session t).held := by
    rw [hheld]
    exact hk.exclusive_mem
  have hone := ((hb.plain cnServerId).lock.exclusive_unique hmem (by simp) hmem).2.2
  rw [hheld] at hone
  omega

/-- The writes of a worker are those of the coordinator. -/
theorem writes_agree {w : ServerId} (hw : w ∈ cfg.workers) (table : Key → Option InodeId) :
    applyWrites (writesOf (x.log w)) table = applyWrites (writesOf (x.log cnServerId)) table := by
  have hws : w ∈ cfg.servers := mem_cons_of_mem _ hw
  have hcn : cnServerId ∈ cfg.servers := mem_cons_self
  cases outcome_at_commit hb hx hret with
  | locally hwr => rw [hwr, hwr]
  | mkdir es hwr => rw [hwr w hws, hwr _ hcn]
  | rmdir k id hwr => rw [hwr w hws, hwr _ hcn]
  | rename p hsent hwr hwrs hp hrows hfrom hup hdir =>
    rw [hwr, hwrs w hw, renameWrites]
    cases hd : p.targetIsDirectory with
    | false => rfl
    | true =>
      obtain ⟨⟨id, hsrc⟩, hdst⟩ := hdir hd
      simp only [if_true]
      split
      · rfl
      · exact applyWrites_swap (rename_keys_ne hb hx hret hsrc hdst) _ _ _

end Commit

theorem tables_move {cfg : Config} {s s' : State} {e : Event} (hb : Base cfg s)
    (hm : Move cfg s e s') {w : ServerId} (hw : w ∈ cfg.workers)
    (heq : (s.srv w).table = (s.srv cnServerId).table) :
    (s'.srv w).table = (s'.srv cnServerId).table := by
  rcases hm.tables hb with ⟨ht, -⟩ | ⟨t, x, -, hx, hret, ht, -⟩
  · rw [ht, ht, heq]
  · rw [ht, ht, heq]
    exact writes_agree hb hx hret hw _

/-- **The replicas agree.**  Whatever transactions run, in whatever interleaving of their steps, and
however they end: every worker's directory table is the coordinator's. -/
theorem directory_tables_equal {cfg : Config} {table : Key → Option InodeId}
    {inode : ServerId → InodeTable} {seq : ServerId → List Nat} {s : State}
    (h : Reach (step cfg) (.init table inode seq) s) :
    ∀ w ∈ cfg.workers, (s.srv w).table = (s.srv cnServerId).table := by
  have hinv : Base cfg s ∧ ∀ w ∈ cfg.workers, (s.srv w).table = (s.srv cnServerId).table := by
    refine h.invariant (I := fun s => Base cfg s ∧
      ∀ w ∈ cfg.workers, (s.srv w).table = (s.srv cnServerId).table)
      ⟨base_init cfg table inode seq, fun _ _ => rfl⟩ ?_
    rintro s e s' ⟨hb, heq⟩ - hs
    have hm := step_cases hs
    exact ⟨base_move hb hm, fun w hw => tables_move hb hm hw (heq w hw)⟩
  exact hinv.2

/-! ## 3. One transaction at a time -/

/-- The next step of transaction `t` on server `i`, when nothing stops it; a number is the first one
of a new block. -/
def turnAt (s : State) (t : Sid) (x : Txn) (i : ServerId) : Option Event :=
  match ((s.srv i).session t).call with
  | some c =>
    match c.stage with
    | .returned _ => some (.ret t i)
    | _ => some (.advance t i ⟨true, ((s.srv i).hash c.key).bind (·.inodeId.value)⟩)
  | none =>
    match x.prog i with
    | .op (.hash _ _ _) _ => some (.call t i)
    | .op (.inode _) _ => some (.inode t i)
    | .op .nextInodeId _ => some (.nextInodeId t i (1 + 32 * (s.seq i).length))
    | .op (.remote cmds) _ =>
      if !x.waiting then some (.send t)
      else if cmds.all fun c => (x.prog c.1).isRet then some (.receive t)
      else none
    | _ => none

section

variable (cfg : Config) (t : Sid)

/-- The next step of transaction `t`: on the first server where there is one, then the commit, then
the callback on each server. -/
def turn (s : State) : Option Event :=
  match s.txn t with
  | some x => (cfg.servers.findSome? (turnAt s t x)).or (some (.commit t))
  | none => cfg.servers.findSome? fun i =>
    if ((s.srv i).session t).phase = .ending then
      some (if ((s.srv i).session t).toCommit = [] then .release t i
        else .applyToCommit t i true)
    else none

/-- The request starts. -/
def started (home : ServerId) (req : Request) (s : State) : State :=
  drive (step cfg) (fun _ _ => true) (fun _ => some (.start t home req)) 1 s

/-- Transaction `t` makes up to `n` steps. -/
def goOn (n : Nat) (s : State) : State :=
  drive (step cfg) (fun _ _ => true) (turn cfg t) n s

theorem reach_started (home : ServerId) (req : Request) (s : State) :
    Reach (step cfg) s (started cfg t home req s) :=
  (run_drive _ _ _ _).mono fun _ _ _ => trivial

theorem reach_goOn (n : Nat) (s : State) : Reach (step cfg) s (goOn cfg t n s) :=
  (run_drive _ _ _ _).mono fun _ _ _ => trivial

end

theorem reach_request {cfg : Config} {t : Sid} {s₀ s : State} (h : Reach (step cfg) s₀ s)
    {home : ServerId} {req : Request} {n : Nat} :
    Reach (step cfg) s₀ (goOn cfg t n (started cfg t home req s)) :=
  h.trans ((reach_started cfg t home req s).trans (reach_goOn cfg t n _))

/-- A key below the root. -/
def below (c : UInt8) : Key := ⟨1, [c]⟩

/-- The path `/c`. -/
def pathTo (c : UInt8) : Path := ⟨[slash, c]⟩

/-- A cluster with the root directory, of inode id 1. -/
def freshCluster : State :=
  .init (fun k => if k = rootKey then some 1 else none)
    (fun i => if i = 1 then AList.insert rootKey (dirRow 1) ∅ else ∅) fun _ => []

/-- The state after `mkdir /a`. -/
def afterMkdir : State :=
  goOn oneWorker 1 100 (started oneWorker 1 cnServerId (.mkdir [pathTo 97]) freshCluster)

theorem reach_afterMkdir : Reach (step oneWorker) freshCluster afterMkdir :=
  reach_request .refl

/-- Then `rename /a /b`, `mkdir /c` and `rmdir /c`. -/
def afterRmdir : State :=
  let s₁ := goOn oneWorker 1 100
    (started oneWorker 1 cnServerId (.rename (pathTo 97) (pathTo 98)) afterMkdir)
  let s₂ := goOn oneWorker 1 100 (started oneWorker 1 cnServerId (.mkdir [pathTo 99]) s₁)
  goOn oneWorker 1 100 (started oneWorker 1 cnServerId (.rmdir (pathTo 99)) s₂)

set_option maxRecDepth 4000 in
theorem directory_tables_equal_rmdir : (afterRmdir.srv 1).table (below 97) = none ∧
      (afterRmdir.srv 1).table (below 98) = some 4096 ∧
      (afterRmdir.srv 1).table (below 99) = none ∧
      (afterRmdir.srv 1).table = (afterRmdir.srv cnServerId).table := by
  have hreach : Reach (step oneWorker) freshCluster afterRmdir :=
    reach_request (reach_request (reach_request reach_afterMkdir))
  exact ⟨by decide, by decide, by decide, directory_tables_equal hreach 1 (by decide)⟩

end FalconFS.Cluster
