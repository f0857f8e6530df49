/-
# Files and directories are never left behind

`FalconRmdirSubRmdirHandle` looks, on every worker, for rows below the directory it removes; a
`create` or a `mkdir` may be on its way to insert one.  What keeps the two apart is a lock: who
inserts a row holds the directory above it in shared mode until its commit, who removes the
directory holds it exclusively from before the scan.  That is part of what `Consistency` proves
for all kinds of transactions.  Without renames its condition on the commits says nothing, and
what is left are the conditions on the values that are filled into the hash and on the coordinator's
numbers.

The first is needed: a `create` that has read the directory table, and not yet entered what it has
read into the hash, holds nothing.
-/
import FalconFS.Cluster.Consistency

namespace FalconFS.Cluster

open Machine

/-! ## 1. Runs of `create`, `mkdir` and `rmdir` -/

/-- A request that starts is one of the three. -/
def Event.makesOrRemoves : Event → Bool
  | .start _ _ req => req.makesOrRemoves
  | _ => true

/-- And a value that is filled into a hash is current, and ids of directories keep their bits. -/
def Calm (s : State) (e : Event) : Prop := e.makesOrRemoves = true ∧ Fills s e ∧ Draws e

/-- What holds of the transactions of such a run. -/
structure CalmInv (cfg : Config) (s : State) : Prop where
  base : Base cfg s
  main : ∀ t x, s.txn t = some x →
    Prog.Safe (OpOk cfg x.home []) (fun h _ => NoRename h) (x.log x.home) (x.prog x.home)

variable {cfg : Config} {s : State} {e : Event} {table : Key → Option InodeId}
  {inode : ServerId → InodeTable} {seq : ServerId → List Nat}

theorem safe_resume {Q : List Entry → Result → Prop} {x : Txn} {i : ServerId} {o : ServerOp}
    {r : o.Res} {f : o.Res → Process}
    (h : Prog.Safe (OpOk cfg x.home []) Q (x.log x.home) (x.prog x.home))
    (hprog : x.prog i = .op o f) :
    Prog.Safe (OpOk cfg x.home []) Q ((x.resume i o r f).log x.home)
      ((x.resume i o r f).prog x.home) := by
  by_cases hi : x.home = i
  · subst hi
    rw [hprog] at h
    rw [resume_log_self, resume_prog_self]
    exact h.2 r
  · rw [resume_log_ne hi, resume_prog_ne hi]
    exact h

theorem calmInv_move {s' : State} (h : CalmInv cfg s) (hc : Calm s e) (hm : Move cfg s e s') :
    CalmInv cfg s' := by
  refine ⟨base_move h.base hm, fun u x' hx' => ?_⟩
  by_cases hu : e.sid = some u
  · cases hm with
    | @start t home req y =>
      cases hu
      rw [setTxn_txn_self] at hx'
      cases hx'
      simp only [Txn.begin, Function.update_self]
      exact (noRename_handle hc.1).map fun _ _ _ hq => hq
    | ret hx hprog | nextInodeId hx hprog | inode hx hprog | receive hx hprog =>
      cases hu
      rw [setTxn_txn_self] at hx'
      cases hx'
      exact safe_resume (h.main _ _ hx) hprog
    | @send t x cmds f hx hprog =>
      cases hu
      rw [setTxn_txn_self] at hx'
      cases hx'
      -- the home program only waits
      show Prog.Safe _ _ _ (if forServer x.home cmds = [] then x.prog x.home else _ : Process)
      rw [if_pos (((h.base.own u).txn x hx).remote hprog).2.2]
      exact h.main _ _ hx
    | commit | abort =>
      cases hu
      rw [setTxn_txn_self] at hx'
      cases hx'
    | call | advance | applyToCommit | release => exact h.main u x' hx'
    | evict => cases hu
  · rw [(hm.frame hu).1] at hx'
    exact h.main u x' hx'

/-- The condition of `Consistency` on renames says nothing here. -/
theorem sound_of_calm {s' : State} (h : CalmInv cfg s) (hc : Calm s e) (hm : Move cfg s e s') :
    Sound s e := by
  refine ⟨hc.2.1, hc.2.2, fun t he x w p hx hmem => ?_⟩
  subst he
  cases hm with
  | commit hy hret =>
    cases hx.symm.trans hy
    have hmain := h.main t x hx
    have hhome := hret x.home ((h.base.own t).txn x hx).home
    cases hp : x.prog x.home with
    | fail | op => simp [hp, Prog.isRet] at hhome
    | ret a =>
      rw [hp] at hmain
      exact absurd hmem (hmain w p)

theorem run_sound_of_calm (h : Run (step cfg) Calm (.init table inode seq) s) :
    Run (step cfg) Sound (.init table inode seq) s :=
  h.strengthen ⟨base_init cfg table inode seq, fun _ _ hx => by cases hx⟩
    (fun _ _ _ hi hc hs => calmInv_move hi hc (step_cases hs)) fun _ _ _ hi hc hs =>
    sound_of_calm hi hc (step_cases hs)

/-- **Nothing is left under a removed directory.**  In every state of every such run, the parent of
every inode row, on every worker, is 0 or the id of a directory, in the table of every server. -/
theorem every_row_has_its_directory {cfg : Config} {table : Key → Option InodeId}
    {inode : ServerId → InodeTable} {seq : ServerId → List Nat} (h₀ : Fits cfg table inode seq)
    {s : State} (h : Run (step cfg) Calm (.init table inode seq) s) {w i : ServerId}
    (hw : w ∈ cfg.workers) (hi : i ∈ cfg.servers) {k : Key} {r : InodeRow}
    (hr : AList.lookup k (s.inode w) = some r) : DirExists (s.srv i).table k.parentId := by
  have hc := consistent_run h₀ (run_sound_of_calm h)
  have hrow := hc.names.rows w hw k
  rw [hr] at hrow
  rw [hc.tables i hi]
  exact hrow.2.2.2

def calmNow (s : State) (e : Event) : Bool := e.makesOrRemoves && soundNow s e

theorem run_calm
    (h : Run (step cfg) (fun s e => calmNow s e = true) (.init table inode seq) s) :
    Run (step cfg) Calm (.init table inode seq) s := by
  refine h.strengthen (base_init cfg table inode seq)
    (fun _ _ _ hb _ hs => base_move hb (step_cases hs)) fun _ _ _ hb hn _ => ?_
  simp only [calmNow, Bool.and_eq_true] at hn
  obtain ⟨hfills, hdraws, _⟩ := sound_of_soundNow hb hn.2
  exact ⟨hn.1, hfills, hdraws⟩

/-- The path `/a/f`, and its key when `/a` has the id 4096. -/
def fileInA : Path := ⟨[slash, 97, slash, 102]⟩

def keyInA : Key := ⟨4096, [102]⟩

/-- `mkdir /a`, and then `create /a/f`. -/
def afterCreate : State :=
  served oneWorker calmNow 2 1 (.create [fileInA]) 200
    (served oneWorker calmNow 1 cnServerId (.mkdir [pathTo 97]) 200 freshCluster)

theorem run_afterCreate : Run (step oneWorker) Calm freshCluster afterCreate :=
  run_calm (run_served (run_served .refl _ _ _ _) _ _ _ _)

set_option maxRecDepth 4000 in
theorem every_row_has_its_directory_create :
    AList.lookup keyInA (afterCreate.inode 1) = some (fileRow 1 4097) ∧
      DirExists (afterCreate.srv cnServerId).table keyInA.parentId := by
  have hrow : AList.lookup keyInA (afterCreate.inode 1) = some (fileRow 1 4097) := by decide
  exact ⟨hrow, every_row_has_its_directory fits_freshCluster run_afterCreate (by decide)
    (by decide) hrow⟩

/-! ## 2. A stale value

The item of `/a` has to go from the hash of the worker, twice.  It can, each time at the commit of a
transaction that has added an item, when the partition has more than 12: so there are requests
for files in directories that do not exist, each of which leaves an item behind. -/

/-- The keys of `/a` to `/p`, in one partition. -/
def crowd : List Key :=
  [97, 98, 99, 100, 101, 102, 103, 104, 105, 106, 107, 108, 109, 110, 111, 112].map below

/-- Any step of the three requests; evictions as the source makes them. -/
def crowdedStep (s : State) (e : Event) : Bool :=
  e.makesOrRemoves && match e with
    | .evict i k => DirPathHash.crowded crowd (s.srv i) (.evict k)
    | _ => true

/-- `create /c/f`, for each `c`. -/
def createIn (cs : List UInt8) : Request := .create (cs.map fun c => ⟨[slash, c, slash, 102]⟩)

/-- A request makes `n` steps, which bring it into the callback of its commit; the item of `/c` is
evicted on the worker, and the request goes on to its end. -/
def servedEvicting (t : Sid) (home : ServerId) (req : Request) (n : Nat) (c : UInt8) (s : State) :
    State :=
  resumed oneWorker crowdedStep t 200
    (drive (step oneWorker) crowdedStep (fun _ => some (.evict 1 (below c))) 1
      (served oneWorker crowdedStep t home req n s))

/-- `create /a/f` in session 2 has read the id of `/a` from the directory table of the worker, and
waits to enter it into the hash, when session 3 removes `/a`; then session 2 goes on.  Session 4
adds thirteen items, and takes the item of `/a` away before session 2 looks for it; the items that
sessions 3, 5 and 6 add take those of `/b`, of `/c` and, again, of `/a` away. -/
def orphaned : State :=
  let s₁ := served oneWorker crowdedStep 1 cnServerId (.mkdir [pathTo 97]) 200 freshCluster
  let s₄ := servedEvicting 4 1
    (createIn [98, 99, 100, 101, 102, 103, 104, 105, 106, 107, 108, 109, 110]) 87 97 s₁
  let s₂ := served oneWorker crowdedStep 2 1 (.create [fileInA]) 7 s₄
  let s₃ := servedEvicting 3 cnServerId (.rmdir (pathTo 97)) 32 98 s₂
  let s₅ := servedEvicting 5 1 (createIn [111]) 12 99 s₃
  let s₆ := servedEvicting 6 1 (createIn [112]) 12 97 s₅
  resumed oneWorker crowdedStep 2 200 s₆

theorem run_servedEvicting {s₀ : State} {t : Sid} {home : ServerId} {req : Request} {n : Nat}
    {c : UInt8} (h : Run (step oneWorker) (fun s e => crowdedStep s e = true) s₀ s) :
    Run (step oneWorker) (fun s e => crowdedStep s e = true) s₀
      (servedEvicting t home req n c s) :=
  run_resumed ((run_served h t home req n).trans (run_drive _ _ _ _)) t 200

theorem run_orphaned :
    Run (step oneWorker) (fun s e => crowdedStep s e = true) freshCluster orphaned :=
  run_resumed (run_servedEvicting (run_servedEvicting (run_servedEvicting (run_served
    (run_servedEvicting (run_served .refl _ _ _ _)) _ _ _ _)))) _ _

set_option maxRecDepth 8000 in
/-- **Without the condition a file is left behind**, under the directory 4096 that is gone. -/
theorem create_under_removed_directory :
    Fits oneWorker (fun k => if k = rootKey then some 1 else none)
        (fun i => if i = 1 then AList.insert rootKey (dirRow 1) ∅ else ∅) (fun _ => []) ∧
      ∃ s, Run (step oneWorker) (fun s e => crowdedStep s e = true) freshCluster s ∧
        AList.lookup keyInA (s.inode 1) = some (fileRow 1 4097) ∧
        ¬ DirExists (s.srv cnServerId).table keyInA.parentId := by
  have htable : (orphaned.srv cnServerId).table =
      DirPathHash.applyWrites [(below 97, none)] (DirPathHash.applyWrites [(below 97, some 4096)]
        fun k => if k = rootKey then some 1 else none) := by rfl
  refine ⟨fits_freshCluster, orphaned, run_orphaned, by decide, ?_⟩
  rw [htable, applyWrites_cons, applyWrites_nil, applyWrites_cons, applyWrites_nil]
  rintro (h0 | ⟨k, hk⟩)
  · cases h0
  · rcases Forest.of_update_eq_some hk with ⟨_, hv⟩ | ⟨hne, hk⟩
    · cases hv
    · rw [Function.update_of_ne hne] at hk
      split at hk <;> cases hk

end FalconFS.Cluster
