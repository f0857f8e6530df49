/-
# Transactions of the cluster, step by step

The specifications of `HandleSpec` speak of one program, `DirPathHash` speaks of one server.  This
module puts them together: in every reachable state of the cluster, each transaction stands, on each
server where it runs, at a point of its program, with a history that the program's specification
allows, and the server's session holds exactly the locks and the writes of that history.

No condition is imposed on the run.
-/
import FalconFS.Cluster.Model
import FalconFS.DirPathHash.Calls
import FalconFS.Lib.Machine
import FalconFS.Metadb.HandleSpec

namespace FalconFS.Cluster

open Option List Machine

open DirPathHash (Server Session)
open InodeSequence (IsNewNumber)

/-! ## 1. What a step can do -/

/-- The transaction whose step it is. -/
def Event.sid : Event → Option Sid
  | .start t _ _ | .call t _ | .advance t _ _ | .ret t _ | .nextInodeId t _ _
  | .inode t _ | .send t | .receive t | .commit t | .abort t | .applyToCommit t _ _
  | .release t _ => some t
  | .evict _ _ => none

/-- The servers after `stepSend`. -/
def sendServers (s : State) (t : Sid) (cmds : List (ServerId × SubRequest)) (i : ServerId) :
    Server :=
  if forServer i cmds = [] then s.srv i
  else (DirPathHash.step (s.srv i) (.begin t)).getD (s.srv i)

/-- The transaction after `stepSend`. -/
def Txn.sending (cfg : Config) (x : Txn) (cmds : List (ServerId × SubRequest)) : Txn :=
  { x with
    waiting := true
    prog := fun i =>
      if forServer i cmds = [] then x.prog i
      else Result.replies <$> subHandles cfg i (forServer i cmds) }

/-- The transaction after `stepReceive`. -/
def Txn.received (x : Txn) (cmds : List (ServerId × SubRequest))
    (f : (ServerId → List SubReply) → Process) : Txn :=
  { x.resume x.home (.remote cmds)
      (fun i => if forServer i cmds = [] then [] else repliesNow x i) f with waiting := false }

inductive Move (cfg : Config) (s : State) : Event → State → Prop
  | start {t : Sid} {home : ServerId} {req : Request} {y : Server} (hx : s.txn t = none)
      (hhome : home ∈ cfg.servers) (hidle : ∀ i ∈ cfg.servers, ((s.srv i).session t).phase = .idle)
      (hy : DirPathHash.step (s.srv home) (.begin t) = some y) :
      Move cfg s (.start t home req) ({ s.setServer home y with sids := t :: s.sids }.setTxn t
        (some (.begin home (Result.response <$> handle cfg home req))))
  | call {t : Sid} {i : ServerId} {x : Txn} {op : DirPathHash.Op} {k : Key} {mode : DirLockMode}
      {f : Option InodeId → Process} {y : Server} (hx : s.txn t = some x)
      (hprog : x.prog i = .op (.hash op k mode) f)
      (hy : DirPathHash.step (s.srv i) (.call t op k mode) = some y) :
      Move cfg s (.call t i) (s.setServer i y)
  | advance {t : Sid} {i : ServerId} {c : DirPathHash.Choice} {x : Txn} {y : Server}
      (hx : s.txn t = some x) (hy : DirPathHash.step (s.srv i) (.advance t c) = some y) :
      Move cfg s (.advance t i c) (s.setServer i y)
  | ret {t : Sid} {i : ServerId} {x : Txn} {op : DirPathHash.Op} {k : Key} {mode : DirLockMode}
      {f : Option InodeId → Process} {r : Option InodeId} {y : Server} (hx : s.txn t = some x)
      (hprog : x.prog i = .op (.hash op k mode) f) (hr : returned (s.srv i) t = some r)
      (hy : DirPathHash.step (s.srv i) (.ret t) = some y) :
      Move cfg s (.ret t i)
        ((s.setServer i y).setTxn t (some (x.resume i (.hash op k mode) r f)))
  | nextInodeId {t : Sid} {i : ServerId} {n : Nat} {x : Txn} {f : InodeId → Process}
      (hx : s.txn t = some x) (hprog : x.prog i = .op .nextInodeId f)
      (hn : IsNewNumber (s.seq i) n) :
      Move cfg s (.nextInodeId t i n)
        ({ s with seq := Function.update s.seq i (n :: s.seq i) }.setTxn t
          (some (x.resume i .nextInodeId (generateInodeId n i) f)))
  | inode {t : Sid} {i : ServerId} {x : Txn} {o : InodeOp} {f : o.Res → Process}
      (hx : s.txn t = some x) (hprog : x.prog i = .op (.inode o) f)
      (hfree : s.blocked t i (o.waitsFor (o.result cfg.shard (s.view x i))) = false) :
      Move cfg s (.inode t i)
        (s.setTxn t (some (x.resume i (.inode o) (o.result cfg.shard (s.view x i)) f)))
  | send {t : Sid} {x : Txn} {cmds : List (ServerId × SubRequest)}
      {f : (ServerId → List SubReply) → Process} (hx : s.txn t = some x)
      (hprog : x.prog x.home = .op (.remote cmds) f) (hw : x.waiting = false) :
      Move cfg s (.send t)
        ({ s with srv := sendServers s t cmds }.setTxn t (some (x.sending cfg cmds)))
  | receive {t : Sid} {x : Txn} {cmds : List (ServerId × SubRequest)}
      {f : (ServerId → List SubReply) → Process} (hx : s.txn t = some x)
      (hprog : x.prog x.home = .op (.remote cmds) f) (hw : x.waiting = true)
      (hret : ∀ c ∈ cmds, (x.prog c.1).isRet = true) :
      Move cfg s (.receive t) (s.setTxn t (some (x.received cmds f)))
  | commit {t : Sid} {x : Txn} (hx : s.txn t = some x)
      (hret : ∀ i ∈ cfg.servers, (x.prog i).isRet = true) :
      Move cfg s (.commit t)
        (({ s with inode := fun i => applyPuts (putsOf (x.log i)) (s.inode i) }.onServers
          (.commit t)).setTxn t none)
  | abort {t : Sid} {x : Txn} (hx : s.txn t = some x) :
      Move cfg s (.abort t) ((s.onServers (.abort t)).setTxn t none)
  | applyToCommit {t : Sid} {i : ServerId} {space : Bool} {y : Server}
      (hy : DirPathHash.step (s.srv i) (.applyToCommit t space) = some y) :
      Move cfg s (.applyToCommit t i space) (s.setServer i y)
  | release {t : Sid} {i : ServerId} {y : Server}
      (hy : DirPathHash.step (s.srv i) (.release t) = some y) :
      Move cfg s (.release t i) (s.setServer i y)
  | evict {i : ServerId} {k : Key} {y : Server}
      (hy : DirPathHash.step (s.srv i) (.evict k) = some y) :
      Move cfg s (.evict i k) (s.setServer i y)

variable {s s' : State} {i : ServerId} {e : DirPathHash.Event} {cfg : Config} {t u : Sid} {x : Txn}
  {o : Option Sid}

theorem onServer_eq_some (h : s.onServer i e = some s') :
    ∃ y, DirPathHash.step (s.srv i) e = some y ∧ s' = s.setServer i y := by
  obtain ⟨y, hy, rfl⟩ := map_eq_some_iff.mp h
  exact ⟨y, hy, rfl⟩

theorem stepRet_cases (hx : s.txn t = some x) (h : stepRet s t i x = some s') :
    Move cfg s (.ret t i) s' := by
  unfold stepRet at h
  split at h
  · rename_i op k mode f r hprog hr
    obtain ⟨s₁, hs₁, rfl⟩ := map_eq_some_iff.mp h
    obtain ⟨y, hy, rfl⟩ := onServer_eq_some hs₁
    exact .ret hx hprog hr hy
  · cases h

theorem stepSend_cases (hx : s.txn t = some x) (h : stepSend cfg s t x = some s') :
    Move cfg s (.send t) s' := by
  unfold stepSend at h
  (repeat' split at h) <;> cases h
  exact .send hx ‹_› ((Bool.not_eq_true _).mp ‹_›)

theorem stepReceive_cases (hx : s.txn t = some x) (h : stepReceive s t x = some s') :
    Move cfg s (.receive t) s' := by
  unfold stepReceive at h
  (repeat' split at h) <;> cases h
  rename_i hprog hw
  rw [Bool.and_eq_true, List.all_eq_true] at hw
  exact .receive hx hprog hw.1 hw.2

/-- **Every step of the cluster is one of these.** -/
theorem step_cases {e : Event} (h : step cfg s e = some s') : Move cfg s e s' := by
  cases e with
  | start t home req =>
    simp only [step] at h
    split at h
    · rename_i hc
      obtain ⟨s₁, hs₁, rfl⟩ := map_eq_some_iff.mp h
      obtain ⟨y, hy, rfl⟩ := onServer_eq_some hs₁
      exact .start hc.1 hc.2.1 hc.2.2 hy
    · cases h
  | call t i =>
    obtain ⟨x, hx, h⟩ := bind_eq_some_iff.mp h
    unfold stepCall at h
    split at h
    · rename_i op k mode f hprog
      obtain ⟨y, hy, rfl⟩ := onServer_eq_some h
      exact .call hx hprog hy
    · cases h
  | advance t i c =>
    obtain ⟨x, hx, h⟩ := bind_eq_some_iff.mp h
    obtain ⟨y, hy, rfl⟩ := onServer_eq_some h
    exact .advance hx hy
  | ret t i =>
    obtain ⟨x, hx, h⟩ := bind_eq_some_iff.mp h
    exact stepRet_cases hx h
  | nextInodeId t i n =>
    obtain ⟨x, hx, h⟩ := bind_eq_some_iff.mp h
    unfold stepNextInodeId at h
    (repeat' split at h) <;> cases h
    exact .nextInodeId hx ‹_› ‹_›
  | inode t i =>
    obtain ⟨x, hx, h⟩ := bind_eq_some_iff.mp h
    unfold stepInode at h
    dsimp only at h
    (repeat' split at h) <;> cases h
    exact .inode hx ‹_› ((Bool.not_eq_true _).mp ‹_›)
  | send t =>
    obtain ⟨x, hx, h⟩ := bind_eq_some_iff.mp h
    exact stepSend_cases hx h
  | receive t =>
    obtain ⟨x, hx, h⟩ := bind_eq_some_iff.mp h
    exact stepReceive_cases hx h
  | commit t =>
    obtain ⟨x, hx, h⟩ := bind_eq_some_iff.mp h
    unfold stepCommit at h
    split at h <;> cases h
    exact .commit hx (all_eq_true.mp ‹_›)
  | abort t =>
    obtain ⟨x, hx, rfl⟩ := map_eq_some_iff.mp h
    exact .abort hx
  | applyToCommit t i space =>
    obtain ⟨y, hy, rfl⟩ := onServer_eq_some h
    exact .applyToCommit hy
  | release t i =>
    obtain ⟨y, hy, rfl⟩ := onServer_eq_some h
    exact .release hy
  | evict i k =>
    obtain ⟨y, hy, rfl⟩ := onServer_eq_some h
    exact .evict hy

/-! ## 2. Servers -/

@[simp] theorem setServer_srv_self (s : State) (i : ServerId) (y : Server) :
    (s.setServer i y).srv i = y := by simp [State.setServer]

theorem setServer_srv_ne (s : State) {j : ServerId} (y : Server) (h : j ≠ i) :
    (s.setServer i y).srv j = s.srv j := by simp [State.setServer, h]

@[simp] theorem setTxn_srv (s : State) (t : Sid) (x : Option Txn) :
    (s.setTxn t x).srv = s.srv := rfl

@[simp] theorem setTxn_txn_self (s : State) (t : Sid) (x : Option Txn) :
    (s.setTxn t x).txn t = x := by simp [State.setTxn]

theorem setTxn_txn_ne (s : State) (x : Option Txn) (h : u ≠ t) :
    (s.setTxn t x).txn u = s.txn u := by simp [State.setTxn, h]

/-- The server stands still, or makes one local step for the transaction. -/
def ServerMoves (o : Option Sid) (x x' : Server) : Prop :=
  x' = x ∨ ∃ e : DirPathHash.Event, e.isLocal = true ∧ e.sid = o ∧
    DirPathHash.step x e = some x'

theorem serverMoves_setServer {y : Server} (hl : e.isLocal = true)
    (hy : DirPathHash.step (s.srv i) e = some y) (j : ServerId) :
    ServerMoves e.sid (s.srv j) ((s.setServer i y).srv j) := by
  by_cases hj : j = i
  · subst hj
    rw [setServer_srv_self]
    exact .inr ⟨e, hl, rfl, hy⟩
  · exact .inl (setServer_srv_ne s y hj)

theorem serverMoves_getD {x : Server} (hl : e.isLocal = true) :
    ServerMoves e.sid x ((DirPathHash.step x e).getD x) := by
  cases hy : DirPathHash.step x e with
  | none => exact .inl rfl
  | some y => exact .inr ⟨e, hl, rfl, hy⟩

/-- **A step of the cluster is, on every server, at most one local step of one session.** -/
theorem Move.servers {e : Event} (h : Move cfg s e s') (i : ServerId) :
    ServerMoves e.sid (s.srv i) (s'.srv i) := by
  cases h with
  | start _ _ _ hy => exact serverMoves_setServer rfl hy i
  | call _ _ hy | advance _ hy | ret _ _ _ hy | applyToCommit hy | release hy | evict hy =>
    exact serverMoves_setServer rfl hy i
  | nextInodeId | inode | receive => exact .inl rfl
  | send =>
    simp only [setTxn_srv, sendServers]
    split
    · exact .inl rfl
    · exact serverMoves_getD rfl
  | commit | abort => exact serverMoves_getD rfl

theorem ServerMoves.plain {x x' : Server} (h : ServerMoves o x x') (hx : DirPathHash.Plain x) :
    DirPathHash.Plain x' := by
  rcases h with rfl | ⟨e, hl, -, hs⟩
  · exact hx
  · exact DirPathHash.plain_step hx hl hs

theorem ServerMoves.session_ne {x x' : Server} (h : ServerMoves o x x') (hu : o ≠ some u) :
    x'.session u = x.session u := by
  rcases h with rfl | ⟨e, -, rfl, hs⟩
  · rfl
  · exact DirPathHash.step_session_ne hs hu

/-! ## 3. A session and its program -/

/-- The session stands where the program is, with the locks and the writes of the history. -/
inductive Match (y : Session) (h : List Entry) : Process → Prop
  | between {p : Process} (hp : y.phase = .active) (hc : y.call = none)
      (hh : y.held = locksOf h) (hw : y.writes = writesOf h) : Match y h p
  | calling (c : DirPathHash.Call) {f : Option InodeId → Process} (hp : y.phase = .active)
      (hc : y.call = some c)
      (hprog : DirPathHash.Progress (locksOf h) (writesOf h) y c) :
      Match y h (.op (.hash c.op c.key c.mode) f)
  | failed {op : DirPathHash.Op} {k : Key} {mode : DirLockMode} {f : Option InodeId → Process}
      (hp : y.phase = .failed) (hh : locksOf h ⊆ y.held) : Match y h (.op (.hash op k mode) f)

section Match

variable {y : Session} {h : List Entry} {p : Process} {op : DirPathHash.Op} {k : Key}
  {mode : DirLockMode} {f : Option InodeId → Process} {r : Option InodeId} {z z' : Server}

theorem Match.phase (hm : Match y h p) : y.phase = .active ∨ y.phase = .failed := by
  cases hm with
  | between hp | calling _ hp => exact .inl hp
  | failed hp => exact .inr hp

/-- The locks of the history are held. -/
theorem Match.locks (hm : Match y h p) : locksOf h ⊆ y.held := by
  cases hm with
  | between _ _ hh => exact fun l hl => hh ▸ hl
  | failed _ hh => exact hh
  | calling c _ _ hprog => exact hprog.subset

/-- A program that is not at a call of the hash. -/
theorem Match.between_of (hm : Match y h p) (hno : ∀ op k mode f, p ≠ .op (.hash op k mode) f) :
    y.phase = .active ∧ y.call = none ∧ y.held = locksOf h ∧ y.writes = writesOf h := by
  cases hm with
  | between hp hc hh hw => exact ⟨hp, hc, hh, hw⟩
  | calling => exact absurd rfl (hno _ _ _ _)
  | failed => exact absurd rfl (hno _ _ _ _)

theorem ne_hash_of_isRet (hr : p.isRet = true) : ∀ op k mode f, p ≠ .op (.hash op k mode) f := by
  rintro op k mode f rfl
  cases hr

/-- An operation of another kind. -/
theorem Match.other (hm : Match y h p) (hno : ∀ op k mode f, p ≠ .op (.hash op k mode) f)
    {e : Entry} (hl : e.1.locks = []) (hw : e.1.writes = []) (p' : Process) :
    Match y (e :: h) p' := by
  obtain ⟨hp, hc, hh, hwr⟩ := hm.between_of hno
  exact .between hp hc (by simp [hh, hl]) (by simp [hwr, hw])

/-- A new call. -/
theorem Match.call (hm : Match (z.session t) h (.op (.hash op k mode) f))
    (hs : DirPathHash.step z (.call t op k mode) = some z') :
    Match (z'.session t) h (.op (.hash op k mode) f) := by
  obtain ⟨hg, rfl⟩ := guard_eq_some hs
  rw [DirPathHash.setSession_session_self]
  have hb : (z.session t).held = locksOf h ∧ (z.session t).writes = writesOf h := by
    cases hm with
    | between _ _ hh hw => exact ⟨hh, hw⟩
    | calling c _ hc => simp [hc] at hg
    | failed hp => simp [hp] at hg
  exact .calling ⟨op, k, mode, .find⟩ hg.1 rfl hb

theorem Match.advance {c : DirPathHash.Choice} (hm : Match (z.session t) h p)
    (hs : DirPathHash.step z (.advance t c) = some z') : Match (z'.session t) h p := by
  obtain ⟨hp, c, hc, ha⟩ := DirPathHash.advance_cases hs
  cases hm with
  | between _ hc' => simp [hc'] at hc
  | failed hp' => simp [hp'] at hp
  | calling c' _ hc' hprog =>
    rw [hc'] at hc
    cases hc
    rcases DirPathHash.progress_advance ha hp hc' hprog with hf | ⟨st, hp', hc'', hprog'⟩
    · exact .failed hf.1 hf.2
    · exact .calling { c with stage := st } hp' hc'' hprog'

theorem call_of_returned (h : returned z t = some r) :
    ∃ c, (z.session t).call = some c ∧ c.stage = .returned r := by
  unfold returned at h
  (repeat' split at h) <;> cases h
  exact ⟨_, ‹_›, ‹_›⟩

/-- A call returns: its lock and its write are those of the new entry. -/
theorem Match.ret (hok : DirPathHash.SessionOk (z.session t))
    (hm : Match (z.session t) h (.op (.hash op k mode) f)) (hr : returned z t = some r)
    (hs : DirPathHash.step z (.ret t) = some z') :
    Match (z'.session t) (⟨.hash op k mode, r⟩ :: h) (f r) := by
  obtain ⟨c, hc, hst⟩ := call_of_returned hr
  obtain ⟨_, rfl⟩ := guard_eq_some hs
  rw [DirPathHash.setSession_session_self]
  cases hm with
  | between _ hc' => simp [hc'] at hc
  | failed hp => simp [hok.quiet (by simp [hp])] at hc
  | calling c' hp hc' hprog =>
    rw [hc'] at hc
    cases hc
    simp only [DirPathHash.Progress, hst] at hprog
    refine .between hp rfl hprog.1 ?_
    rw [writesOf_cons, hprog.2]
    cases hop : c.op <;> simp [DirPathHash.Call.writes, ServerOp.writes, hop]

end Match

/-! ## 4. A transaction -/

/-- The commands that the home program is about to send, or has sent and waits for. -/
def sends : Process → List (ServerId × SubRequest)
  | .op (.remote cmds) _ => cmds
  | _ => []

def Txn.pending (x : Txn) : List (ServerId × SubRequest) :=
  if x.waiting then sends (x.prog x.home) else []

/-- The commands that a server has got. -/
def Txn.cmds (x : Txn) (i : ServerId) : List SubRequest :=
  forServer i (sentOf (x.log x.home) ++ x.pending)

/-- The transaction runs on the server. -/
def Txn.runs (x : Txn) (i : ServerId) : Prop := i = x.home ∨ x.cmds i ≠ []

/-- How a worker's program ends: `reps` are the replies before. -/
def SubReturns (cfg : Config) (i : ServerId) (cs : List SubRequest) (reps : List SubReply)
    (h : List Entry) (r : Result) : Prop :=
  ∃ rs, r = .replies rs ∧ SubDone cfg i cs (reps ++ rs) h

structure TxnOk (cfg : Config) (sess : ServerId → Session) (x : Txn) : Prop where
  home : x.home ∈ cfg.servers
  waits : x.waiting = true → ∃ cmds f, x.prog x.home = .op (.remote cmds) f
  sent : ∀ c ∈ sentOf (x.log x.home) ++ x.pending, x.home = cnServerId ∧ c.1 ∈ cfg.workers
  main : Prog.Safe (OpOk cfg x.home []) (fun h _ => MainEffect cfg x.home h) (x.log x.home)
    (x.prog x.home)
  mainAll : Prog.All (OpOk cfg x.home []) (x.log x.home)
  runs : ∀ i, x.runs i → Match (sess i) (x.log i) (x.prog i)
  rests : ∀ i, ¬ x.runs i → (sess i).phase = .idle ∧ x.log i = [] ∧ (x.prog i).isRet = true
  subAll : ∀ i, i ≠ x.home → Prog.All (OpOk cfg i (x.cmds i)) (x.log i)
  busy : ∀ i, i ≠ x.home → forServer i x.pending ≠ [] →
    Prog.Safe (OpOk cfg i (x.cmds i))
      (SubReturns cfg i (x.cmds i) (repliesOf i (x.log x.home))) (x.log i) (x.prog i)
  done : ∀ i, i ≠ x.home → forServer i x.pending = [] → (x.prog i).isRet = true ∧
    SubDone cfg i (x.cmds i) (repliesOf i (x.log x.home)) (x.log i)

section Resume

variable {x : Txn} {i : ServerId} {o : ServerOp} {r : o.Res} {f : o.Res → Process}

@[simp] theorem resume_prog_self : (x.resume i o r f).prog i = f r := by simp [Txn.resume]

theorem resume_prog_ne {j : ServerId} (h : j ≠ i) : (x.resume i o r f).prog j = x.prog j := by
  simp [Txn.resume, h]

@[simp] theorem resume_log_self : (x.resume i o r f).log i = ⟨o, r⟩ :: x.log i := by
  simp [Txn.resume]

theorem resume_log_ne {j : ServerId} (h : j ≠ i) : (x.resume i o r f).log j = x.log j := by
  simp [Txn.resume, h]

@[simp] theorem resume_home : (x.resume i o r f).home = x.home := rfl

@[simp] theorem resume_waiting : (x.resume i o r f).waiting = x.waiting := rfl

theorem sentOf_cons_of_ne {h : List Entry} (ho : ∀ cmds, o ≠ .remote cmds) :
    sentOf (⟨o, r⟩ :: h) = sentOf h := by
  cases o <;> first | rfl | exact absurd rfl (ho _)

theorem repliesOf_cons_of_ne {h : List Entry} (ho : ∀ cmds, o ≠ .remote cmds) (j : ServerId) :
    repliesOf j (⟨o, r⟩ :: h) = repliesOf j h := by
  cases o <;> first | rfl | exact absurd rfl (ho _)

end Resume

theorem forServer_append (i : ServerId) (l₁ l₂ : List (ServerId × SubRequest)) :
    forServer i (l₁ ++ l₂) = forServer i l₁ ++ forServer i l₂ := by
  simp [forServer]

variable {i : ServerId} {l : List (ServerId × SubRequest)}

theorem forServer_eq_nil (h : ∀ c ∈ l, c.1 ≠ i) : forServer i l = [] := by
  simp only [forServer, map_eq_nil_iff, filter_eq_nil_iff, decide_eq_true_eq]
  exact h

theorem exists_of_forServer_ne_nil (h : forServer i l ≠ []) : ∃ c ∈ l, c.1 = i := by
  by_contra hno
  exact h (forServer_eq_nil fun c hc hi => hno ⟨c, hc, hi⟩)

theorem OpOk.mono {cfg : Config} {cs cs' : List SubRequest} {h : List Entry} {o : ServerOp}
    (hne : cs ≠ []) (hsub : cs ⊆ cs') (ho : OpOk cfg i cs h o) : OpOk cfg i cs' h o := by
  cases o with
  | hash => exact ho
  | nextInodeId => exact ho
  | remote => exact ho
  | inode o =>
    cases o with
    | scan n p =>
      obtain ⟨k, hk, hs⟩ := ho
      exact ⟨k, hsub hk, hs⟩
    | rollbackSub => exact absurd ho hne
    | _ => exact ho

/-! ## 5. Transactions under the steps -/

section Txn

variable {cfg : Config} {sess sess' : ServerId → Session} {x : Txn}

variable {o : ServerOp} {f : o.Res → Process} {i : ServerId}

theorem TxnOk.pending_of_ne (h : TxnOk cfg sess x) (hprog : x.prog x.home = .op o f)
    (ho : ∀ cmds, o ≠ .remote cmds) : x.waiting = false := by
  by_contra hw
  obtain ⟨cmds, g, hg⟩ := h.waits ((Bool.not_eq_false _).mp hw)
  rw [hprog] at hg
  cases hg
  exact ho _ rfl

/-- An operation at one server that is not a send. -/
theorem TxnOk.resume (h : TxnOk cfg sess x) {r : o.Res} (hprog : x.prog i = .op o f)
    (ho : ∀ cmds, o ≠ .remote cmds) (hsess : ∀ j, j ≠ i → sess' j = sess j)
    (hm : x.runs i → Match (sess' i) (⟨o, r⟩ :: x.log i) (f r)) :
    TxnOk cfg sess' (x.resume i o r f) := by
  -- nothing changes in what has been sent
  have hsent : sentOf ((x.resume i o r f).log x.home) = sentOf (x.log x.home) := by
    by_cases hi : i = x.home
    · subst hi
      rw [resume_log_self, sentOf_cons_of_ne ho]
    · rw [resume_log_ne (Ne.symm hi)]
  have hreps : ∀ j, repliesOf j ((x.resume i o r f).log x.home) = repliesOf j (x.log x.home) := by
    intro j
    by_cases hi : i = x.home
    · subst hi
      rw [resume_log_self, repliesOf_cons_of_ne ho]
    · rw [resume_log_ne (Ne.symm hi)]
  have hpend : (x.resume i o r f).pending = x.pending := by
    by_cases hi : i = x.home
    · subst hi
      have hw := h.pending_of_ne hprog ho
      simp [Txn.pending, Txn.resume, hw]
    · simp [Txn.pending, Txn.resume, Ne.symm hi]
  have hcmds : (x.resume i o r f).cmds = x.cmds := by
    funext j
    rw [Txn.cmds, hpend, resume_home, hsent]
    rfl
  have hruns : (x.resume i o r f).runs = x.runs := by
    funext j
    simp only [Txn.runs, hcmds, resume_home]
  have hi : x.runs i := by
    by_contra hno
    have hret := (h.rests i hno).2.2
    rw [hprog] at hret
    cases hret
  -- at a worker, the program is one that works for pending commands
  have hbusy : i ≠ x.home → forServer i x.pending ≠ [] := by
    intro hne hnil
    have hret := (h.done i hne hnil).1
    rw [hprog] at hret
    cases hret
  have hlog : ∀ j, (x.resume i o r f).log j = if j = i then ⟨o, r⟩ :: x.log i else x.log j :=
    fun j => by simp [Txn.resume, Function.update_apply]
  have hprog' : ∀ j, (x.resume i o r f).prog j = if j = i then f r else x.prog j :=
    fun j => by simp [Txn.resume, Function.update_apply]
  -- the program has one operation less, and its history one more
  have hop : ∀ {O P} {h : List Entry}, Prog.Safe O P h (x.prog i) →
      O h o ∧ Prog.Safe O P (⟨o, r⟩ :: h) (f r) := fun hs => by
    rw [hprog] at hs
    exact ⟨hs.1, hs.2 r⟩
  obtain ⟨hhome, hwaits, hsent', hmain, hmainAll, hruns', hrests, hsubAll, hbusy', hdone⟩ := h
  refine ⟨hhome, ?_, ?_, ?_, ?_, ?_, ?_, ?_, ?_, ?_⟩ <;>
    simp only [resume_home, resume_waiting, hpend, hcmds, hruns, hlog, hprog'] <;>
    grind [Prog.All]

/-- Another transaction, or none, moves. -/
theorem TxnOk.congr (h : TxnOk cfg sess x) (hsess : ∀ j, sess' j = sess j) : TxnOk cfg sess' x := by
  have heq : sess' = sess := funext hsess
  rw [heq]
  exact h

/-- A session moves, its program stands still. -/
theorem TxnOk.session (h : TxnOk cfg sess x) (hsess : ∀ j, j ≠ i → sess' j = sess j) (hi : x.runs i)
    (hm : Match (sess' i) (x.log i) (x.prog i)) : TxnOk cfg sess' x where
  home := h.home
  waits := h.waits
  sent := h.sent
  main := h.main
  mainAll := h.mainAll
  runs j hj := by
    by_cases hij : j = i
    · rw [hij]
      exact hm
    · rw [hsess j hij]
      exact h.runs j hj
  rests j hj := by
    rw [hsess j fun hij => hj (hij ▸ hi)]
    exact h.rests j hj
  subAll := h.subAll
  busy := h.busy
  done := h.done

/-- A new transaction. -/
theorem txnOk_begin {home : ServerId} {req : Request} (hhome : home ∈ cfg.servers)
    (hrun : (sess home).phase = .active ∧ (sess home).call = none ∧ (sess home).held = [] ∧
      (sess home).writes = [])
    (hidle : ∀ j, j ≠ home → (sess j).phase = .idle) :
    TxnOk cfg sess (.begin home (Result.response <$> handle cfg home req)) := by
  have hcmds : ∀ j, (Txn.begin home (Result.response <$> handle cfg home req)).cmds j = [] :=
    fun _ => rfl
  have hprog : ∀ j, j ≠ home → ((Txn.begin home (Result.response <$>
      handle cfg home req)).prog j).isRet = true := fun j hj => by
    simp [Txn.begin, hj, Prog.isRet]
  refine ⟨hhome, ?waits, ?sent, ?main, trivial, ?runs, ?rests, fun _ _ => trivial, ?busy, ?done⟩
  case waits => exact fun hw => by cases hw
  case sent => exact fun c hc => by cases hc
  case main =>
    simp only [Txn.begin, Function.update_self]
    exact (safe_handle cfg home req).map fun _ _ _ hm => hm
  case runs =>
    rintro j (rfl | hj)
    · exact .between hrun.1 hrun.2.1 hrun.2.2.1 hrun.2.2.2
    · exact absurd (hcmds j) hj
  case rests =>
    intro j hj
    have hne : j ≠ home := fun hjh => hj (.inl hjh)
    exact ⟨hidle j hne, rfl, hprog j hne⟩
  case busy => exact fun j _ hp => absurd rfl hp
  case done => exact fun j hj _ => ⟨hprog j hj, .nil⟩

section

variable (h : TxnOk cfg sess x) {cmds : List (ServerId × SubRequest)}
  {f : (ServerId → List SubReply) → Process} (hprog : x.prog x.home = .op (.remote cmds) f)

include h hprog

theorem TxnOk.remote :
    x.home = cnServerId ∧ (∀ c ∈ cmds, c.1 ∈ cfg.workers) ∧ forServer x.home cmds = [] := by
  have hmain := h.main
  rw [hprog] at hmain
  obtain ⟨⟨hcn, hw, -⟩, -⟩ := hmain
  refine ⟨hcn, hw, forServer_eq_nil fun c hc heq => ?_⟩
  exact cfg.cn_not_worker (hcn ▸ heq ▸ hw c hc)

/-- The commands are sent: the addressed sessions are in a transaction, old or new. -/
theorem TxnOk.send (hw : x.waiting = false) (hidle : ∀ j, (sess j).phase = .idle →
      (sess j).call = none ∧ (sess j).held = [] ∧ (sess j).writes = [])
    (hsess : ∀ j, forServer j cmds = [] → sess' j = sess j)
    (hbegin : ∀ j, forServer j cmds ≠ [] →
      sess' j = if (sess j).phase = .idle then { sess j with phase := .active } else sess j) :
    TxnOk cfg sess' (x.sending cfg cmds) := by
  obtain ⟨hcn, hworkers, hhome⟩ := h.remote hprog
  have hold : x.pending = [] := by simp [Txn.pending, hw]
  have hmain : (x.sending cfg cmds).prog x.home = .op (.remote cmds) f := by
    simp [Txn.sending, hhome, hprog]
  have hpend : (x.sending cfg cmds).pending = cmds := by
    change (if true = true then sends ((x.sending cfg cmds).prog x.home) else []) = cmds
    rw [hmain]
    rfl
  have hcmds : ∀ j, (x.sending cfg cmds).cmds j = x.cmds j ++ forServer j cmds := by
    intro j
    rw [Txn.cmds, hpend, Txn.cmds, hold, append_nil, ← forServer_append]
    rfl
  have hprog_ne : ∀ j, forServer j cmds = [] → (x.sending cfg cmds).prog j = x.prog j := by
    intro j hj
    simp [Txn.sending, hj]
  have hdone : ∀ j, j ≠ x.home → (x.prog j).isRet = true ∧
      SubDone cfg j (x.cmds j) (repliesOf j (x.log x.home)) (x.log j) := by
    intro j hj
    exact h.done j hj (by rw [hold]; rfl)
  have hlog : ∀ j, (x.sending cfg cmds).log j = x.log j := fun _ => rfl
  have hhome' : (x.sending cfg cmds).home = x.home := rfl
  obtain ⟨hin, -, hsent, hmain', hmainAll, hruns, hrests, hsubAll, -, -⟩ := h
  refine ⟨hin, fun _ => ⟨cmds, f, hmain⟩, ?sent, ?main, hmainAll, ?runs, ?rests, ?subAll, ?busy,
    ?done⟩ <;> simp only [Txn.runs, hhome', hpend, hcmds, hlog] at *
  case runs =>
    intro j hj
    by_cases hf : forServer j cmds = []
    · rw [hprog_ne j hf, hsess j hf]
      exact hruns j (by simpa [hf] using hj)
    · have hjh : j ≠ x.home := fun heq => hf (heq ▸ hhome)
      rw [hbegin j hf]
      by_cases hr : j = x.home ∨ x.cmds j ≠ []
      · obtain ⟨hp, hc, hh, hwr⟩ := (hruns j hr).between_of (ne_hash_of_isRet (hdone j hjh).1)
        rw [if_neg (by simp [hp])]
        exact .between hp hc hh hwr
      · obtain ⟨hp, hlog, -⟩ := hrests j hr
        obtain ⟨hc, hh, hwr⟩ := hidle j hp
        rw [if_pos hp, hlog]
        exact .between rfl hc hh hwr
  case subAll =>
    intro j hj
    by_cases hne : x.cmds j = []
    · rw [(hrests j (by simp [hj, hne])).2.1]
      trivial
    · exact (hsubAll j hj).mono fun _ _ ho => OpOk.mono hne (subset_append_left _ _) ho
  case busy =>
    intro j hj hpj
    have hp : (x.sending cfg cmds).prog j =
        Result.replies <$> subHandles cfg j (forServer j cmds) := by
      simp [Txn.sending, hpj]
    rw [hp]
    refine (safe_subHandles _ (subset_append_right _ _) _ _ _ (hdone j hj).2).map ?_
    exact fun _ rs _ hd => ⟨rs, rfl, hd⟩
  all_goals grind [append_eq_nil_iff]

/-- The replies are received. -/
theorem TxnOk.receive (hw : x.waiting = true) (hret : ∀ c ∈ cmds, (x.prog c.1).isRet = true) :
    TxnOk cfg sess (x.received cmds f) := by
  obtain ⟨hcn, hworkers, hhome⟩ := h.remote hprog
  have hold : x.pending = cmds := by simp [Txn.pending, hw, hprog, sends]
  have hpend : (x.received cmds f).pending = [] := rfl
  have hlog : (x.received cmds f).log x.home = ⟨.remote cmds, fun i =>
      if forServer i cmds = [] then [] else repliesNow x i⟩ :: x.log x.home := by
    simp [Txn.received, Txn.resume]
  have hlog_ne : ∀ j, j ≠ x.home → (x.received cmds f).log j = x.log j :=
    fun j hj => by simp [Txn.received, Txn.resume, hj]
  have hprog_ne : ∀ j, j ≠ x.home → (x.received cmds f).prog j = x.prog j :=
    fun j hj => by simp [Txn.received, Txn.resume, hj]
  have hcmds : (x.received cmds f).cmds = x.cmds := by
    funext j
    rw [Txn.cmds, hpend, append_nil, Txn.cmds, hold]
    change forServer j (sentOf ((x.received cmds f).log x.home)) = _
    rw [hlog]
    rfl
  have hruns : (x.received cmds f).runs = x.runs := by
    funext j
    simp only [Txn.runs, hcmds]
    rfl
  have hmain := h.main
  rw [hprog] at hmain
  have hprog_self : (x.received cmds f).prog x.home = f fun i =>
      if forServer i cmds = [] then [] else repliesNow x i := by
    simp [Txn.received, Txn.resume]
  have hhome' : (x.received cmds f).home = x.home := rfl
  refine ⟨h.home, nofun, ?sent, ?main, ?mainAll, ?runs, ?rests, ?subAll, ?busy, ?done⟩ <;>
    simp only [hhome', hpend, hcmds, hruns, hlog]
  case main =>
    rw [hprog_self]
    exact hmain.2 _
  case mainAll => exact ⟨hmain.1, h.mainAll⟩
  case runs =>
    intro j hj
    by_cases hjh : j = x.home
    · subst hjh
      rw [hlog]
      refine (h.runs _ hj).other ?_ rfl rfl _
      rw [hprog]
      exact fun op k mode g heq => by cases heq
    · rw [hlog_ne j hjh, hprog_ne j hjh]
      exact h.runs j hj
  case busy => exact fun j _ hpj => absurd rfl hpj
  case done =>
    intro j hj _
    rw [hprog_ne j hj, hlog_ne j hj]
    change _ ∧ SubDone cfg j _ (repliesOf j (x.log x.home) ++
      if forServer j cmds = [] then [] else repliesNow x j) _
    split
    · rename_i hnil
      rw [append_nil]
      exact h.done j hj (hold ▸ hnil)
    · rename_i hne
      obtain ⟨c, hc, rfl⟩ := exists_of_forServer_ne_nil hne
      have hsafe := h.busy c.1 hj (hold ▸ hne)
      have hr := hret c hc
      unfold repliesNow
      cases hp : x.prog c.1 with
      | fail | op => simp [hp, Prog.isRet] at hr
      | ret a =>
        rw [hp] at hsafe
        obtain ⟨rs, rfl, hd⟩ := hsafe
        exact ⟨rfl, hd⟩
  all_goals
    obtain ⟨-, -, hsent, -, -, -, hrests, hsubAll, -, -⟩ := h
    grind [Txn.runs, sentOf]

end

end Txn

theorem TxnOk.runs_mem {cfg : Config} {sess : ServerId → Session} {x : Txn}
    (h : TxnOk cfg sess x) {i : ServerId} (hi : x.runs i) : i ∈ cfg.servers := by
  rcases hi with rfl | hne
  · exact h.home
  · obtain ⟨c, hc, rfl⟩ := exists_of_forServer_ne_nil hne
    exact mem_cons_of_mem _ (h.sent c hc).2

/-! ## 6. The state -/

/-- What holds of one session, on all servers. -/
structure Own (cfg : Config) (s : State) (t : Sid) : Prop where
  txn : ∀ x, s.txn t = some x → TxnOk cfg (fun i => (s.srv i).session t) x
  /-- Without a transaction it is idle or in the callback after one. -/
  free : s.txn t = none → ∀ i,
    ((s.srv i).session t).phase = .idle ∨ ((s.srv i).session t).phase = .ending
  /-- Only servers of the cluster are used, -/
  outside : ∀ i, i ∉ cfg.servers → ((s.srv i).session t).phase = .idle
  /-- and only known sessions. -/
  unused : t ∉ s.sids → s.txn t = none ∧ ∀ i, ((s.srv i).session t).phase = .idle

structure Base (cfg : Config) (s : State) : Prop where
  plain : ∀ i, DirPathHash.Plain (s.srv i)
  own : ∀ t, Own cfg s t

theorem base_init (cfg : Config) (table : Key → Option InodeId) (inode : ServerId → InodeTable)
    (seq : ServerId → List Nat) : Base cfg (.init table inode seq) where
  plain _ := DirPathHash.plain_init table
  own t :=
    { txn := fun x hx => by cases hx
      free := fun _ _ => .inl rfl
      outside := fun _ _ => rfl
      unused := fun _ => ⟨rfl, fun _ => rfl⟩ }

section Own

variable {cfg : Config} {s s' : State} {t : Sid}

/-- Another session has moved. -/
theorem Own.congr (h : Own cfg s t) (hs : ∀ i, (s'.srv i).session t = (s.srv i).session t)
    (hx : s'.txn t = s.txn t) (hsids : s.sids ⊆ s'.sids) : Own cfg s' t where
  txn x hx' := (h.txn x (hx ▸ hx')).congr hs
  free hn i := by
    rw [hs i]
    exact h.free (hx ▸ hn) i
  outside i hi := by
    rw [hs i]
    exact h.outside i hi
  unused ht := by
    obtain ⟨hn, hidle⟩ := h.unused fun hmem => ht (hsids hmem)
    exact ⟨hx.trans hn, fun i => by rw [hs i]; exact hidle i⟩

theorem own_of_txnOk {x : Txn} (hx : s.txn t = some x)
    (hok : TxnOk cfg (fun i => (s.srv i).session t) x) (ht : t ∈ s.sids) : Own cfg s t where
  txn x' hx' := by
    rw [hx] at hx'
    cases hx'
    exact hok
  free hn := by simp [hx] at hn
  outside i hi := (hok.rests i fun hr => hi (hok.runs_mem hr)).1
  unused hn := absurd ht hn

theorem own_of_none (hx : s.txn t = none)
    (hfree : ∀ i, ((s.srv i).session t).phase = .idle ∨ ((s.srv i).session t).phase = .ending)
    (hout : ∀ i, i ∉ cfg.servers → ((s.srv i).session t).phase = .idle) (ht : t ∈ s.sids) :
    Own cfg s t where
  txn x hx' := by simp [hx] at hx'
  free _ := hfree
  outside := hout
  unused hn := absurd ht hn

theorem Own.mem_sids (h : Own cfg s t) {x : Txn} (hx : s.txn t = some x) : t ∈ s.sids := by
  by_contra hno
  simp [(h.unused hno).1] at hx

theorem Own.txn_eq_none (h : Own cfg s t) {i : ServerId}
    (hp : ((s.srv i).session t).phase = .ending) :
    s.txn t = none ∧ t ∈ s.sids ∧ i ∈ cfg.servers := by
  refine ⟨?_, ?_, ?_⟩
  · cases hx : s.txn t with
    | none => rfl
    | some x =>
      have hok := h.txn x hx
      by_cases hr : x.runs i
      · rcases (hok.runs i hr).phase with hp' | hp' <;> simp [hp] at hp'
      · have hidle : ((s.srv i).session t).phase = .idle := (hok.rests i hr).1
        simp [hp] at hidle
  · by_contra hno
    simp [(h.unused hno).2 i] at hp
  · by_contra hno
    simp [h.outside i hno] at hp

end Own

/-- The sessions of one transaction when one server moves. -/
theorem session_setServer_ne (s : State) {i j : ServerId} (y : Server) (t : Sid) (h : j ≠ i) :
    ((s.setServer i y).srv j).session t = (s.srv j).session t := by
  rw [setServer_srv_ne s y h]

/-- A transaction whose session on `i` is active or has failed runs there. -/
theorem TxnOk.runs_of {cfg : Config} {sess : ServerId → Session} {x : Txn}
    (h : TxnOk cfg sess x) {i : ServerId} (hp : (sess i).phase ≠ .idle) : x.runs i := by
  by_contra hno
  exact hp (h.rests i hno).1

/-! ## 7. The invariant -/

section Step

variable {cfg : Config} {s s' : State} {t : Sid}

variable {i : ServerId} {y x' : Server} {x : Txn} {op : DirPathHash.Op} {k : Key}
  {mode : DirLockMode} {e : Event}

theorem Base.idle (hb : Base cfg s) (hp : ((s.srv i).session t).phase = .idle) :
    ((s.srv i).session t).call = none ∧ ((s.srv i).session t).held = [] ∧
      ((s.srv i).session t).writes = [] :=
  ⟨((hb.plain i).lock.ok t).quiet (by simp [hp]), (hb.plain i).idle t hp,
    ((hb.plain i).lock.ok t).done (.inl hp)⟩

theorem step_begin {x : Server} :
    DirPathHash.step x (.begin t) = if (x.session t).phase = .idle then
      some (x.setSession t { x.session t with phase := .active }) else none := rfl

theorem own_start (hb : Base cfg s) {home : ServerId} {req : Request} (hhome : home ∈ cfg.servers)
    (hidle : ∀ i ∈ cfg.servers, ((s.srv i).session t).phase = .idle)
    (hy : DirPathHash.step (s.srv home) (.begin t) = some y) :
    Own cfg ({ s.setServer home y with sids := t :: s.sids }.setTxn t
      (some (.begin home (Result.response <$> handle cfg home req)))) t := by
  refine own_of_txnOk (setTxn_txn_self _ _ _) (txnOk_begin hhome ?_ ?_) mem_cons_self
  · rw [step_begin, if_pos (hidle home hhome)] at hy
    cases hy
    simp only [setTxn_srv, setServer_srv_self, DirPathHash.setSession_session_self]
    exact ⟨trivial, hb.idle (hidle home hhome)⟩
  · intro j hj
    change (((s.setServer home y).srv j).session t).phase = .idle
    rw [session_setServer_ne s y t hj]
    by_cases hmem : j ∈ cfg.servers
    · exact hidle j hmem
    · exact (hb.own t).outside j hmem

/-- The session makes a step of its own, the program none. -/
theorem own_session (hb : Base cfg s) (hx : s.txn t = some x)
    (hp : ((s.srv i).session t).phase ≠ .idle)
    (hm : Match ((s.srv i).session t) (x.log i) (x.prog i) →
      Match (y.session t) (x.log i) (x.prog i)) :
    Own cfg (s.setServer i y) t := by
  have hok := (hb.own t).txn x hx
  have hr := hok.runs_of hp
  refine own_of_txnOk hx (hok.session (fun j hj => session_setServer_ne s y t hj) hr ?_)
    ((hb.own t).mem_sids hx)
  rw [setServer_srv_self]
  exact hm (hok.runs i hr)

theorem phase_of_call {x : Server} (h : DirPathHash.step x (.call t op k mode) = some x') :
    (x.session t).phase ≠ .idle := by
  simp only [DirPathHash.step] at h
  split at h
  · rename_i hg
    simp [hg.1]
  · cases h

theorem phase_of_advance {x : Server} {c : DirPathHash.Choice}
    (h : DirPathHash.step x (.advance t c) = some x') : (x.session t).phase ≠ .idle := by
  simp only [DirPathHash.step] at h
  split at h
  · rename_i hg
    simp [hg]
  · cases h

section

variable (hb : Base cfg s) (hx : s.txn t = some x)

include hb hx

/-- An operation of the program that is not a call of the hash. -/
theorem own_other {o : ServerOp} {r : o.Res} {f : o.Res → Process} (hprog : x.prog i = .op o f)
    (ho : (∃ o', o = .inode o') ∨ o = .nextInodeId) (hsrv : s'.srv = s.srv)
    (hsids : s'.sids = s.sids) (hx' : s'.txn t = some (x.resume i o r f)) : Own cfg s' t := by
  refine own_of_txnOk hx' ?_ (hsids ▸ (hb.own t).mem_sids hx)
  rw [hsrv]
  have hok := (hb.own t).txn x hx
  have hremote : ∀ cmds, o ≠ .remote cmds := by
    rcases ho with ⟨o', rfl⟩ | rfl <;> simp
  refine hok.resume hprog hremote (fun _ _ => rfl) fun hr => ?_
  have hm := hok.runs i hr
  rw [hprog] at hm
  rcases ho with ⟨o', rfl⟩ | rfl
  · exact hm.other (by simp) rfl rfl _
  · exact hm.other (by simp) rfl rfl _

theorem own_ret {f : Option InodeId → Process}
    {r : Option InodeId} (hprog : x.prog i = .op (.hash op k mode) f)
    (hr : returned (s.srv i) t = some r) (hy : DirPathHash.step (s.srv i) (.ret t) = some y) :
    Own cfg ((s.setServer i y).setTxn t (some (x.resume i (.hash op k mode) r f))) t := by
  have hok := (hb.own t).txn x hx
  refine own_of_txnOk (setTxn_txn_self _ _ _) ?_ ((hb.own t).mem_sids hx)
  refine hok.resume hprog (by simp) (fun j hj => session_setServer_ne s y t hj) fun hruns => ?_
  rw [setTxn_srv, setServer_srv_self]
  have hm := hok.runs i hruns
  rw [hprog] at hm
  exact hm.ret ((hb.plain i).lock.ok t) hr hy

theorem own_send {cmds : List (ServerId × SubRequest)}
    {f : (ServerId → List SubReply) → Process} (hprog : x.prog x.home = .op (.remote cmds) f)
    (hw : x.waiting = false) :
    Own cfg ({ s with srv := sendServers s t cmds }.setTxn t (some (x.sending cfg cmds))) t := by
  refine own_of_txnOk (setTxn_txn_self _ _ _) ?_ ((hb.own t).mem_sids hx)
  refine ((hb.own t).txn x hx).send hprog hw (fun j hp => hb.idle hp) (fun j hj => ?_)
    fun j hj => ?_
  · simp [sendServers, hj]
  · simp only [setTxn_srv, sendServers, if_neg hj, step_begin]
    split
    · simp
    · rfl

/-- At the commit, a session that runs the transaction stands between two calls. -/
theorem Base.between (hret : ∀ i ∈ cfg.servers, (x.prog i).isRet = true) (hr : x.runs i) :
    ((s.srv i).session t).phase = .active ∧ ((s.srv i).session t).call = none ∧
      ((s.srv i).session t).held = locksOf (x.log i) ∧
      ((s.srv i).session t).writes = writesOf (x.log i) := by
  have hok := (hb.own t).txn x hx
  exact (hok.runs i hr).between_of (ne_hash_of_isRet (hret i (hok.runs_mem hr)))

/-- The commit on every server. -/
theorem commit_srv (hret : ∀ i ∈ cfg.servers, (x.prog i).isRet = true) (i : ServerId) :
    x.runs i ∧ (DirPathHash.step (s.srv i) (.commit t)).getD (s.srv i) = (s.srv i).commit t ∨
      ¬ x.runs i ∧ (DirPathHash.step (s.srv i) (.commit t)).getD (s.srv i) = s.srv i := by
  by_cases hr : x.runs i
  · obtain ⟨hp, hc, -⟩ := hb.between hx hret hr
    exact .inl ⟨hr, by simp [DirPathHash.step, hp, hc]⟩
  · have hp : ((s.srv i).session t).phase = .idle := (((hb.own t).txn x hx).rests i hr).1
    exact .inr ⟨hr, by simp [DirPathHash.step, hp]⟩

theorem abort_srv (i : ServerId) :
    x.runs i ∧ (DirPathHash.step (s.srv i) (.abort t)).getD (s.srv i) = (s.srv i).abort t ∨
      ¬ x.runs i ∧ (DirPathHash.step (s.srv i) (.abort t)).getD (s.srv i) = s.srv i := by
  have hok := (hb.own t).txn x hx
  by_cases hr : x.runs i
  · have hp : ((s.srv i).session t).phase = .active ∨ ((s.srv i).session t).phase = .failed :=
      (hok.runs i hr).phase
    exact .inl ⟨hr, by simp [DirPathHash.step, hp]⟩
  · have hp : ((s.srv i).session t).phase = .idle := (hok.rests i hr).1
    exact .inr ⟨hr, by simp [DirPathHash.step, hp]⟩

/-- The transaction has ended everywhere. -/
theorem own_end (hx' : s'.txn t = none) (hsids : s'.sids = s.sids)
    (hend : ∀ i, x.runs i ∧ ((s'.srv i).session t).phase = .ending ∨
      ¬ x.runs i ∧ s'.srv i = s.srv i) :
    Own cfg s' t := by
  have hok := (hb.own t).txn x hx
  have hrest : ∀ i, ¬ x.runs i → s'.srv i = s.srv i → ((s'.srv i).session t).phase = .idle := by
    intro i hr heq
    rw [heq]
    exact (hok.rests i hr).1
  refine own_of_none hx' (fun i => ?_) (fun i hi => ?_) (hsids ▸ (hb.own t).mem_sids hx)
  · rcases hend i with ⟨-, hp⟩ | ⟨hr, heq⟩
    · exact .inr hp
    · exact .inl (hrest i hr heq)
  · rcases hend i with ⟨hr, -⟩ | ⟨hr, heq⟩
    · exact absurd (hok.runs_mem hr) hi
    · exact hrest i hr heq

end

/-- A step in the callback. -/
theorem own_callback (hb : Base cfg s) (hp : ((s.srv i).session t).phase = .ending)
    (hp' : (y.session t).phase = .idle ∨ (y.session t).phase = .ending) :
    Own cfg (s.setServer i y) t := by
  obtain ⟨hx, hsids, hmem⟩ := (hb.own t).txn_eq_none hp
  refine own_of_none hx (fun j => ?_) (fun j hj => ?_) hsids
  · by_cases hji : j = i
    · subst hji
      rw [setServer_srv_self]
      exact hp'
    · rw [session_setServer_ne s y t hji]
      exact (hb.own t).free hx j
  · have hji : j ≠ i := fun hji => hj (hji ▸ hmem)
    rw [session_setServer_ne s y t hji]
    exact (hb.own t).outside j hj

open DirPathHash.Server

theorem phase_applyToCommit {x : Server} {space : Bool}
    (h : DirPathHash.step x (.applyToCommit t space) = some x') :
    (x.session t).phase = .ending ∧ (x'.session t).phase = .ending := by
  simp only [DirPathHash.step, applyToCommit] at h
  split at h
  · rename_i hp
    refine ⟨hp, ?_⟩
    repeat' split at h
    all_goals cases h
    all_goals simp [hp]
  · cases h

theorem phase_release {x : Server} (h : DirPathHash.step x (.release t) = some x') :
    (x.session t).phase = .ending ∧
      ((x'.session t).phase = .idle ∨ (x'.session t).phase = .ending) := by
  simp only [DirPathHash.step, release] at h
  split at h
  · rename_i hp
    refine ⟨hp.1, ?_⟩
    repeat' split at h
    all_goals cases h
    all_goals simp [hp.1]
  · cases h

/-- The session whose step it is. -/
theorem own_move (hb : Base cfg s) (hm : Move cfg s e s') (ht : e.sid = some t) : Own cfg s' t := by
  cases hm with
  | start hx hhome hidle hy =>
    cases ht
    exact own_start hb hhome hidle hy
  | call hx hprog hy =>
    cases ht
    refine own_session hb hx (phase_of_call hy) fun hmatch => ?_
    rw [hprog] at hmatch ⊢
    exact hmatch.call hy
  | advance hx hy =>
    cases ht
    exact own_session hb hx (phase_of_advance hy) fun hmatch => hmatch.advance hy
  | ret hx hprog hr hy =>
    cases ht
    exact own_ret hb hx hprog hr hy
  | nextInodeId hx hprog hn =>
    cases ht
    exact own_other hb hx hprog (.inr rfl) rfl rfl (setTxn_txn_self _ _ _)
  | inode hx hprog hfree =>
    cases ht
    exact own_other hb hx hprog (.inl ⟨_, rfl⟩) rfl rfl (setTxn_txn_self _ _ _)
  | send hx hprog hw =>
    cases ht
    exact own_send hb hx hprog hw
  | receive hx hprog hw hret =>
    cases ht
    refine own_of_txnOk (setTxn_txn_self _ _ _) ?_ ((hb.own _).mem_sids hx)
    exact ((hb.own _).txn _ hx).receive hprog hw hret
  | commit hx hret =>
    cases ht
    refine own_end hb hx (setTxn_txn_self _ _ _) rfl fun i => ?_
    rcases commit_srv hb hx hret i with ⟨hr, heq⟩ | ⟨hr, heq⟩
    · refine .inl ⟨hr, ?_⟩
      simp only [setTxn_srv, State.onServers, heq]
      simp [commit]
    · exact .inr ⟨hr, heq⟩
  | abort hx =>
    cases ht
    refine own_end hb hx (setTxn_txn_self _ _ _) rfl fun i => ?_
    rcases abort_srv hb hx i with ⟨hr, heq⟩ | ⟨hr, heq⟩
    · refine .inl ⟨hr, ?_⟩
      simp only [setTxn_srv, State.onServers, heq]
      simp [abort]
    · exact .inr ⟨hr, heq⟩
  | applyToCommit hy =>
    cases ht
    obtain ⟨hp, hp'⟩ := phase_applyToCommit hy
    exact own_callback hb hp (.inr hp')
  | release hy =>
    cases ht
    obtain ⟨hp, hp'⟩ := phase_release hy
    exact own_callback hb hp hp'
  | evict => cases ht

/-- What a step does not touch. -/
theorem Move.frame (hm : Move cfg s e s') {u : Sid} (hu : e.sid ≠ some u) :
    s'.txn u = s.txn u ∧ s.sids ⊆ s'.sids := by
  have hne : ∀ t, e.sid = some t → u ≠ t := fun t ht htu => hu (by rw [ht, htu])
  cases hm with
  | start => exact ⟨setTxn_txn_ne _ _ (hne _ rfl), subset_cons_self _ _⟩
  | ret | nextInodeId | inode | send | receive | commit | abort =>
    exact ⟨setTxn_txn_ne _ _ (hne _ rfl), List.Subset.refl _⟩
  | call | advance | applyToCommit | release | evict => exact ⟨rfl, List.Subset.refl _⟩

theorem base_move (hb : Base cfg s) (hm : Move cfg s e s') : Base cfg s' := by
  refine ⟨fun i => (hm.servers i).plain (hb.plain i), fun u => ?_⟩
  by_cases hu : e.sid = some u
  · exact own_move hb hm hu
  · obtain ⟨hx, hsids⟩ := hm.frame hu
    exact (hb.own u).congr (fun i => (hm.servers i).session_ne hu) hx hsids

end Step

end FalconFS.Cluster
