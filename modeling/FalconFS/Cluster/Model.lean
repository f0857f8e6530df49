/-
# The cluster

A coordinator and its workers, each with its directory table, its dir-path hash and its inode
table.  A transaction is started by a request at one server (its home) and runs there as the handler
of `meta_handle.c`; on the coordinator it may send commands, and then runs on the addressed workers
too, in a session of its own on each.  Every step is one of

* a step of the dir-path hash (find, read, fill, lock, table write; see `DirPathHash.step`),
* one operation on the inode table, one draw from the sequence, one send, one receive,
* a commit, which is atomic over all servers, or an abort, at any moment before,
* in the callback after either, one action or one lock release on one server,
* the eviction of an item from a hash.

Between any two steps of a transaction, on the same or on different servers, the others may run.
-/
import FalconFS.Utils.InodeSequence

namespace FalconFS.Cluster

open Function

open DirPathHash (Server)
open InodeSequence (IsNewNumber generateInodeIdBySeqAndNodeId)

/-! ## 1. State -/

/-- How a program of a transaction ends: the codes for the client, or the replies of a worker. -/
inductive Result
  | response (codes : List ErrorCode)
  | replies (rs : List SubReply)

abbrev Process := Handler Result

structure Txn where
  home : ServerId
  /-- What is left to do, on each server. -/
  prog : ServerId → Process
  /-- What has been done, on each server. -/
  log : ServerId → List Entry
  /-- The home program has sent its commands and waits. -/
  waiting : Bool

structure State where
  srv : ServerId → Server
  inode : ServerId → InodeTable
  /-- The numbers that `GetNextSequenceNum` has returned on each server. -/
  seq : ServerId → List Nat
  txn : Sid → Option Txn
  /-- The sessions that have been used. -/
  sids : List Sid

/-- `GenerateInodeIdBySeqAndNodeId` -/
def generateInodeId (seq : Nat) (node : ServerId) : InodeId :=
  (generateInodeIdBySeqAndNodeId (BitVec.ofNat 64 seq) (BitVec.ofNat 32 node)).toNat

def State.setServer (s : State) (i : ServerId) (x : Server) : State :=
  { s with srv := update s.srv i x }

def State.setTxn (s : State) (t : Sid) (x : Option Txn) : State :=
  { s with txn := update s.txn t x }

/-- The program of the transaction on server `i` goes on with the result of its operation. -/
def Txn.resume (x : Txn) (i : ServerId) (o : ServerOp) (r : o.Res) (k : o.Res → Process) : Txn :=
  { x with
    prog := update x.prog i (k r)
    log := update x.log i (⟨o, r⟩ :: x.log i) }

def Txn.begin (home : ServerId) (p : Process) : Txn :=
  ⟨home, update (fun _ => .ret (.replies [])) home p, fun _ => [], false⟩

/-- The inode table as transaction `x` sees it on server `i`. -/
def State.view (s : State) (x : Txn) (i : ServerId) : InodeTable :=
  applyPuts (putsOf (x.log i)) (s.inode i)

/-- Another transaction has an uncommitted write under one of the keys. -/
def State.blocked (s : State) (t : Sid) (i : ServerId) (keys : List Key) : Bool :=
  s.sids.any fun u => u ≠ t &&
    (s.txn u).any fun y => (putsOf (y.log i)).any fun p => keys.contains p.key

/-! ## 2. Steps -/

inductive Event
  | start (t : Sid) (home : ServerId) (req : Request)
  /-- The next operation is a call of the hash. -/
  | call (t : Sid) (i : ServerId)
  | advance (t : Sid) (i : ServerId) (x : DirPathHash.Choice)
  /-- The call returns. -/
  | ret (t : Sid) (i : ServerId)
  /-- `n` is what `GetNextSequenceNum` returns. -/
  | nextInodeId (t : Sid) (i : ServerId) (n : Nat)
  | inode (t : Sid) (i : ServerId)
  | send (t : Sid)
  | receive (t : Sid)
  | commit (t : Sid)
  | abort (t : Sid)
  | applyToCommit (t : Sid) (i : ServerId) (space : Bool)
  | release (t : Sid) (i : ServerId)
  | evict (i : ServerId) (k : Key)

/-- One step of one server. -/
def State.onServer (s : State) (i : ServerId) (e : DirPathHash.Event) : Option State :=
  (DirPathHash.step (s.srv i) e).map (s.setServer i)

/-- The same event on every server where it can happen. -/
def State.onServers (s : State) (e : DirPathHash.Event) : State :=
  { s with srv := fun i => (DirPathHash.step (s.srv i) e).getD (s.srv i) }

/-- The value that the running call of session `t` returns. -/
def returned (x : Server) (t : Sid) : Option (Option InodeId) :=
  match (x.session t).call with
  | some c =>
    match c.stage with
    | .returned r => some r
    | _ => none
  | none => none

section

variable (s : State) (t : Sid) (i : ServerId) (x : Txn)

def stepCall : Option State :=
  match x.prog i with
  | .op (.hash op k mode) _ => s.onServer i (.call t op k mode)
  | _ => none

def stepRet : Option State :=
  match x.prog i, returned (s.srv i) t with
  | .op (.hash op k mode) f, some r =>
    (s.onServer i (.ret t)).map (·.setTxn t (some (x.resume i (.hash op k mode) r f)))
  | _, _ => none

def stepNextInodeId (n : Nat) : Option State :=
  match x.prog i with
  | .op .nextInodeId f =>
    if IsNewNumber (s.seq i) n then
      some ({ s with seq := update s.seq i (n :: s.seq i) }.setTxn t
        (some (x.resume i .nextInodeId (generateInodeId n i) f)))
    else none
  | _ => none

end

def stepInode (cfg : Config) (s : State) (t : Sid) (i : ServerId) (x : Txn) : Option State :=
  match x.prog i with
  | .op (.inode o) f =>
    let r := o.result cfg.shard (s.view x i)
    if s.blocked t i (o.waitsFor r) then none
    else some (s.setTxn t (some (x.resume i (.inode o) r f)))
  | _ => none

/-- The commands reach the workers: each begins a transaction, unless it is in one, and the
commands wait for it in its pipeline. -/
def stepSend (cfg : Config) (s : State) (t : Sid) (x : Txn) : Option State :=
  match x.prog x.home with
  | .op (.remote cmds) _ =>
    if x.waiting then none
    else
      some ({ s with srv := fun i =>
          if forServer i cmds = [] then s.srv i
          else (DirPathHash.step (s.srv i) (.begin t)).getD (s.srv i) }.setTxn t (some
        { x with
          waiting := true
          prog := fun i =>
            if forServer i cmds = [] then x.prog i
            else Result.replies <$> subHandles cfg i (forServer i cmds) }))
  | _ => none

/-- The replies of a worker whose program is at its end. -/
def repliesNow (x : Txn) (i : ServerId) : List SubReply :=
  match x.prog i with
  | .ret (.replies rs) => rs
  | _ => []

/-- All addressed workers have answered. -/
def stepReceive (s : State) (t : Sid) (x : Txn) : Option State :=
  match x.prog x.home with
  | .op (.remote cmds) f =>
    if x.waiting && cmds.all (fun c => (x.prog c.1).isRet) then
      let replies := fun i => if forServer i cmds = [] then [] else repliesNow x i
      some (s.setTxn t (some { x.resume x.home (.remote cmds) replies f with waiting := false }))
    else none
  | _ => none

/-- All programs have ended: the transaction commits on all servers. -/
def stepCommit (cfg : Config) (s : State) (t : Sid) (x : Txn) : Option State :=
  if cfg.servers.all (fun i => (x.prog i).isRet) then
    some ({ s with inode := fun i => applyPuts (putsOf (x.log i)) (s.inode i) }.onServers
      (.commit t) |>.setTxn t none)
  else none

def step (cfg : Config) (s : State) : Event → Option State
  | .start t home req =>
    if s.txn t = none ∧ home ∈ cfg.servers ∧
        ∀ i ∈ cfg.servers, ((s.srv i).session t).phase = .idle then
      (s.onServer home (.begin t)).map fun s' =>
        { s' with sids := t :: s.sids }.setTxn t
          (some (.begin home (Result.response <$> handle cfg home req)))
    else none
  | .call t i => (s.txn t).bind (stepCall s t i)
  | .advance t i x => (s.txn t).bind fun _ => s.onServer i (.advance t x)
  | .ret t i => (s.txn t).bind (stepRet s t i)
  | .nextInodeId t i n => (s.txn t).bind fun x => stepNextInodeId s t i x n
  | .inode t i => (s.txn t).bind (stepInode cfg s t i)
  | .send t => (s.txn t).bind (stepSend cfg s t)
  | .receive t => (s.txn t).bind (stepReceive s t)
  | .commit t => (s.txn t).bind (stepCommit cfg s t)
  | .abort t => (s.txn t).map fun _ => (s.onServers (.abort t)).setTxn t none
  | .applyToCommit t i space => s.onServer i (.applyToCommit t space)
  | .release t i => s.onServer i (.release t)
  | .evict i k => s.onServer i (.evict k)

/-- A cluster at rest: no transactions, nothing cached. -/
def State.init (table : Key → Option InodeId) (inode : ServerId → InodeTable)
    (seq : ServerId → List Nat) : State :=
  ⟨fun _ => .init table, inode, seq, fun _ => none, []⟩

end FalconFS.Cluster
