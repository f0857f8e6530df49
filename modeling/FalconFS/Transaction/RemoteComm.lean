/-
# The coordinator's connections to its workers

`remote_comm_falcon.c` keeps one libpq connection per worker (`ForeignServerConnection`) with the
state its remote transaction is believed to be in, and drives all of them from four functions:

* `FalconSendCommandAndWaitForResult` sends the collected commands, preceded by `BEGIN` on a
  connection in state `NONE`;
* `FalconRemoteCommandPrepare` counts the writers and, from two on, sends `PREPARE TRANSACTION`;
* `FalconRemoteCommandCommit` sends `COMMIT` or `COMMIT PREPARED` and LEAVES at the first failure;
* `FalconRemoteCommandAbort` sends `ROLLBACK` or `ROLLBACK PREPARED` and goes on whatever happens.

Each of them first loops over the connections to send and then loops over them again to fetch.
The model keeps that shape, with the other side of each connection next to it: the transaction
block open in the worker's backend, the transactions prepared on the worker and the commands that
are durable there.  What the network and the worker do with one command is its `Fate`, an input of
every loop.  Transactions of the session are numbered; the number stands for the gid.

Two things the session does not decide are inputs as well.  `HashOrder`: the loops go over
`RemoteConnectionCommandCache` as `hash_seq_search` does, by the buckets of the hash table and not
by first use.  `Servers`: each of the four functions asks `GetForeignServerConnection`, which first
throws away the cached connections whose rows of `falcon_foreign_server` have changed
(`RenewForeignServerLocalCache`), in whatever state they are.  That the row of a participant is
deleted while its transaction runs is left out: `GetForeignServerConnection` then raises an error
even in the abort callback.

libpq is taken as documented: a send fails only on a connection that is then bad, a broken
connection shows when a result is read, and a worker whose connection is closed rolls the open
block back.
-/
import FalconFS.Lib.KeyedLoop

namespace FalconFS.RemoteComm

abbrev ServerId := Nat

/-! ## 1. One connection and the worker behind it -/

/-- `RemoteTransactionState` of `transaction.h`. -/
inductive TransactionState
  | none | beginForWrite | beginForSnapshot | prepare
  deriving DecidableEq

/-- The `PGconn` of a `ForeignServerConnection`: not opened (`NULL`), usable, `CONNECTION_BAD`. -/
inductive ConnStatus
  | null | ok | bad
  deriving DecidableEq

/-- A result that waits to be fetched. -/
inductive Reply
  | ok | error | lost
  deriving DecidableEq

/-- What happens to one command (or one pipelined group) on its way: the send fails, it succeeds,
the worker answers with an error, or the connection breaks after the worker did (`ran`) or did not
execute it. -/
inductive Fate
  | sendFailed | ok | error | broken (ran : Bool)
  deriving DecidableEq

def Fate.reply : Fate → Reply
  | .ok => .ok
  | .error => .error
  | .sendFailed | .broken _ => .lost

/-- The transaction block open in a worker's backend: the session transaction that sent its
`BEGIN` and those whose commands ran in it. -/
structure Block where
  owner : Nat
  cmds : List Nat
  failed : Bool
  deriving DecidableEq

/-- A cached `ForeignServerConnection` and what its worker knows of the session's transactions. -/
structure Connection where
  status : ConnStatus
  transactionState : TransactionState
  pending : Option Reply
  block : Option Block
  /-- Prepared transactions: the gid and the commands in it. -/
  prepared : List (Nat × List Nat)
  /-- Transactions with a command that is committed on the worker. -/
  durable : List Nat
  /-- Transactions with a write that ran outside a block of their own. -/
  stray : List Nat
  deriving DecidableEq

/-- A connection that has never been used. -/
def Connection.fresh : Connection :=
  ⟨.null, .none, none, none, [], [], []⟩

/-- libpq has found the connection broken; the backend behind it goes away. -/
def Connection.close (x : Connection) : Connection :=
  { x with status := .bad, pending := none, block := none }

/-- `PQfinish` on a cached connection: the next use opens a new one. -/
def Connection.finish (x : Connection) : Connection :=
  { x with status := .null, transactionState := .none, pending := none, block := none }

/-- `RenewForeignServerLocalCache` for one server: a connection whose row is gone or has another
host or port is finished and taken out of the manager, without a look at its state. -/
def Connection.renew (x : Connection) (renewed : Bool) : Connection :=
  if renewed then x.finish else x

/-- `GetForeignServerConnection` for one server: a bad connection is closed, a missing one opened
with state `NONE`; `up` says whether that works. -/
def Connection.connect (x : Connection) (up : Bool) : Connection :=
  if x.status = .ok then x
  else
    { x with
      status := if up then .ok else .null
      transactionState := .none
      pending := none
      block := none }

/-- `ClearPGresultInPGconn`: read until nothing is left.  The second component says whether there
was anything. -/
def Connection.clearPGresult (x : Connection) : Connection × Bool :=
  match x.pending with
  | none => (x, false)
  | some .lost => (x.close, true)
  | some _ => ({ x with pending := none }, true)

/-! ## 2. What a worker does with a command -/

/-- The flags a remote command is sent with; neither of them is `REMOTE_COMMAND_FLAG_NO_BEGIN`. -/
structure CommandFlag where
  write : Bool
  snapshot : Bool
  deriving DecidableEq

def CommandFlag.or (a b : CommandFlag) : CommandFlag :=
  ⟨a.write || b.write, a.snapshot || b.snapshot⟩

section

variable (x : Connection)

/-- The block the commands run in: `BEGIN` inside an open block is only a warning. -/
def Connection.blockFor (tx : Nat) (begins : Bool) : Option Block :=
  if begins then some (x.block.getD ⟨tx, [], false⟩) else x.block

/-- A group of commands of transaction `tx`, with or without `BEGIN` in front.  Outside a block a
write commits on its own. -/
def Connection.runCommands (tx : Nat) (flag : CommandFlag) (begins : Bool)
    (fate : Fate) : Connection :=
  match x.blockFor tx begins, fate with
  | some b, .ok =>
    if b.failed then { x with block := some b, pending := some .error }
    else
      { x with
        block := some { b with cmds := tx :: b.cmds }
        pending := some .ok
        stray := if b.owner = tx then x.stray else tx :: x.stray }
  | none, .ok =>
    if flag.write then
      { x with pending := some .ok, durable := tx :: x.durable, stray := tx :: x.stray }
    else { x with pending := some .ok }
  | b, .error => { x with block := b.map ({ · with failed := true }), pending := some .error }
  | none, .broken true =>
    if flag.write then
      { x with pending := some .lost, durable := tx :: x.durable, stray := tx :: x.stray }
    else { x with pending := some .lost }
  | _, _ => { x with block := none, pending := some .lost }

/-- `COMMIT` executed by the worker: the block's commands become durable, unless it had failed. -/
def Connection.commitBlock : Connection :=
  match x.block with
  | some b => if b.failed then { x with block := none }
      else { x with block := none, durable := b.cmds ++ x.durable }
  | none => x

/-- `COMMIT;` -/
def Connection.runCommit (fate : Fate) : Connection :=
  match fate with
  | .ok => { x.commitBlock with pending := some .ok }
  | .broken true => { x.commitBlock with pending := some .lost }
  | f => { x with block := none, pending := some f.reply }

/-- `PREPARE TRANSACTION` executed by the worker. -/
def Connection.prepareBlock (tx : Nat) : Connection :=
  match x.block with
  | some b => if b.failed then { x with block := none }
      else { x with block := none, prepared := (tx, b.cmds) :: x.prepared }
  | none => x

def Connection.runPrepare (tx : Nat) (fate : Fate) : Connection :=
  match fate with
  | .ok => { x.prepareBlock tx with pending := some .ok }
  | .broken true => { x.prepareBlock tx with pending := some .lost }
  | f => { x with block := none, pending := some f.reply }

/-- The commands of the prepared transaction `tx`. -/
def Connection.preparedCmds (tx : Nat) : List Nat :=
  (x.prepared.filter (·.1 = tx)).flatMap (·.2)

/-- `COMMIT PREPARED` or `ROLLBACK PREPARED` executed by the worker. -/
def Connection.finishPrepared (tx : Nat) (commit : Bool) : Connection :=
  { x with
    prepared := x.prepared.filter (·.1 ≠ tx)
    durable := if commit then x.preparedCmds tx ++ x.durable else x.durable }

/-- A gid the worker does not know is answered with an error. -/
def Connection.runFinishPrepared (tx : Nat) (commit : Bool) (fate : Fate) : Connection :=
  match fate with
  | .ok =>
    if tx ∈ x.prepared.map (·.1) then { x.finishPrepared tx commit with pending := some .ok }
    else { x with pending := some .error }
  | .broken true => { x.finishPrepared tx commit with pending := some .lost }
  | f => { x with pending := some f.reply }

/-- `ROLLBACK;` always ends the block. -/
def Connection.runRollback (fate : Fate) : Connection :=
  { x with block := none, pending := some fate.reply }

end

/-! ## 3. The bodies of the loops

Each gives the new connection and whether the loop goes on. -/

/-- An entry of `RemoteConnectionCommandCache`: the server, its flags, how many commands wait to
be sent to it. -/
structure Entry where
  serverId : ServerId
  commandFlag : CommandFlag
  commands : Nat
  deriving DecidableEq

/-- The state a connection in state `NONE` gets after the commands were sent. -/
def CommandFlag.state (flag : CommandFlag) : TransactionState :=
  if flag.write then .beginForWrite else if flag.snapshot then .beginForSnapshot else .none

variable (tx : Nat) (fate : ServerId → Fate) (e : Entry) (x : Connection)

/-- `FalconSendCommandAndWaitForResult`, first loop. -/
def sendOne : Connection × Bool :=
  let x := x.clearPGresult.1
  let begins := x.transactionState = .none ∧ (e.commandFlag.write ∨ e.commandFlag.snapshot)
  if x.status = .ok ∧ fate e.serverId ≠ .sendFailed then
    ({ x.runCommands tx e.commandFlag begins (fate e.serverId) with
        transactionState :=
          if x.transactionState = .none then e.commandFlag.state else x.transactionState }, true)
  else (x.close, false)

/-- `FalconSendCommandAndWaitForResult`, second loop: anything but success is an error. -/
def fetchOne (_ : Entry) (x : Connection) : Connection × Bool :=
  match x.pending with
  | some .ok => ({ x with pending := none }, true)
  | some .error => ({ x with pending := some .ok }, false)
  | some .lost => (x.close, false)
  | none => (x, false)

/-- `FalconRemoteCommandPrepare`, first loop. -/
def prepareSendOne : Connection × Bool :=
  if x.clearPGresult.2 then (x.clearPGresult.1, false)
  else if x.transactionState = .beginForWrite then
    if x.status = .ok ∧ fate e.serverId ≠ .sendFailed then
      (x.runPrepare tx (fate e.serverId), true)
    else (x.close, false)
  else (x, true)

/-- `FalconRemoteCommandPrepare`, second loop: it collects the errors and never leaves early. -/
def prepareFetchOne (_ : Entry) (x : Connection) : Connection × Bool :=
  match x.pending with
  | none => (x, true)
  | some .ok =>
    ({ x with
        pending := none
        transactionState :=
          if x.transactionState = .beginForWrite then .prepare else x.transactionState }, true)
  | some .error => ({ x with pending := some .ok }, true)
  | some .lost => (x.close, true)

/-- `FalconRemoteCommandCommit`, first loop: `return` on unfetched results and on a failed send. -/
def commitSendOne : Connection × Bool :=
  if x.clearPGresult.2 then (x.clearPGresult.1, false)
  else
    match x.transactionState with
    | .none => (x, true)
    | .beginForSnapshot | .beginForWrite =>
      if x.status = .ok ∧ fate e.serverId ≠ .sendFailed then
        (x.runCommit (fate e.serverId), true)
      else (x.close, false)
    | .prepare =>
      if x.status = .ok ∧ fate e.serverId ≠ .sendFailed then
        (x.runFinishPrepared tx true (fate e.serverId), true)
      else (x.close, false)

/-- `FalconRemoteCommandCommit`, second loop: `continue` without a result, `return` on an error,
and only a success puts the connection back to `NONE`. -/
def commitFetchOne (_ : Entry) (x : Connection) : Connection × Bool :=
  match x.pending with
  | none => (x, true)
  | some .ok => ({ x with pending := none, transactionState := .none }, true)
  | some .error => ({ x with pending := some .ok }, false)
  | some .lost => (x.close, false)

/-- `FalconRemoteCommandAbort`, first loop: a connection that could not be opened is skipped. -/
def abortSendOne : Connection × Bool :=
  if x.status = .null then (x, true)
  else
    let x := x.clearPGresult.1
    match x.transactionState with
    | .none => (x, true)
    | .beginForSnapshot | .beginForWrite =>
      if x.status = .ok ∧ fate e.serverId ≠ .sendFailed then
        (x.runRollback (fate e.serverId), true)
      else (x.close, true)
    | .prepare =>
      if x.status = .ok ∧ fate e.serverId ≠ .sendFailed then
        (x.runFinishPrepared tx false (fate e.serverId), true)
      else (x.close, true)

/-- `FalconRemoteCommandAbort`, second loop: back to `NONE` whatever the result. -/
def abortFetchOne (_ : Entry) (x : Connection) : Connection × Bool :=
  if x.status = .null then (x, true)
  else
    let x :=
      match x.pending with
      | none => x
      | some .ok => { x with pending := none }
      | some .error => { x with pending := some .ok }
      | some .lost => x.close
    ({ x with transactionState := .none }, true)

/-! ## 4. The session -/

/-- What one coordinator session remembers between calls.  `failed`: an error was raised, only the
abort callback can follow. -/
structure Session where
  conn : ServerId → Connection
  /-- `RemoteConnectionCommandCache`. -/
  cache : List Entry
  localServerWrite : Bool
  failed : Bool
  /-- The number of the running transaction. -/
  tx : Nat

def Session.init : Session := ⟨fun _ => .fresh, [], false, false, 0⟩

/-- `FalconAppendRemoteCommandToWorkerList` for one worker. -/
def appendCommand (flag : CommandFlag) : List Entry → ServerId → List Entry
  | [], w => [⟨w, flag, 1⟩]
  | e :: es, w =>
    if e.serverId = w then
      { e with commandFlag := e.commandFlag.or flag, commands := e.commands + 1 } :: es
    else e :: appendCommand flag es w

/-- The order in which `hash_seq_search` finds the entries of `RemoteConnectionCommandCache`. -/
structure HashOrder where
  seq : List Entry → List Entry
  perm : ∀ es, (seq es).Perm es

/-- `FalconMetaCallOnWorkerList`, `FalconPlainCommandOnWorkerList`. -/
def Session.callOnWorkerList (s : Session) (order : HashOrder) (flag : CommandFlag)
    (workers : List ServerId) : Session :=
  { s with cache := order.seq (workers.foldl (appendCommand flag) s.cache) }

/-- What one call of `GetForeignServerConnection` meets: the servers whose rows have changed since
the session last looked, and those to which a new connection can be opened. -/
structure Servers where
  renewed : ServerId → Bool
  up : ServerId → Bool

/-- The connection to a server that is asked for. -/
def Servers.connection (v : Servers) (w : ServerId) (x : Connection) : Connection :=
  (x.renew (v.renewed w)).connect (v.up w)

/-- `GetForeignServerConnection`: the renewal is for all cached connections. -/
def connectAll (v : Servers) (es : List Entry) (c : ServerId → Connection) :
    ServerId → Connection :=
  fun w =>
    if w ∈ es.map (·.serverId) then v.connection w (c w) else (c w).renew (v.renewed w)

/-- Every connection of the list is usable. -/
def allConnected (es : List Entry) (c : ServerId → Connection) : Bool :=
  es.all fun e => (c e.serverId).status = .ok

/-- Mark the commands of all servers as sent. -/
def markSent (es : List Entry) : List Entry := es.map ({ · with commands := 0 })

section

variable (s : Session)

variable (v : Servers) (fate : ServerId → Fate)

/-- `FalconSendCommandAndWaitForResult`.  An error leaves the session failed. -/
def Session.sendCommandAndWaitForResult : Session :=
  let es := s.cache.filter (·.commands ≠ 0)
  let c := connectAll v es s.conn
  if allConnected es c then
    let sent := KeyedLoop.run Entry.serverId (sendOne s.tx fate) es c
    if sent.2 then
      let got := KeyedLoop.run Entry.serverId fetchOne es sent.1
      { s with conn := got.1, cache := markSent s.cache, failed := !got.2 }
    else { s with conn := sent.1, failed := true }
  else { s with conn := c, failed := true }

/-- The number of servers the transaction has written on. -/
def Session.writeServerCount (c : ServerId → Connection) : Nat :=
  (if s.localServerWrite then 1 else 0) +
    (s.cache.filter fun e => (c e.serverId).transactionState = .beginForWrite).length

/-- `FalconRemoteCommandPrepare`: the connections afterwards and whether it raised no error. -/
def Session.remoteCommandPrepare : (ServerId → Connection) × Bool :=
  let c := connectAll v s.cache s.conn
  if allConnected s.cache c then
    if s.writeServerCount c < 2 then (c, true)
    else
      let sent := KeyedLoop.run Entry.serverId (prepareSendOne s.tx fate) s.cache c
      if sent.2 then
        let bad := s.cache.any fun e =>
          (sent.1 e.serverId).pending = some .error ∨ (sent.1 e.serverId).pending = some .lost
        ((KeyedLoop.run Entry.serverId prepareFetchOne s.cache sent.1).1, !bad)
      else (sent.1, false)
  else (c, false)

/-- `FalconRemoteCommandCommit`.  An error behind the local commit is a `PANIC` of the coordinator:
none of the session's connections is left. -/
def Session.remoteCommandCommit (c : ServerId → Connection) : ServerId → Connection :=
  let c := connectAll v s.cache c
  if allConnected s.cache c then
    let sent := KeyedLoop.run Entry.serverId (commitSendOne s.tx fate) s.cache c
    if sent.2 then (KeyedLoop.run Entry.serverId commitFetchOne s.cache sent.1).1 else sent.1
  else fun w => (c w).finish

/-- `FalconRemoteCommandAbort`. -/
def Session.remoteCommandAbort (c : ServerId → Connection) : ServerId → Connection :=
  let c := connectAll v s.cache c
  let sent := KeyedLoop.run Entry.serverId (abortSendOne s.tx fate) s.cache c
  (KeyedLoop.run Entry.serverId abortFetchOne s.cache sent.1).1

/-- `ClearRemoteConnectionCommand`; the next transaction of the session may start. -/
def Session.clear : Session :=
  { s with cache := [], localServerWrite := false, failed := false, tx := s.tx + 1 }

/-- The abort callback. -/
def Session.abort : Session :=
  { s with conn := s.remoteCommandAbort v fate s.conn }.clear

end

/-- What one of the callbacks meets: the servers, and the fates of its commands. -/
structure Callback where
  servers : Servers
  fate : ServerId → Fate

/-- What the end of a transaction meets: `PREPARE TRANSACTION` in the pre-commit callback, `COMMIT`
or `COMMIT PREPARED` in the commit callback, and the abort callback if the first part fails. -/
structure CommitFates where
  prepare : Callback
  commit : Callback
  rollback : Callback

section

variable (s : Session) (f : CommitFates)

/-- The pre-commit callback. -/
def Session.preCommit : (ServerId → Connection) × Bool :=
  s.remoteCommandPrepare f.prepare.servers f.prepare.fate

/-- The connections the commit callback works on. -/
def Session.commitConnections : ServerId → Connection :=
  connectAll f.commit.servers s.cache (s.preCommit f).1

/-- The end of a transaction that raised no error: the pre-commit callback, then the local commit
and the commit callback, or the abort callback. -/
def Session.commit : Session :=
  let p := s.preCommit f
  if p.2 then
    { s with conn := s.remoteCommandCommit f.commit.servers f.commit.fate p.1 }.clear
  else { s with conn := p.1 }.abort f.rollback.servers f.rollback.fate

end

/-- What a session does, one transaction after the other. -/
inductive Event
  | registerLocalProcessFlag
  | call (order : HashOrder) (flag : CommandFlag) (workers : List ServerId)
  | send (servers : Servers) (fate : ServerId → Fate)
  | commit (fates : CommitFates)
  | abort (servers : Servers) (fate : ServerId → Fate)

/-- After an error only the abort callback runs; a transaction commits with all its commands
sent. -/
def step (s : Session) : Event → Option Session
  | .registerLocalProcessFlag =>
    if s.failed then none else some { s with localServerWrite := true }
  | .call order flag workers =>
    if s.failed then none else some (s.callOnWorkerList order flag workers)
  | .send servers fate =>
    if s.failed then none else some (s.sendCommandAndWaitForResult servers fate)
  | .commit fates =>
    if s.failed ∨ ¬ s.cache.all (·.commands = 0) then none else some (s.commit fates)
  | .abort servers fate => some (s.abort servers fate)

end FalconFS.RemoteComm
