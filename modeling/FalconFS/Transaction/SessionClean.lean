/-
# A session's connections between two transactions

After the commit or abort callback the next transaction of the session trusts
`transactionState = NONE` to mean that the worker has no open block: only then does it send
`BEGIN`.  This module follows that trust through every function of `RemoteComm`:

* `Clean`: a usable connection is in state `NONE` and its worker has no block open, and no write
  ever ran outside a block of its own transaction;
* the abort callback always restores `Clean` (`clean_abort`), because it resets every connection
  it can reach and goes on after a failure;
* the commit callback does so when only the LAST of the connections it commits on, in the order of
  `hash_seq_search`, fails to answer (`clean_commit`).  It returns at the first failure, so any
  earlier one leaves the connections behind it in state `PREPARE` or `BEGIN_FOR_WRITE`
  (`commit_leaves_prepared`), and the next transaction's first write on such a connection goes out
  without `BEGIN`.

A connection that `GetForeignServerConnection` has closed and opened again is idle on both sides
(`Reopened`), so a renewal never breaks any of this.
-/
import FalconFS.Lib.Machine
import FalconFS.Transaction.RemoteComm

namespace FalconFS.RemoteComm

open Machine RemoteComm.Connection Session List KeyedLoop Entry CommandFlag

/-! ## 1. What a connection may look like -/

/-- The connection can be handed to the next transaction. -/
def Idle (x : Connection) : Prop := x.transactionState = .none ∧ x.block = none

/-- The connection is in a block that transaction `tx` has begun. -/
def InBlock (tx : Nat) (x : Connection) : Prop :=
  (x.transactionState = .beginForWrite ∨ x.transactionState = .beginForSnapshot) ∧
    ∃ b, x.block = some b ∧ b.owner = tx ∧ b.failed = false

/-- What the abort callback needs: whatever block is open, the state says that there is one. -/
def Abortable (x : Connection) : Prop :=
  x.transactionState ≠ .none ∧ (x.transactionState = .prepare → x.block = none)

variable {x : Connection} {cache es : List Entry} {tx : Nat} {w : ServerId} {e : Entry}
  {flag : CommandFlag}

theorem InBlock.abortable (h : InBlock tx x) : Abortable x := by
  refine ⟨?_, ?_⟩ <;> rcases h.1 with hs | hs <;> rw [hs] <;> simp

/-- Between the loops of a running transaction: every usable connection is idle or one the
transaction uses, and can be aborted. -/
def Tidy (cache : List Entry) (w : ServerId) (x : Connection) : Prop :=
  x.stray = [] ∧ (x.status = .ok → Idle x ∨ w ∈ cache.map (·.serverId) ∧ Abortable x)

/-- The same while commands are under way: a connection the transaction uses is in a block of its
own, which has failed only if an error waits to be read. -/
def Sent (tx : Nat) (cache : List Entry) (w : ServerId) (x : Connection) : Prop :=
  x.stray = [] ∧ (x.status = .ok → Idle x ∨ w ∈ cache.map (·.serverId) ∧
    (x.transactionState = .beginForWrite ∨ x.transactionState = .beginForSnapshot) ∧
      (x.pending = some .lost ∨
        ∃ b, x.block = some b ∧ b.owner = tx ∧ (b.failed = true → x.pending = some .error)))

theorem Sent.tidy (h : Sent tx cache w x) : Tidy cache w x := by
  refine ⟨h.1, fun hok => (h.2 hok).imp_right fun hx => ⟨hx.1, ?_, ?_⟩⟩ <;>
    rcases hx.2.1 with hs | hs <;> rw [hs] <;> simp

/-- Once its results are read, a used connection is in a good block. -/
theorem Sent.inBlock (h : Sent tx cache w x) (hok : x.status = .ok)
    (hp : x.pending = none ∨ x.pending = some .ok) :
    Idle x ∨ w ∈ cache.map (·.serverId) ∧ InBlock tx x := by
  refine (h.2 hok).imp_right fun ⟨hw, hs, hx⟩ => ⟨hw, hs, ?_⟩
  rcases hx with hl | ⟨b, hb, ho, hf⟩
  · rcases hp with hp | hp <;> simp [hp] at hl
  · refine ⟨b, hb, ho, ?_⟩
    cases hbf : b.failed with
    | false => rfl
    | true =>
      have := hf hbf
      rcases hp with hp | hp <;> simp [hp] at this

/-- The connections of a session that is not in a transaction. -/
def Clean (s : Session) : Prop :=
  ∀ w, (s.conn w).stray = [] ∧ ((s.conn w).status = .ok → Idle (s.conn w))

/-- The invariant of a session. -/
structure SessionInv (s : Session) : Prop where
  nodup : (s.cache.map (·.serverId)).Nodup
  tidy : ∀ w, Tidy s.cache w (s.conn w)
  sent : s.failed = false → ∀ w, Sent s.tx s.cache w (s.conn w)
  answered : s.failed = false → ∀ e ∈ s.cache, e.commands = 0 →
    (s.conn e.serverId).status = .ok → (s.conn e.serverId).pending = none

variable {s : Session} {c : ServerId → Connection} {fate : ServerId → Fate} {cache' : List Entry}

theorem Clean.sessionInv (h : Clean s) (hc : s.cache = []) : SessionInv s where
  nodup := by simp [hc]
  tidy w := ⟨(h w).1, fun hok => .inl ((h w).2 hok)⟩
  sent _ w := ⟨(h w).1, fun hok => .inl ((h w).2 hok)⟩
  answered _ e he := by simp [hc] at he

theorem clean_init : Clean Session.init := by
  intro w
  simp [init, fresh]

/-! ## 2. Small facts about single connections -/

@[simp] theorem close_status (x : Connection) : x.close.status = .bad := rfl
@[simp] theorem close_stray (x : Connection) : x.close.stray = x.stray := rfl

theorem tidy_close (h : x.stray = []) :
    Tidy cache w x.close := ⟨h, fun hok => by simp at hok⟩

theorem sent_close (h : x.stray = []) : Sent tx cache w x.close := ⟨h, fun hok => by simp at hok⟩

/-- `y` is the connection `x` thrown away, and perhaps opened again. -/
structure Reopened (x y : Connection) : Prop where
  idle : Idle y
  pending : y.pending = none
  stray : y.stray = x.stray

theorem reopened_finish (x : Connection) : Reopened x x.finish := ⟨⟨rfl, rfl⟩, rfl, rfl⟩

theorem renew_cases (x : Connection) (renewed : Bool) :
    x.renew renewed = x ∨ Reopened x (x.renew renewed) := by
  cases renewed with
  | false => exact .inl rfl
  | true => exact .inr (reopened_finish x)

theorem connect_cases (x : Connection) (up : Bool) :
    x.status = .ok ∧ x.connect up = x ∨ Reopened x (x.connect up) := by
  by_cases hok : x.status = .ok
  · exact .inl ⟨hok, by simp [connect, hok]⟩
  · rw [connect, if_neg hok]
    exact .inr ⟨⟨rfl, rfl⟩, rfl, rfl⟩

theorem Reopened.trans {x y z : Connection} (h : Reopened x y) (h' : Reopened y z) :
    Reopened x z := ⟨h'.idle, h'.pending, h'.stray.trans h.stray⟩

/-- **Asking for a connection**: it was usable and is left alone, or it is a new one. -/
theorem connection_cases (v : Servers) (w : ServerId) (x : Connection) :
    x.status = .ok ∧ v.connection w x = x ∨ Reopened x (v.connection w x) := by
  simp only [Servers.connection]
  rcases renew_cases x (v.renewed w) with hr | hr
  · rw [hr]
    exact connect_cases x (v.up w)
  · rcases connect_cases (x.renew (v.renewed w)) (v.up w) with ⟨-, hc⟩ | hc
    · rw [hc]
      exact .inr hr
    · exact .inr (hr.trans hc)

/-- `GetForeignServerConnection` leaves a connection alone or throws it away. -/
theorem connectAll_cases (v : Servers) (es : List Entry) (c : ServerId → Connection)
    (w : ServerId) : connectAll v es c w = c w ∨ Reopened (c w) (connectAll v es c w) := by
  simp only [connectAll]
  split
  · exact (connection_cases v w (c w)).imp_left And.right
  · exact renew_cases (c w) (v.renewed w)

theorem forall_connectAll {P : ServerId → Connection → Prop} (v : Servers)
    (es : List Entry) (h : ∀ w, P w (c w)) (hP : ∀ w x y, P w x → Reopened x y → P w y) :
    ∀ w, P w (connectAll v es c w) := by
  intro w
  rcases connectAll_cases v es c w with heq | hr
  · rw [heq]
    exact h w
  · exact hP w _ _ (h w) hr

theorem connectAll_of_mem (v : Servers) (c : ServerId → Connection) (he : e ∈ es) :
    connectAll v es c e.serverId = v.connection e.serverId (c e.serverId) :=
  if_pos (mem_map_of_mem he)

theorem Tidy.reopened {y : Connection} (h : Tidy cache w x) (hr : Reopened x y) :
    Tidy cache w y := ⟨hr.stray.trans h.1, fun _ => .inl hr.idle⟩

theorem Sent.reopened {y : Connection} (h : Sent tx cache w x) (hr : Reopened x y) :
    Sent tx cache w y := ⟨hr.stray.trans h.1, fun _ => .inl hr.idle⟩

theorem sent_connection (v : Servers) (h : Sent tx cache w x) :
    Sent tx cache w (v.connection w x) := by
  rcases connection_cases v w x with ⟨-, heq⟩ | hr
  · rwa [heq]
  · exact h.reopened hr

theorem allConnected_iff : allConnected es c = true ↔ ∀ e ∈ es, (c e.serverId).status = .ok := by
  simp [allConnected]

/-- Reading off old results leaves a usable connection as it was, apart from them. -/
theorem clearPGresult_cases (x : Connection) :
    x.clearPGresult.1 = x.close ∨ x.clearPGresult.1 = { x with pending := none } := by
  cases h : x.pending with
  | none => exact .inr (by simp [clearPGresult, h]; cases x; simp_all)
  | some r => cases r <;> simp [clearPGresult, h]

theorem clearPGresult_none (h : x.pending = none) : x.clearPGresult = (x, false) := by
  simp [clearPGresult, h]

@[simp] theorem clearPGresult_stray (x : Connection) : x.clearPGresult.1.stray = x.stray := by
  rcases clearPGresult_cases x with hx | hx <;> simp [hx]

/-! ## 3. Sending commands -/

theorem CommandFlag.state_none (h : ¬ (flag.write ∨ flag.snapshot)) : flag.state = .none := by
  simp only [not_or, Bool.not_eq_true] at h
  simp [state, h.1, h.2]

theorem CommandFlag.state_begin (h : flag.write ∨ flag.snapshot) :
    flag.state = .beginForWrite ∨ flag.state = .beginForSnapshot := by
  by_cases hw : flag.write = true
  · simp [state, hw]
  · have hs : flag.snapshot = true := by simpa [hw] using h
    simp [state, hw, hs]

/-- Commands sent into a block of the transaction stay in it. -/
theorem runCommands_block (flag : CommandFlag) {begins : Bool} (fate : Fate) {b : Block}
    (hb : x.blockFor tx begins = some b) (ho : b.owner = tx) (hs : x.stray = []) :
    (x.runCommands tx flag begins fate).stray = [] ∧
      ((x.runCommands tx flag begins fate).pending = some .lost ∨
        ∃ b', (x.runCommands tx flag begins fate).block = some b' ∧ b'.owner = tx ∧
          (b'.failed = true → (x.runCommands tx flag begins fate).pending = some .error)) := by
  cases fate <;> cases hf : b.failed <;> simp [runCommands, hb, hf, hs, ho]

/-- Commands that ask for no block leave an idle connection idle. -/
theorem runCommands_noBegin (tx : Nat) (fate : Fate) (hb : x.block = none)
    (hw : flag.write = false) (hs : x.stray = []) :
    (x.runCommands tx flag false fate).stray = [] ∧
      (x.runCommands tx flag false fate).block = none := by
  simp only [runCommands, blockFor, Bool.false_eq_true, if_false, hb]
  grind

/-- Whether the commands of an entry are preceded by `BEGIN`. -/
def Entry.begins (e : Entry) (x : Connection) : Bool :=
  x.transactionState = .none ∧ (e.commandFlag.write ∨ e.commandFlag.snapshot)

/-- **A send**: it fails and closes the connection, or the commands run on a usable connection,
whose old results are gone. -/
theorem sendOne_cases (tx : Nat) (fate : ServerId → Fate) (e : Entry) (x : Connection) :
    sendOne tx fate e x = (x.clearPGresult.1.close, false) ∨
      x.status = .ok ∧ x.pending ≠ some .lost ∧
        sendOne tx fate e x = ({ ({ x with pending := none } : Connection).runCommands tx
          e.commandFlag (e.begins x) (fate e.serverId) with
          transactionState := if x.transactionState = .none then e.commandFlag.state
            else x.transactionState }, true) := by
  by_cases hl : x.pending = some .lost
  · exact .inl (by simp [sendOne, clearPGresult, hl])
  · have hy : x.clearPGresult.1 = { x with pending := none } := by
      cases hp : x.pending with
      | none => rw [clearPGresult_none hp, ← hp]
      | some r => cases r <;> simp_all [clearPGresult]
    by_cases hgo : x.status = .ok ∧ fate e.serverId ≠ .sendFailed
    · exact .inr ⟨hgo.1, hl, by simp only [sendOne, hy]; exact if_pos hgo⟩
    · simp only [sendOne, hy]
      exact .inl (if_neg hgo)

theorem sent_sendOne (he : e ∈ cache) (h : Sent tx cache e.serverId x) :
    Sent tx cache e.serverId (sendOne tx fate e x).1 := by
  have hmem : e.serverId ∈ cache.map (·.serverId) := mem_map_of_mem he
  rcases sendOne_cases tx fate e x with hy | ⟨hst, hnl, hy⟩ <;> rw [hy]
  · exact sent_close ((clearPGresult_stray x).trans h.1)
  · rcases h.2 hst with ⟨hnone, hblk⟩ | ⟨-, hstate, hx⟩
    · by_cases hbeg : e.commandFlag.write ∨ e.commandFlag.snapshot
      · have hbf : ({ x with pending := none } : Connection).blockFor tx (e.begins x) =
            some ⟨tx, [], false⟩ := by simp [blockFor, Entry.begins, hblk, hnone, hbeg]
        obtain ⟨hs', hb'⟩ := runCommands_block e.commandFlag (fate e.serverId) hbf rfl h.1
        refine ⟨hs', fun _ => .inr ⟨hmem, ?_, hb'⟩⟩
        simpa [hnone] using state_begin hbeg
      · have hd : e.begins x = false := by simp [Entry.begins, hbeg]
        have hw : e.commandFlag.write = false := by
          simp only [not_or, Bool.not_eq_true] at hbeg
          exact hbeg.1
        obtain ⟨hs', hb'⟩ := runCommands_noBegin tx (x := { x with pending := none })
          (fate e.serverId) hblk hw h.1
        rw [hd]
        exact ⟨hs', fun _ => .inl ⟨by simp [hnone, state_none hbeg], hb'⟩⟩
    · have hne : x.transactionState ≠ .none := by
        rcases hstate with hs | hs <;> rw [hs] <;> simp
      obtain ⟨b, hb, ho, -⟩ := hx.resolve_left hnl
      have hbf : ({ x with pending := none } : Connection).blockFor tx (e.begins x) = some b := by
        simp [blockFor, Entry.begins, hne, hb]
      obtain ⟨hs', hb'⟩ := runCommands_block e.commandFlag (fate e.serverId) hbf ho h.1
      exact ⟨hs', fun _ => .inr ⟨hmem, by simpa [hne] using hstate, hb'⟩⟩

/-- Results that are read, or left unread, do not matter for tidiness. -/
theorem Tidy.setPending (h : Tidy cache w x) (r : Option Reply) :
    Tidy cache w { x with pending := r } := h

theorem tidy_fetchOne (h : Tidy cache w x) : Tidy cache w (fetchOne e x).1 := by
  simp only [fetchOne]
  split
  · exact h.setPending _
  · exact h.setPending _
  · exact tidy_close h.1
  · exact h

/-- A fetch that goes on has read a success. -/
theorem fetchOne_go (h : (fetchOne e x).2 = true) :
    x.pending = some .ok ∧ (fetchOne e x).1 = { x with pending := none } := by
  cases hp : x.pending with
  | none => simp [fetchOne, hp] at h
  | some r => cases r <;> simp_all [fetchOne]

theorem sendOne_status (h : (sendOne tx fate e x).2 = true) :
    (sendOne tx fate e x).1.status = .ok := by
  rcases sendOne_cases tx fate e x with hy | ⟨hst, -, hy⟩ <;> rw [hy] at h ⊢
  · cases h
  · simp only [runCommands]
    split <;> (try split) <;> exact hst

theorem mem_markSent (h : e ∈ markSent cache) : ∃ e₀ ∈ cache, e.serverId = e₀.serverId := by
  obtain ⟨e₀, he₀, rfl⟩ := mem_map.mp h
  exact ⟨e₀, he₀, rfl⟩

theorem markSent_serverIds (cache : List Entry) :
    (markSent cache).map (·.serverId) = cache.map (·.serverId) := by
  simp [markSent, Function.comp_def]

theorem Tidy.congr (hc : cache'.map (·.serverId) = cache.map (·.serverId)) (h : Tidy cache w x) :
    Tidy cache' w x := by
  rw [Tidy, hc]
  exact h

theorem Sent.congr (hc : ∀ v ∈ cache.map (·.serverId), v ∈ cache'.map (·.serverId))
    (h : Sent tx cache w x) : Sent tx cache' w x :=
  ⟨h.1, fun hok => (h.2 hok).imp_right fun hx => ⟨hc w hx.1, hx.2⟩⟩

/-- Entries of the cache with one server are one entry. -/
theorem eq_of_serverId (hnd : (cache.map (·.serverId)).Nodup) {e' : Entry} (he : e ∈ cache)
    (he' : e' ∈ cache) (h : e.serverId = e'.serverId) : e = e' :=
  inj_on_of_nodup_map hnd he he' h

section Send

variable {s s' : Session} {v : Servers} {fate : ServerId → Fate}
  (hs' : s.sendCommandAndWaitForResult v fate = s')

include hs'

/-- Wherever a send ends, its connections can be aborted. -/
theorem tidy_send (h : ∀ w, Sent s.tx s.cache w (s.conn w)) (w : ServerId) :
    Tidy s.cache w (s'.conn w) := by
  have hconn := forall_connectAll v (s.cache.filter (·.commands ≠ 0)) h fun _ _ _ => Sent.reopened
  have hsent := fun w => (run_forall serverId (sendOne s.tx fate)
    (s.cache.filter (·.commands ≠ 0)) _ (fun e he _ => sent_sendOne (mem_of_mem_filter he))
    hconn w).tidy
  simp only [← hs', sendCommandAndWaitForResult]
  split
  · split
    · exact run_forall serverId fetchOne _ _ (fun e _ _ => tidy_fetchOne) hsent w
    · exact hsent w
  · exact (hconn w).tidy

theorem send_frame : s'.tx = s.tx ∧ s'.cache.map (·.serverId) = s.cache.map (·.serverId) := by
  simp only [← hs', sendCommandAndWaitForResult]
  (repeat' split) <;> exact ⟨rfl, by simp [markSent_serverIds]⟩

/-- **A send that raised no error**: every server with commands was sent to and has answered with
success, and the others were left alone, up to renewals. -/
theorem send_success (hnd : (s.cache.map (·.serverId)).Nodup) (hok : s'.failed = false) :
    s'.cache = markSent s.cache ∧
      (∀ e ∈ s.cache, e.commands ≠ 0 → ∃ y, y.pending = some .ok ∧
        sendOne s.tx fate e (v.connection e.serverId (s.conn e.serverId)) = (y, true) ∧
        s'.conn e.serverId = { y with pending := none }) ∧
      ∀ w, (∀ e ∈ s.cache, e.serverId = w → e.commands = 0) →
        s'.conn w = (s.conn w).renew (v.renewed w) := by
  have hnd' : ((s.cache.filter (·.commands ≠ 0)).map (·.serverId)).Nodup :=
    hnd.sublist (filter_sublist.map _)
  simp only [sendCommandAndWaitForResult] at hs'
  split at hs'
  · split at hs'
    · rename_i hsent
      cases hs'
      refine ⟨rfl, ?_, ?_⟩
      · intro e he hc
        have hin : e ∈ s.cache.filter (·.commands ≠ 0) := by simp [he, hc]
        obtain ⟨hgo, hx⟩ := run_done _ _ _ _ hnd' hsent e hin
        obtain ⟨hgo', hx'⟩ := run_done _ _ _ _ hnd' ((Bool.not_eq_false' _).mp hok) e hin
        obtain ⟨hp, hy⟩ := fetchOne_go hgo'
        rw [connectAll_of_mem v s.conn hin] at hgo hx
        rw [hx] at hp hy hx'
        exact ⟨_, hp, Prod.ext rfl hgo, hx'.trans hy⟩
      · intro w hw
        have hout : w ∉ (s.cache.filter (·.commands ≠ 0)).map (·.serverId) := by
          intro hin
          obtain ⟨e, he, heq⟩ := mem_map.mp hin
          obtain ⟨he, hc⟩ := mem_filter.mp he
          simp [hw e he heq] at hc
        simp only [run_other _ _ _ _ hout]
        exact if_neg hout
    · cases hs'
      cases hok
  · cases hs'
    cases hok

/-- A server that was sent to is in a good block, with nothing left to read. -/
theorem send_done (hi : SessionInv s) (hf : s.failed = false) (hok : s'.failed = false)
    (he : e ∈ s.cache) (hc : e.commands ≠ 0) :
    (s'.conn e.serverId).status = .ok ∧ (s'.conn e.serverId).pending = none ∧
      Sent s.tx s.cache e.serverId (s'.conn e.serverId) := by
  obtain ⟨y, hp, hy, hx⟩ := (send_success hs' hi.nodup hok).2.1 e he hc
  have hs : Sent s.tx s.cache e.serverId (sendOne s.tx fate e _).1 :=
    sent_sendOne he (sent_connection v (hi.sent hf _))
  have hst := sendOne_status (congrArg Prod.snd hy)
  rw [hy] at hs hst
  rw [hx]
  refine ⟨hst, rfl, hs.1, fun hok => ?_⟩
  rcases hs.inBlock hok (.inr hp) with hidle | ⟨hmem, hstate, b, hb, ho, hbf⟩
  · exact .inl hidle
  · exact .inr ⟨hmem, hstate, .inr ⟨b, hb, ho, by simp [hbf]⟩⟩

/-- `FalconSendCommandAndWaitForResult` keeps the session's invariant, whether or not it raises an
error. -/
theorem inv_send (hi : SessionInv s) (hf : s.failed = false) : SessionInv s' := by
  obtain ⟨htx, hids⟩ := send_frame hs'
  refine ⟨hids ▸ hi.nodup, fun w => (tidy_send hs' (hi.sent hf) w).congr hids, fun hok w => ?_,
    fun hok e he _ hst => ?_⟩
  all_goals obtain ⟨hcache, -, hrest⟩ := send_success hs' hi.nodup hok
  · rw [htx]
    refine Sent.congr (fun v hv => hids ▸ hv) ?_
    by_cases hw : ∃ e ∈ s.cache, e.serverId = w ∧ e.commands ≠ 0
    · obtain ⟨e, he, rfl, hc⟩ := hw
      exact (send_done hs' hi hf hok he hc).2.2
    · rw [hrest w fun e he heq => of_not_not fun hc => hw ⟨e, he, heq, hc⟩]
      rcases renew_cases (s.conn w) (v.renewed w) with hr | hr
      · rw [hr]
        exact hi.sent hf w
      · exact (hi.sent hf w).reopened hr
  · obtain ⟨e₀, he₀, hid⟩ := mem_markSent (hcache ▸ he)
    rw [hid] at hst ⊢
    by_cases hc : e₀.commands = 0
    · rw [hrest _ fun e' he' heq => eq_of_serverId hi.nodup he' he₀ heq ▸ hc] at hst ⊢
      rcases renew_cases (s.conn e₀.serverId) (v.renewed e₀.serverId) with hr | hr
      · rw [hr] at hst ⊢
        exact hi.answered hf e₀ he₀ hc hst
      · exact hr.pending
    · exact (send_done hs' hi hf hok he₀ hc).2.1

end Send

/-! ## 4. Collecting commands -/

theorem appendCommand_serverIds (flag : CommandFlag) : ∀ (es : List Entry) (w : ServerId),
    (appendCommand flag es w).map (·.serverId) =
      if w ∈ es.map (·.serverId) then es.map (·.serverId) else es.map (·.serverId) ++ [w]
  | [], w => by simp [appendCommand]
  | e :: es, w => by
    simp only [appendCommand]
    by_cases he : e.serverId = w
    · simp [he]
    · have ih := appendCommand_serverIds flag es w
      have he' : w ≠ e.serverId := fun h => he h.symm
      simp only [if_neg he, map_cons, ih, mem_cons, he', false_or]
      split <;> simp

/-- A command is put into an entry that then has something to send. -/
theorem mem_appendCommand (h : e ∈ appendCommand flag es w) : e ∈ es ∨ e.commands ≠ 0 := by
  induction es with
  | nil =>
    cases mem_singleton.mp h
    exact .inr (by simp)
  | cons a es ih =>
    simp only [appendCommand] at h
    grind

theorem appendCommand_mono {v : ServerId} (h : v ∈ es.map (·.serverId)) :
    v ∈ (appendCommand flag es w).map (·.serverId) := by
  rw [appendCommand_serverIds]
  split
  · exact h
  · exact mem_append_left _ h

theorem appendCommand_nodup (h : (es.map (·.serverId)).Nodup) :
    ((appendCommand flag es w).map (·.serverId)).Nodup := by
  rw [appendCommand_serverIds]
  split
  · exact h
  · rename_i hw
    rw [nodup_append]
    refine ⟨h, by simp, fun a ha b hb => ?_⟩
    rw [mem_singleton] at hb
    rintro rfl
    exact hw (hb ▸ ha)

theorem inv_appendCommand (hi : SessionInv s) (flag : CommandFlag) (w : ServerId) :
    SessionInv { s with cache := appendCommand flag s.cache w } where
  nodup := appendCommand_nodup hi.nodup
  tidy v := ⟨(hi.tidy v).1, fun hok => ((hi.tidy v).2 hok).imp_right
    fun hx => ⟨appendCommand_mono hx.1, hx.2⟩⟩
  sent hf v := (hi.sent hf v).congr fun _ => appendCommand_mono
  answered hf e he hc := hi.answered hf e ((mem_appendCommand he).resolve_right (by simp [hc])) hc

theorem inv_appendCommands (flag : CommandFlag) : ∀ (workers : List ServerId) {s : Session},
    SessionInv s → SessionInv { s with cache := workers.foldl (appendCommand flag) s.cache }
  | [], _, hi => hi
  | w :: ws, _, hi => inv_appendCommands flag ws (inv_appendCommand hi flag w)

/-- The order of the entries does not matter for the invariant. -/
theorem SessionInv.perm (hi : SessionInv s) (hp : cache'.Perm s.cache) :
    SessionInv { s with cache := cache' } where
  nodup := (hp.map _).nodup_iff.mpr hi.nodup
  tidy v := ⟨(hi.tidy v).1, fun hok => ((hi.tidy v).2 hok).imp_right
    fun hx => ⟨(hp.map _).mem_iff.mpr hx.1, hx.2⟩⟩
  sent hf v := (hi.sent hf v).congr fun _ => (hp.map _).mem_iff.mpr
  answered hf e he := hi.answered hf e (hp.mem_iff.mp he)

theorem inv_call (order : HashOrder) (flag : CommandFlag) (workers : List ServerId)
    (hi : SessionInv s) : SessionInv (s.callOnWorkerList order flag workers) :=
  (inv_appendCommands flag workers hi).perm (order.perm _)

/-! ## 5. The abort callback -/

theorem tidy_abortSendOne (tx : Nat) (fate : ServerId → Fate) (h : Tidy cache e.serverId x) :
    let y := (abortSendOne tx fate e x).1
    y.stray = [] ∧ (y.status = .ok → y.block = none) := by
  have hstray : x.clearPGresult.1.stray = [] := (clearPGresult_stray x).trans h.1
  have hblock : x.clearPGresult.1.status = .ok → x.clearPGresult.1.transactionState = .none ∨
      x.clearPGresult.1.transactionState = .prepare → x.clearPGresult.1.block = none := by
    rcases clearPGresult_cases x with hx | hx
    · intro hok
      simp [hx] at hok
    · rw [hx]
      intro hok hs
      rcases h.2 hok with hidle | ⟨-, hab⟩
      · exact hidle.2
      · exact hs.elim (fun hs => absurd hs hab.1) hab.2
  simp only [abortSendOne, runRollback, runFinishPrepared,
    finishPrepared]
  generalize x.clearPGresult.1 = y at hstray hblock
  grind [h.1, close_status, close_stray]

theorem idle_abortFetchOne (hs : x.stray = []) (hb : x.status = .ok → x.block = none) :
    let y := (abortFetchOne e x).1
    y.stray = [] ∧ (y.status = .ok → Idle y) := by
  simp only [abortFetchOne]
  grind [Idle, close_status, close_stray]

theorem abortSendOne_go (tx : Nat) (fate : ServerId → Fate) (e : Entry) (x : Connection) :
    (abortSendOne tx fate e x).2 = true := by
  simp only [abortSendOne]
  split
  · rfl
  · split <;> (try split) <;> rfl

theorem abortFetchOne_go (e : Entry) (x : Connection) : (abortFetchOne e x).2 = true := by
  simp only [abortFetchOne]
  split <;> rfl

/-- **The abort callback leaves every connection to the next transaction**, whatever happened
before it and whatever becomes of its own commands. -/
theorem clean_abort (hnd : (s.cache.map (·.serverId)).Nodup)
    (htidy : ∀ w, Tidy s.cache w (s.conn w)) (v : Servers) (fate : ServerId → Fate) :
    Clean (s.abort v fate) := by
  intro w
  have hconn := forall_connectAll v s.cache htidy fun _ _ _ => Tidy.reopened
  have h1 := run_goes serverId (abortSendOne s.tx fate) s.cache
    (connectAll v s.cache s.conn) hnd fun e _ => abortSendOne_go _ _ _ _
  simp only [abort, clear, remoteCommandAbort]
  by_cases hw : w ∈ s.cache.map (·.serverId)
  · obtain ⟨e, he, rfl⟩ := mem_map.mp hw
    have h2 := run_goes serverId abortFetchOne s.cache
      (run serverId (abortSendOne s.tx fate) s.cache
        (connectAll v s.cache s.conn)).1 hnd fun e _ => abortFetchOne_go _ _
    rw [(run_done _ _ _ _ hnd h2 e he).2, (run_done _ _ _ _ hnd h1 e he).2]
    obtain ⟨hs, hb⟩ := tidy_abortSendOne s.tx fate (hconn e.serverId)
    exact idle_abortFetchOne hs hb
  · rw [run_other _ _ _ _ hw, run_other _ _ _ _ hw]
    refine ⟨(hconn w).1, fun hok => ?_⟩
    exact ((hconn w).2 hok).resolve_right fun hx => hw hx.1

/-! ## 6. The pre-commit callback -/

/-- A connection of a transaction that raised no error, before the commit callback runs. -/
structure Committable (tx : Nat) (x : Connection) : Prop where
  status : x.status = .ok
  stray : x.stray = []
  pending : x.pending = none
  state : Idle x ∨ InBlock tx x ∨
    x.transactionState = .prepare ∧ x.block = none ∧ tx ∈ x.prepared.map (·.1)

theorem Committable.idle (h : Committable tx x) (hn : x.transactionState = .none) : Idle x := by
  refine h.state.resolve_right ?_
  rintro (hb | hp)
  · exact hb.abortable.1 hn
  · rw [hp.1] at hn
    cases hn

theorem Committable.reopened {y : Connection} (h : Committable tx x) (hr : Reopened x y)
    (hok : y.status = .ok) : Committable tx y :=
  ⟨hok, hr.stray.trans h.stray, hr.pending, .inl hr.idle⟩

/-- A transaction that is about to commit, and gets all its connections, has read all answers. -/
theorem SessionInv.committable (hi : SessionInv s) (hf : s.failed = false)
    (hall : ∀ e ∈ s.cache, e.commands = 0) {v : Servers}
    (hcon : allConnected s.cache (connectAll v s.cache s.conn) = true) (he : e ∈ s.cache) :
    let x := connectAll v s.cache s.conn e.serverId
    Committable s.tx x ∧ (Idle x ∨ InBlock s.tx x) := by
  have hst := allConnected_iff.mp hcon e he
  have hs := hi.sent hf e.serverId
  rw [connectAll_of_mem v s.conn he] at hst ⊢
  rcases connection_cases v e.serverId (s.conn e.serverId) with ⟨hok, heq⟩ | hr
  · rw [heq]
    have hp := hi.answered hf e he (hall e he) hok
    have h := (hs.inBlock hok (.inl hp)).imp_right And.right
    exact ⟨⟨hok, hs.1, hp, h.imp_right .inl⟩, h⟩
  · exact ⟨⟨hst, hr.stray.trans hs.1, hr.pending, .inl hr.idle⟩, .inl hr.idle⟩

/-- `PREPARE TRANSACTION` leaves no block behind, and a success leaves the gid prepared. -/
theorem runPrepare_spec (fate : Fate) (hb : InBlock tx x) :
    let y := x.runPrepare tx fate
    y.status = x.status ∧ y.stray = x.stray ∧ y.transactionState = x.transactionState ∧
      y.block = none ∧ y.pending ≠ none ∧
      (y.pending = some .ok → tx ∈ y.prepared.map (·.1)) := by
  obtain ⟨-, b, hblk, -, hnf⟩ := hb
  cases fate with
  | ok => simp [runPrepare, prepareBlock, hblk, hnf]
  | error => simp [runPrepare, Fate.reply]
  | broken ran =>
    cases ran <;>
      simp [runPrepare, prepareBlock, hblk, hnf, Fate.reply]
  | sendFailed => simp [runPrepare, Fate.reply]

/-- What the first loop of the pre-commit callback makes of a connection. -/
theorem prepareSendOne_spec (fate : ServerId → Fate) (e : Entry) (hx : Committable tx x)
    (hb : Idle x ∨ InBlock tx x) :
    let y := prepareSendOne tx fate e x
    y.1 = x ∧ x.transactionState ≠ .beginForWrite ∨ y.1 = x.close ∧ y.2 = false ∨
      x.transactionState = .beginForWrite ∧ y.1 = x.runPrepare tx (fate e.serverId) ∧
        InBlock tx x := by
  simp only [prepareSendOne, clearPGresult_none hx.pending, Bool.false_eq_true, if_false]
  by_cases hs : x.transactionState = .beginForWrite
  · rw [if_pos hs]
    split
    · refine .inr (.inr ⟨hs, rfl, hb.resolve_left fun hidle => ?_⟩)
      rw [hidle.1] at hs
      cases hs
    · exact .inr (.inl ⟨rfl, rfl⟩)
  · rw [if_neg hs]
    exact .inl ⟨rfl, hs⟩

theorem tidy_prepareSendOne (fate : ServerId → Fate) (he : e ∈ cache) (hx : Committable tx x)
    (hb : Idle x ∨ InBlock tx x) :
    let y := (prepareSendOne tx fate e x).1
    Tidy cache e.serverId y ∧
      (y.status = .ok → y.pending ≠ none → y.transactionState = .beginForWrite →
        y.block = none) := by
  have hmem : e.serverId ∈ cache.map (·.serverId) := mem_map_of_mem he
  rcases prepareSendOne_spec fate e hx hb with ⟨hy, -⟩ | ⟨hy, -⟩ | ⟨hs, hy, hin⟩
  · simp only [hy]
    exact ⟨⟨hx.stray, fun _ => hb.imp_right fun h => ⟨hmem, h.abortable⟩⟩,
      fun _ hp => absurd hx.pending hp⟩
  · simp only [hy]
    exact ⟨tidy_close hx.stray, fun hok => by simp at hok⟩
  · simp only [hy]
    obtain ⟨-, hstray, hstate, hblk, -, -⟩ := runPrepare_spec (fate e.serverId) hin
    refine ⟨⟨by rw [hstray]; exact hx.stray, fun _ => .inr ⟨hmem, ?_, fun _ => hblk⟩⟩,
      fun _ _ _ => hblk⟩
    rw [hstate, hs]
    simp

/-- Reading the answers to `PREPARE TRANSACTION` keeps the connections abortable. -/
theorem tidy_prepareFetchOne (h : Tidy cache w x)
    (hb : x.status = .ok → x.pending ≠ none → x.transactionState = .beginForWrite →
      x.block = none) :
    Tidy cache w (prepareFetchOne e x).1 := by
  have hclose := @tidy_close _ cache w h.1
  simp only [prepareFetchOne]
  grind [Tidy, Idle, Abortable]

theorem prepareFetchOne_go (e : Entry) (x : Connection) : (prepareFetchOne e x).2 = true := by
  simp only [prepareFetchOne]
  split <;> rfl

section Prepare

variable {s : Session} (hi : SessionInv s) (hf : s.failed = false)
  (hall : ∀ e ∈ s.cache, e.commands = 0) {v : Servers}

include hi in
theorem connectAll_tidy (v : Servers) (w : ServerId) :
    Tidy s.cache w (connectAll v s.cache s.conn w) :=
  forall_connectAll v s.cache hi.tidy (fun _ _ _ => Tidy.reopened) w

include hi hf hall

section Connected

variable (hcon : allConnected s.cache (connectAll v s.cache s.conn) = true)

include hcon

/-- After the first loop, whether or not it ran to its end. -/
theorem prepareSend_tidy (fate : ServerId → Fate) (w : ServerId) :
    let y := (run serverId (prepareSendOne s.tx fate) s.cache
      (connectAll v s.cache s.conn)).1 w
    Tidy s.cache w y ∧
      (y.status = .ok → y.pending ≠ none → y.transactionState = .beginForWrite →
        y.block = none) := by
  have hc := fun e (he : e ∈ s.cache) => hi.committable hf hall hcon he
  have htidy := connectAll_tidy hi v
  generalize connectAll v s.cache s.conn = c at hc htidy
  by_cases hw : w ∈ s.cache.map (·.serverId)
  · obtain ⟨e, he, rfl⟩ := mem_map.mp hw
    rcases run_visited serverId (prepareSendOne s.tx fate) c hi.nodup he with h | h
    · simp only [h]
      exact tidy_prepareSendOne fate he (hc e he).1 (hc e he).2
    · simp only [h]
      exact ⟨htidy _, fun _ hp => absurd (hc e he).1.pending hp⟩
  · simp only [run_other _ _ _ _ hw]
    refine ⟨htidy w, fun hok _ hs => ?_⟩
    rcases (htidy w).2 hok with hidle | hx
    · exact hidle.2
    · exact absurd hx.1 hw

end Connected

/-- Whatever the pre-commit callback met, its connections can be aborted. -/
theorem prepare_tidy (v : Servers) (fate : ServerId → Fate) (w : ServerId) :
    Tidy s.cache w ((s.remoteCommandPrepare v fate).1 w) := by
  have hconn := connectAll_tidy hi v w
  simp only [remoteCommandPrepare]
  split
  · rename_i hcon
    have hsend := prepareSend_tidy hi hf hall hcon fate
    split
    · exact hconn
    · split
      · refine (run_forall serverId prepareFetchOne s.cache _
          (P := fun w y => Tidy s.cache w y ∧ (y.status = .ok → y.pending ≠ none →
            y.transactionState = .beginForWrite → y.block = none))
          (fun e _ x hx => ⟨tidy_prepareFetchOne hx.1 hx.2, ?_⟩) hsend w).1
        intro hok hp hs
        simp only [prepareFetchOne] at hok hp hs ⊢
        split at hok <;> simp_all
      · exact (hsend w).1
  · exact hconn

omit hi hf hall in
/-- A pre-commit callback that raised no error got all its connections. -/
theorem prepare_connected {fate : ServerId → Fate}
    (hok : (s.remoteCommandPrepare v fate).2 = true) :
    allConnected s.cache (connectAll v s.cache s.conn) = true := by
  simp only [remoteCommandPrepare] at hok
  split at hok
  · assumption
  · cases hok

/-- It leaves every connection of the transaction ready to commit: idle, in its block, or
prepared. -/
theorem prepare_committable {fate : ServerId → Fate}
    (hok : (s.remoteCommandPrepare v fate).2 = true) (he : e ∈ s.cache) :
    Committable s.tx ((s.remoteCommandPrepare v fate).1 e.serverId) := by
  have hcon := prepare_connected hok
  obtain ⟨hx, hb⟩ := hi.committable hf hall hcon he
  simp only [remoteCommandPrepare, if_pos hcon] at hok ⊢
  generalize connectAll v s.cache s.conn = c at hx hb hok ⊢
  split at hok
  · rw [if_pos ‹_›]
    exact hx
  rename_i hcount
  rw [if_neg hcount]
  split at hok
  · rename_i hsent
    have hfetch := run_goes serverId prepareFetchOne s.cache
      (run serverId (prepareSendOne s.tx fate) s.cache c).1 hi.nodup
      fun e _ => prepareFetchOne_go e _
    obtain ⟨hsgo, hsx⟩ := run_done _ _ _ _ hi.nodup hsent e he
    rw [if_pos hsent, (run_done _ _ _ _ hi.nodup hfetch e he).2, hsx]
    rcases prepareSendOne_spec fate e hx hb with ⟨hy, -⟩ | ⟨-, hstop⟩ | ⟨hs, hy, hin⟩
    · simp only [hy, prepareFetchOne, hx.pending]
      exact hx
    · rw [hsgo] at hstop
      cases hstop
    · obtain ⟨hst, hstray, hstate, hblk, hpend, hprep⟩ := runPrepare_spec (fate e.serverId) hin
      have hnot := any_eq_false.mp ((Bool.not_eq_true' _).mp hok) e he
      rw [hsx, hy] at hnot
      rw [hy]
      generalize (c e.serverId).runPrepare s.tx (fate e.serverId) = y at *
      -- no error was collected, so the answer was a success
      have hpok : y.pending = some .ok := by
        cases hp : y.pending with
        | none => exact absurd hp hpend
        | some r => cases r <;> simp_all
      simp only [prepareFetchOne, hpok, hstate, hs, if_true]
      exact ⟨hst.trans hx.status, hstray.trans hx.stray, rfl, .inr (.inr ⟨rfl, hblk, hprep hpok⟩)⟩
  · cases hok

end Prepare

/-! ## 7. The commit callback -/

/-- The connections on which the commit callback has something to commit, in its order. -/
def Session.committing (s : Session) (f : CommitFates) : List ServerId :=
  (s.cache.filter fun e => (s.commitConnections f e.serverId).transactionState ≠ .none).map
    (·.serverId)

/-- Only the last of these connections fails to answer with success, and it does so by being lost.
(If the very send fails, the loop that fetches the answers is not reached, so the connection must
be the only one.) -/
def CommitAnswered (ws : List ServerId) (fate : ServerId → Fate) : Prop :=
  ∀ pre w post, ws = pre ++ w :: post → fate w ≠ .ok →
    post = [] ∧ (fate w = .sendFailed → pre = []) ∧ fate w ≠ .error

theorem commitAnswered_last (ws : List ServerId) {ran : Bool} (hok : ∀ v ∈ ws, fate v = .ok)
    (hlast : fate w = .broken ran) : CommitAnswered (ws ++ [w]) fate := by
  intro pre v post heq hv
  rcases eq_nil_or_concat post with rfl | ⟨post, u, rfl⟩
  · obtain ⟨-, hvw⟩ := append_inj' heq rfl
    cases hvw
    exact ⟨rfl, by simp [hlast], by simp [hlast]⟩
  · -- every other connection answers
    have hmem : v ∈ ws := by
      rw [concat_eq_append, ← cons_append, ← append_assoc] at heq
      rw [(append_inj' heq rfl).1]
      simp
    exact absurd (hok v hmem) hv

/-- The worker was asked to commit: no block is left, and the answer waits. -/
structure Asked (fate : Fate) (y : Connection) : Prop where
  stray : y.stray = []
  block : y.block = none
  pending : y.pending = some fate.reply

theorem asked_runCommit (fate : Fate) (hx : Committable tx x) (hin : InBlock tx x) :
    Asked fate (x.runCommit fate) := by
  obtain ⟨-, b, hb, -, hnf⟩ := hin
  rcases fate with - | - | - | (- | -) <;>
    constructor <;> simp [runCommit, commitBlock, hb, hnf, hx.stray, Fate.reply]

theorem asked_runFinishPrepared (fate : Fate) (hx : Committable tx x) (hb : x.block = none)
    (hprep : tx ∈ x.prepared.map (·.1)) : Asked fate (x.runFinishPrepared tx true fate) := by
  cases fate with
  | ok =>
    rw [runFinishPrepared, if_pos hprep]
    exact ⟨hx.stray, hb, rfl⟩
  | sendFailed | error => exact ⟨hx.stray, hb, rfl⟩
  | broken ran => cases ran <;> exact ⟨hx.stray, hb, rfl⟩

/-- `COMMIT` and `COMMIT PREPARED` leave no block behind, and their answer is the worker's. -/
theorem commitSendOne_spec (fate : ServerId → Fate) (e : Entry) (hx : Committable tx x) :
    let y := commitSendOne tx fate e x
    x.transactionState = .none ∧ y = (x, true) ∨
      x.transactionState ≠ .none ∧ fate e.serverId = .sendFailed ∧ y = (x.close, false) ∨
      x.transactionState ≠ .none ∧ y.2 = true ∧ Asked (fate e.serverId) y.1 := by
  simp only [commitSendOne, clearPGresult_none hx.pending, Bool.false_eq_true, if_false]
  by_cases hsf : fate e.serverId = .sendFailed
  · cases hs : x.transactionState <;> simp [hsf]
  · rcases hx.state with hidle | hin | ⟨hs, hb, hprep⟩
    · exact .inl ⟨hidle.1, by simp [hidle.1]⟩
    · have hrun := asked_runCommit (fate e.serverId) hx hin
      rcases hin.1 with hs | hs <;> simp [hs, hsf, hx.status, hrun]
    · simp [hs, hsf, hx.status, asked_runFinishPrepared (fate e.serverId) hx hb hprep]

section Commit

variable {s : Session} {c : ServerId → Connection} {fate : ServerId → Fate}
  (hnd : (s.cache.map (·.serverId)).Nodup)
  (hc : ∀ e ∈ s.cache, Committable s.tx (c e.serverId))
  (hans : CommitAnswered ((s.cache.filter fun e =>
    (c e.serverId).transactionState ≠ .none).map (·.serverId)) fate)

omit hnd hc in
include hans in
/-- Where a busy connection does not answer with success, no other comes after it. -/
theorem commit_stop {pre post : List Entry} {a : Entry} (hsplit : s.cache = pre ++ a :: post)
    (hbusy : (c a.serverId).transactionState ≠ .none) (hnotok : fate a.serverId ≠ .ok) :
    (∀ b ∈ post, (c b.serverId).transactionState = .none) ∧ fate a.serverId ≠ .error ∧
      (fate a.serverId = .sendFailed → ∀ b ∈ pre, (c b.serverId).transactionState = .none) := by
  obtain ⟨hlast, honly, hnoterr⟩ := hans _ _ _ (by simp [hsplit, hbusy]; rfl) hnotok
  refine ⟨?_, hnoterr, fun hf => ?_⟩
  · simpa using hlast
  · simpa using honly hf

include hnd hc hans

/-- A failed send stops the callback at its only busy connection, which is lost. -/
theorem commit_sendStopped
    (hstop : (KeyedLoop.run Entry.serverId (commitSendOne s.tx fate) s.cache c).2 = false)
    (he : e ∈ s.cache) :
    let y := (run serverId (commitSendOne s.tx fate) s.cache c).1 e.serverId
    y.stray = [] ∧ (y.status = .ok → Idle y) := by
  obtain ⟨pre, a, post, hsplit, hago, ha, hpre, hpost⟩ := run_stopped _ _ _ _ hnd hstop
  have hain : a ∈ s.cache := by simp [hsplit]
  -- the item that stopped the loop is busy and its send failed
  obtain ⟨hbusy, hfail, hclose⟩ : (c a.serverId).transactionState ≠ .none ∧
      fate a.serverId = .sendFailed ∧
      commitSendOne s.tx fate a (c a.serverId) = ((c a.serverId).close, false) := by
    rcases commitSendOne_spec fate a (hc a hain) with ⟨-, hy⟩ | h | ⟨-, hgo, -⟩
    · rw [hy] at hago
      cases hago
    · exact h
    · rw [hgo] at hago
      cases hago
  obtain ⟨hlast, -, honly⟩ := commit_stop hans hsplit hbusy (by simp [hfail])
  have hcases : e ∈ pre ∨ e = a ∨ e ∈ post := by
    rw [hsplit] at he
    simpa using he
  rcases hcases with hin | rfl | hin
  · have hn := honly hfail e hin
    have hsame : (commitSendOne s.tx fate e (c e.serverId)).1 = c e.serverId := by
      rcases commitSendOne_spec fate e (hc e he) with ⟨-, hy⟩ | ⟨hb, -⟩ | ⟨hb, -⟩
      · rw [hy]
      · exact absurd hn hb
      · exact absurd hn hb
    simp only [(hpre e hin).2, hsame]
    exact ⟨(hc e he).stray, fun _ => (hc e he).idle hn⟩
  · simp only [ha, hclose]
    exact ⟨(hc e he).stray, fun hok => by simp at hok⟩
  · simp only [hpost e hin]
    exact ⟨(hc e he).stray, fun _ => (hc e he).idle (hlast e hin)⟩

/-- The answers are read: every busy connection is back to `NONE`, up to a lost last one. -/
theorem commit_fetched
    (hgo : (KeyedLoop.run Entry.serverId (commitSendOne s.tx fate) s.cache c).2 = true)
    (he : e ∈ s.cache) :
    let y := (run serverId commitFetchOne s.cache
      (run serverId (commitSendOne s.tx fate) s.cache c).1).1 e.serverId
    y.stray = [] ∧ (y.status = .ok → Idle y) := by
  have hsent := run_done _ _ _ _ hnd hgo
  generalize (run serverId (commitSendOne s.tx fate) s.cache c).1 = d at hsent ⊢
  -- what the fetch finds: nothing on an idle connection, the worker's answer on a busy one
  have hfind : ∀ b ∈ s.cache, (d b.serverId).stray = [] ∧ (d b.serverId).block = none ∧
      ((c b.serverId).transactionState = .none ∧ (d b.serverId).pending = none ∧
          (d b.serverId).transactionState = .none ∨
        (c b.serverId).transactionState ≠ .none ∧
          (d b.serverId).pending = some (fate b.serverId).reply) := by
    intro b hb
    obtain ⟨hbgo, hbx⟩ := hsent b hb
    rw [hbx]
    rcases commitSendOne_spec fate b (hc b hb) with ⟨hn, hy⟩ | ⟨-, -, hy⟩ | ⟨hn, -, h⟩
    · rw [hy]
      exact ⟨(hc b hb).stray, ((hc b hb).idle hn).2, .inl ⟨hn, (hc b hb).pending, hn⟩⟩
    · rw [hy] at hbgo
      cases hbgo
    · exact ⟨h.stray, h.block, .inr ⟨hn, h.pending⟩⟩
  -- a fetch that goes on leaves an idle connection
  have hread : ∀ b ∈ s.cache, (commitFetchOne b (d b.serverId)).2 = true →
      (commitFetchOne b (d b.serverId)).1.stray = [] ∧
        Idle (commitFetchOne b (d b.serverId)).1 := by
    intro b hb hbgo
    obtain ⟨hs, hblk, hp⟩ := hfind b hb
    rcases hp with ⟨-, hp, hn⟩ | ⟨-, hp⟩
    · simp only [commitFetchOne, hp]
      exact ⟨hs, hn, hblk⟩
    · cases hr : (fate b.serverId).reply <;> rw [hr] at hp <;>
        simp only [commitFetchOne, hp] at hbgo ⊢
      · exact ⟨hs, rfl, hblk⟩
      · cases hbgo
      · cases hbgo
  cases hfgo : (run serverId commitFetchOne s.cache d).2 with
  | true =>
    obtain ⟨hego, hex⟩ := run_done _ _ _ _ hnd hfgo e he
    simp only [hex]
    exact ⟨(hread e he hego).1, fun _ => (hread e he hego).2⟩
  | false =>
    obtain ⟨pre, a, post, hsplit, hago, ha, hpre, hpost⟩ :=
      run_stopped _ _ _ _ hnd hfgo
    have hain : a ∈ s.cache := by simp [hsplit]
    obtain ⟨hs, -, hp⟩ := hfind a hain
    obtain ⟨hbusy, hpa⟩ : (c a.serverId).transactionState ≠ .none ∧
        (d a.serverId).pending = some (fate a.serverId).reply := by
      rcases hp with ⟨-, hp, -⟩ | h
      · simp [commitFetchOne, hp] at hago
      · exact h
    have hnotok : fate a.serverId ≠ .ok := by
      intro hok
      simp [commitFetchOne, hpa, hok, Fate.reply] at hago
    obtain ⟨hlast, hnoterr, -⟩ := commit_stop hans hsplit hbusy hnotok
    have hcases : e ∈ pre ∨ e = a ∨ e ∈ post := by
      rw [hsplit] at he
      simpa using he
    rcases hcases with hin | rfl | hin
    · simp only [(hpre e hin).2]
      exact ⟨(hread e he (hpre e hin).1).1, fun _ => (hread e he (hpre e hin).1).2⟩
    · have hlost : (fate e.serverId).reply = .lost := by
        cases hf : fate e.serverId with
        | ok => exact absurd hf hnotok
        | error => exact absurd hf hnoterr
        | sendFailed | broken => rfl
      rw [hlost] at hpa
      simp only [ha, commitFetchOne, hpa]
      exact ⟨hs, fun hok => by simp at hok⟩
    · simp only [hpost e hin]
      obtain ⟨hs', hblk, hp'⟩ := hfind e he
      rcases hp' with ⟨-, -, hn'⟩ | ⟨hb, -⟩
      · exact ⟨hs', fun _ => ⟨hn', hblk⟩⟩
      · exact absurd (hlast e hin) hb

end Commit

/-- The commit callback, on connections that can be committed on: if at most the last of those it
commits on fails to answer, all of them are idle afterwards. -/
theorem remoteCommandCommit_idle {s : Session} {c : ServerId → Connection} {v : Servers}
    {fate : ServerId → Fate} (hnd : (s.cache.map (·.serverId)).Nodup)
    (htidy : ∀ w, Tidy s.cache w (c w)) (hcommit : ∀ e ∈ s.cache, Committable s.tx (c e.serverId))
    (hans : CommitAnswered ((s.cache.filter fun e =>
      (connectAll v s.cache c e.serverId).transactionState ≠ .none).map (·.serverId)) fate)
    (w : ServerId) :
    let y := s.remoteCommandCommit v fate c w
    y.stray = [] ∧ (y.status = .ok → Idle y) := by
  have hconn := forall_connectAll v s.cache htidy fun _ _ _ => Tidy.reopened
  simp only [remoteCommandCommit]
  split
  · rename_i hcon
    -- what has been opened again can be committed on as well
    have hc : ∀ e ∈ s.cache, Committable s.tx (connectAll v s.cache c e.serverId) := by
      intro e he
      rcases connectAll_cases v s.cache c e.serverId with heq | hr
      · rw [heq]
        exact hcommit e he
      · exact (hcommit e he).reopened hr (allConnected_iff.mp hcon e he)
    by_cases hw : w ∈ s.cache.map (·.serverId)
    · obtain ⟨e, he, rfl⟩ := mem_map.mp hw
      split
      · rename_i hgo
        exact commit_fetched hnd hc hans hgo he
      · rename_i hstop
        exact commit_sendStopped hnd hc hans (by simpa using hstop) he
    · have hidle := fun hok => ((hconn w).2 hok).resolve_right fun hx => hw hx.1
      split
      · rw [run_other _ _ _ _ hw, run_other _ _ _ _ hw]
        exact ⟨(hconn w).1, hidle⟩
      · rw [run_other _ _ _ _ hw]
        exact ⟨(hconn w).1, hidle⟩
  · exact ⟨(reopened_finish _).stray.trans (hconn w).1, fun _ => (reopened_finish _).idle⟩

/-- **The commit callback leaves every connection to the next transaction** if at most the last of
the connections it commits on fails to answer. -/
theorem clean_commit {s : Session} (hi : SessionInv s) (hf : s.failed = false)
    (hall : ∀ e ∈ s.cache, e.commands = 0) (f : CommitFates)
    (hans : (s.preCommit f).2 = true → CommitAnswered (s.committing f) f.commit.fate) :
    Clean (s.commit f) := by
  have htidy := prepare_tidy hi hf hall f.prepare.servers f.prepare.fate
  simp only [commit]
  split
  · rename_i hok
    exact remoteCommandCommit_idle hi.nodup htidy
      (fun e he => prepare_committable hi hf hall hok he) (hans hok)
  · exact clean_abort (s := { s with conn := (s.preCommit f).1 }) hi.nodup htidy
      f.rollback.servers f.rollback.fate

/-! ## 8. Any sequence of transactions -/

/-- The condition on a step: a commit callback meets at most a lost last connection. -/
def Answered (s : Session) : Event → Prop
  | .commit f => (s.preCommit f).2 = true → CommitAnswered (s.committing f) f.commit.fate
  | _ => True

theorem inv_step {s s' : Session} {e : Event} (hi : SessionInv s) (ha : Answered s e)
    (h : step s e = some s') : SessionInv s' := by
  cases e with
  | registerLocalProcessFlag =>
    simp only [step] at h
    split at h <;> cases h
    exact ⟨hi.nodup, hi.tidy, hi.sent, hi.answered⟩
  | call order flag workers =>
    simp only [step] at h
    split at h <;> cases h
    exact inv_call order flag workers hi
  | send v fate =>
    simp only [step] at h
    split at h <;> cases h
    rename_i hf
    exact inv_send rfl hi (by simpa using hf)
  | commit f =>
    simp only [step] at h
    split at h <;> cases h
    rename_i hg
    obtain ⟨hf, hall⟩ := not_or.mp hg
    have hall : ∀ e ∈ s.cache, e.commands = 0 := by simpa using hall
    refine (clean_commit hi (by simpa using hf) hall f ha).sessionInv ?_
    simp only [commit]
    split <;> rfl
  | abort v fate =>
    cases h
    exact (clean_abort hi.nodup hi.tidy v fate).sessionInv rfl

/-- **Connections between transactions.**  In every run of a session in which no commit callback
leaves a connection behind, whatever else fails, in whatever order the tables are gone over and
whenever a server's row changes: after each transaction end every connection that can still be used
is in state `NONE` with no block open on its worker, and no write has ever run outside a block that
its own transaction began. -/
theorem connections_none_between_transactions {s : Session} (h : Run step Answered Session.init s) :
    (s.cache = [] → ∀ w, (s.conn w).status = .ok →
        (s.conn w).transactionState = .none ∧ (s.conn w).block = none) ∧
      ∀ w, (s.conn w).stray = [] := by
  have hi : SessionInv s := h.invariant (clean_init.sessionInv rfl)
    fun _ _ _ hi hc hs => inv_step hi hc hs
  refine ⟨fun hc w hok => ?_, fun w => (hi.tidy w).1⟩
  exact ((hi.tidy w).2 hok).resolve_right fun hx => by simp [hc] at hx

/-- No row has changed, and every server can be reached. -/
def steady : Servers := ⟨fun _ => false, fun _ => true⟩

/-- All workers answer. -/
def allOk : CommitFates :=
  ⟨⟨steady, fun _ => .ok⟩, ⟨steady, fun _ => .ok⟩, ⟨steady, fun _ => .ok⟩⟩

def writeFlag : CommandFlag := ⟨true, false⟩

/-- The hash table is gone over in the order of first use, or the other way round. -/
def firstUse : HashOrder := ⟨id, fun _ => .refl _⟩

def lastUse : HashOrder := ⟨List.reverse, List.reverse_perm⟩

/-- A transaction that writes on two workers and commits, losing worker 1, which comes last in its
loops; then one that is sent to a server whose row has changed, and aborts. -/
def quietRun : List Event :=
  [.registerLocalProcessFlag, .call lastUse writeFlag [1, 2], .send steady (fun _ => .ok),
    .commit { allOk with
      commit := ⟨steady, fun w => if w = 1 then .broken true else .ok⟩ },
    .call firstUse writeFlag [2], .send ⟨fun w => w = 2, fun _ => true⟩ (fun _ => .error),
    .abort steady (fun _ => .ok)]

theorem connections_none_quietRun : ∃ s, exec step Session.init quietRun = some s ∧
    (s.conn 1).durable = [0] ∧ (s.conn 2).durable = [0] ∧
    (s.cache = [] → ∀ w, (s.conn w).status = .ok →
        (s.conn w).transactionState = .none ∧ (s.conn w).block = none) ∧
      ∀ w, (s.conn w).stray = [] := by
  refine ⟨_, rfl, by decide, by decide, connections_none_between_transactions
    (Run.of_exec_meet quietRun rfl ?_)⟩
  refine ⟨trivial, ?_⟩
  rintro _ ⟨⟩
  refine ⟨trivial, ?_⟩
  rintro _ ⟨⟩
  refine ⟨trivial, ?_⟩
  rintro _ ⟨⟩
  refine ⟨fun _ => commitAnswered_last [2] (w := 1) (by simp) rfl, fun s _ => ?_⟩
  exact allMeet_of_forall _ s (by simp [Answered])

/-- The first transaction is prepared on workers 1 and 2 and commits; worker 1, which comes first in
the loops, answers its `COMMIT PREPARED` with an error.  The callback returns, so worker 2's
connection stays in state `PREPARE`, and the second transaction's write on worker 2 is not preceded
by `BEGIN`: it is committed at once, on its own. -/
def refusedRun : List Event :=
  [.registerLocalProcessFlag, .call firstUse writeFlag [1, 2], .send steady (fun _ => .ok),
    .commit { allOk with commit := ⟨steady, fun w => if w = 1 then .error else .ok⟩ }]

def refusedRunNext : List Event :=
  [.call firstUse writeFlag [2], .send steady (fun _ => .ok)]

theorem commit_leaves_prepared :
    (∃ s, exec step Session.init refusedRun = some s ∧ s.cache = [] ∧
      (s.conn 2).status = .ok ∧ (s.conn 2).transactionState = .prepare) ∧
    ∃ s, exec step Session.init (refusedRun ++ refusedRunNext) = some s ∧
      (s.conn 2).stray = [1] ∧ 1 ∈ (s.conn 2).durable := by
  exact ⟨⟨_, rfl, rfl, by decide, by decide⟩, _, rfl, by decide, by decide⟩

end FalconFS.RemoteComm
