/-
# The uncommitted inode writes of a transaction

The writes of a transaction are read from its history (`putsOf`), and each remembers the row that it
replaced.  Three things are said about them here.  They are linked: what a write replaced is what
the writes before it had left on top of the committed rows (`Chained`).  They go back to operations
of the history, so that a write which found its key free is an insert.  And a history without a
rollback never loses one, which is the case on a worker that executes commands of the coordinator.
-/
import FalconFS.Metadb.HandleSpec

namespace FalconFS

open List AList

/-! ## 1. Tables under writes -/

variable {k : Key} {tbl tbl' : InodeTable} {puts : List Put} {h : List Entry} {o : InodeOp}
  {r : o.Res} {p : Put}

theorem lookup_applyPuts_congr (puts : List Put) (h : lookup k tbl' = lookup k tbl) :
    lookup k (applyPuts puts tbl') = lookup k (applyPuts puts tbl) := by
  induction puts with
  | nil => exact h
  | cons p puts ih => rw [lookup_applyPuts_cons, lookup_applyPuts_cons, ih]

/-- A key that the writes concern has the value of one of them, whatever the table is. -/
theorem lookup_applyPuts_of_mem (h : ∃ p ∈ puts, p.key = k) (tbl tbl' : InodeTable) :
    lookup k (applyPuts puts tbl') = lookup k (applyPuts puts tbl) := by
  induction puts with
  | nil => obtain ⟨_, hp, _⟩ := h; cases hp
  | cons p puts ih =>
    rw [lookup_applyPuts_cons, lookup_applyPuts_cons]
    by_cases hk : k = p.key
    · rw [if_pos hk, if_pos hk]
    · rw [if_neg hk, if_neg hk]
      obtain ⟨q, hq, hqk⟩ := h
      rcases mem_cons.mp hq with rfl | hq
      · exact absurd hqk.symm hk
      · exact ih ⟨q, hq, hqk⟩

/-! ## 2. Linked writes -/

/-- Each write, newest first, has replaced what the writes before it had left. -/
def Chained : List Put → InodeTable → Prop
  | [], _ => True
  | p :: puts, tbl => p.old = lookup p.key (applyPuts puts tbl) ∧ Chained puts tbl

theorem Chained.suffix {puts' : List Put} (h : Chained puts tbl) (hs : puts' <:+ puts) :
    Chained puts' tbl := by
  induction puts with
  | nil => rwa [suffix_nil.mp hs]
  | cons p puts ih =>
    rcases suffix_cons_iff.mp hs with rfl | hs
    · exact h
    · exact ih h.2 hs

/-- The rows that the writes do not concern do not matter. -/
theorem Chained.congr (h : Chained puts tbl)
    (ht : ∀ p ∈ puts, lookup p.key tbl' = lookup p.key tbl) : Chained puts tbl' := by
  induction puts with
  | nil => trivial
  | cons p puts ih =>
    refine ⟨?_, ih h.2 fun q hq => ht q (mem_cons_of_mem _ hq)⟩
    rw [h.1, lookup_applyPuts_congr puts (ht p mem_cons_self)]

/-- A row that comes into being has been written under a free key. -/
theorem Chained.exists_old_none (h : Chained puts tbl) {r : InodeRow}
    (hk : lookup k tbl = none) (hr : lookup k (applyPuts puts tbl) = some r) :
    ∃ p ∈ puts, p.key = k ∧ p.old = none := by
  induction puts generalizing r with
  | nil => rw [applyPuts_nil, hk] at hr; cases hr
  | cons p puts ih =>
    cases hbelow : lookup k (applyPuts puts tbl) with
    | some r' =>
      obtain ⟨q, hq, hqk⟩ := ih h.2 hbelow
      exact ⟨q, mem_cons_of_mem _ hq, hqk⟩
    | none =>
      rw [lookup_applyPuts_cons] at hr
      split at hr
      · rename_i hkp
        exact ⟨p, mem_cons_self, hkp.symm, by rw [h.1, ← hkp, hbelow]⟩
      · rw [hbelow] at hr
        cases hr

/-! ## 3. The writes of a history -/

/-- What a rollback goes back to is a part of what there is. -/
theorem saved_suffix_puts (h : List Entry) : (putsState h).2 <:+ (putsState h).1 := by
  induction h with
  | nil => exact suffix_refl _
  | cons e h ih =>
    obtain ⟨o, r⟩ := e
    cases o with
    | hash | nextInodeId | remote => exact ih
    | inode o =>
      cases o with
      | beginSub | rollbackSub => exact suffix_refl _
      | insert | searchAndUpdate | remove | scan | releaseSub =>
        exact ih.trans (suffix_append _ _)

/-- One more operation: its writes come on top, or the writes since the subtransaction go. -/
theorem putsOf_cons_inode (o : InodeOp) (r : o.Res) (h : List Entry) :
    putsOf (⟨.inode o, r⟩ :: h) = o.puts r ++ putsOf h ∨
      putsOf (⟨.inode o, r⟩ :: h) <:+ putsOf h := by
  by_cases hb : o = .beginSub
  · subst hb
    exact .inr (suffix_refl _)
  · by_cases hr : o = .rollbackSub
    · subst hr
      exact .inr (saved_suffix_puts h)
    · exact .inl (putsOf_inode hb hr)

/-- What an operation writes replaces what it sees. -/
theorem chained_puts (o : InodeOp) (shard : Key → Nat) (h : Chained puts tbl) :
    Chained (o.puts (o.result shard (applyPuts puts tbl)) ++ puts) tbl := by
  cases o with
  | insert k row =>
    by_cases hr : (lookup k (applyPuts puts tbl)).isNone = true
    · have heq : InodeOp.puts (.insert k row) (InodeOp.result shard (applyPuts puts tbl) _) =
          [⟨k, none, some row⟩] := if_pos hr
      rw [heq]
      exact ⟨(Option.isNone_iff_eq_none.mp hr).symm, h⟩
    · have heq : InodeOp.puts (.insert k row) (InodeOp.result shard (applyPuts puts tbl) _) = [] :=
        if_neg hr
      rwa [heq]
  | searchAndUpdate k u =>
    simp only [InodeOp.result]
    cases hr : lookup k (applyPuts puts tbl) with
    | none => exact h
    | some r =>
      simp only [InodeOp.puts]
      split
      · exact h
      · exact ⟨hr.symm, h⟩
  | remove k =>
    simp only [InodeOp.result]
    cases hr : lookup k (applyPuts puts tbl) with
    | none => exact h
    | some r => exact ⟨hr.symm, h⟩
  | scan | beginSub | releaseSub | rollbackSub => exact h

theorem chained_cons_inode (o : InodeOp) (shard : Key → Nat) (hc : Chained (putsOf h) tbl) :
    Chained (putsOf (⟨.inode o, o.result shard (applyPuts (putsOf h) tbl)⟩ :: h)) tbl := by
  rcases putsOf_cons_inode o (o.result shard (applyPuts (putsOf h) tbl)) h with heq | hs
  · rw [heq]
    exact chained_puts o shard hc
  · exact hc.suffix hs

/-- An operation waits for the other writers of what it writes. -/
theorem mem_waitsFor (hp : p ∈ o.puts r) : p.key ∈ o.waitsFor r := by
  cases o with
  | insert k row =>
    simp only [InodeOp.puts] at hp
    split at hp
    · rw [mem_singleton.mp hp]
      exact mem_singleton.mpr rfl
    · cases hp
  | searchAndUpdate k u => exact mem_map_of_mem hp
  | remove k => exact mem_map_of_mem hp
  | scan | beginSub | releaseSub | rollbackSub => cases hp

/-- A write goes back to an operation. -/
theorem exists_op_of_mem_putsOf (hp : p ∈ putsOf h) :
    ∃ (o : InodeOp) (r : o.Res), (⟨.inode o, r⟩ : Entry) ∈ h ∧ p ∈ o.puts r := by
  induction h with
  | nil => cases hp
  | cons e h ih =>
    have hup : p ∈ putsOf h → ∃ (o : InodeOp) (r : o.Res),
        (⟨.inode o, r⟩ : Entry) ∈ e :: h ∧ p ∈ o.puts r := by
      intro hp
      obtain ⟨o, r, hmem, hpo⟩ := ih hp
      exact ⟨o, r, mem_cons_of_mem _ hmem, hpo⟩
    obtain ⟨o, r⟩ := e
    cases o with
    | hash | nextInodeId | remote => exact hup hp
    | inode o =>
      rcases putsOf_cons_inode o r h with heq | hs
      · rw [heq, mem_append] at hp
        rcases hp with hp | hp
        · exact ⟨o, r, mem_cons_self, hp⟩
        · exact hup hp
      · exact hup (hs.subset hp)

/-- Only an insert writes under a free key. -/
theorem insert_of_old_none (hp : p ∈ o.puts r) (hold : p.old = none) :
    ∃ row, o = .insert p.key row := by
  cases o with
  | insert k row =>
    simp only [InodeOp.puts] at hp
    split at hp
    · rw [mem_singleton.mp hp]
      exact ⟨row, rfl⟩
    · cases hp
  | searchAndUpdate k u =>
    cases r with
    | none => cases hp
    | some r =>
      simp only [InodeOp.puts] at hp
      split at hp
      · cases hp
      · rw [mem_singleton.mp hp] at hold
        cases hold
  | remove k =>
    cases r with
    | none => cases hp
    | some r =>
      rw [mem_singleton.mp hp] at hold
      cases hold
  | scan | beginSub | releaseSub | rollbackSub => cases hp

section

variable {cfg : Config} {i : ServerId} {cmds : List SubRequest}
  (ha : Prog.All (OpOk cfg i cmds) h)

include ha

/-- **A new row is on the server that owns its key.** -/
theorem owner_of_old_none (hp : p ∈ putsOf h) (hold : p.old = none) : cfg.owner p.key = i := by
  obtain ⟨o, r, hmem, hpo⟩ := exists_op_of_mem_putsOf hp
  obtain ⟨row, rfl⟩ := insert_of_old_none hpo hold
  obtain ⟨_, _, hok⟩ := ha.mem hmem
  exact hok.1

/-- **Commands of the coordinator never roll back**: what they have written stays written. -/
theorem putsOf_suffix (hne : cmds ≠ []) {h' : List Entry} (hs : h' <:+ h) :
    putsOf h' <:+ putsOf h := by
  induction h with
  | nil => rw [suffix_nil.mp hs]
  | cons e h ih =>
    rcases suffix_cons_iff.mp hs with rfl | hs
    · exact suffix_refl _
    · refine (ih ha.2 hs).trans ?_
      have he := ha.1
      obtain ⟨o, r⟩ := e
      cases o with
      | hash | nextInodeId | remote => exact suffix_refl _
      | inode o =>
        cases o with
        | rollbackSub => exact absurd he hne
        | beginSub => exact suffix_refl _
        | insert | searchAndUpdate | remove | scan | releaseSub => exact suffix_append _ _

end

end FalconFS
