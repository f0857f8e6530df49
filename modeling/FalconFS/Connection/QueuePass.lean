/-
# One pass of the collector

`GarbageCollectWorker` erases entries from the vector that it goes through.  `erase` returns the
place of the entry behind, and the `it++` of the loop then passes over it: that entry is kept
whatever it is, and if there is none, the iterator steps behind the end, where `it != end()` does
not stop it.

During a pass the collector has the lock, and what is collectible does not change
(`Inv.pass_move`), so that a pass is a function of the list.  `pass_exact_iff` says for which lists
it does what it is for.
-/
import FalconFS.Connection.ConcurrentQueue

namespace FalconFS.ConcurrentQueue

/-! ## 1. What a pass leaves -/

section Lists

variable {α : Type} (P : α → Bool)

/-- What a pass leaves of a list, or `none` when it ends behind the end. -/
def swept : List α → Option (List α)
  | [] => some []
  | [a] => if P a then none else some [a]
  | a :: b :: l => if P a then (swept l).map (b :: ·) else (swept (b :: l)).map (a :: ·)

/-- **Every collectible entry has one behind it that is not collectible.** -/
def Spaced : List α → Bool
  | [] => true
  | [a] => !P a
  | a :: b :: l => (!P a || !P b) && Spaced (b :: l)

/-- The entry that is passed over is a collectible one, or the end is passed. -/
theorem swept_eq_filter_iff (l : List α) :
    swept P l = some (l.filter fun a => !P a) ↔ Spaced P l = true := by
  fun_induction swept P l with
  | case1 => exact iff_of_true rfl rfl
  | case2 a ha | case3 a ha => simp [Spaced, ha]
  | case4 a b l ha ih =>
    cases hb : P b with
    | true =>
      -- `b` is still there
      have hmem : ∀ l', b :: l' ≠ l.filter fun a => !P a := by
        intro l' h
        have : b ∈ l.filter fun a => !P a := h ▸ List.mem_cons_self
        simp [hb] at this
      simpa [Spaced, ha, hb] using fun l' _ => hmem l'
    | false =>
      have hrest : Spaced P (b :: l) = Spaced P l := by
        cases l <;> simp [Spaced, hb]
      simpa [Spaced, ha, hb, hrest] using ih
  | case5 a b l ha ih => simpa [Spaced, ha] using ih

end Lists

/-! ## 2. The collector's steps -/

variable {Thread T : Type}

/-- The steps of the collector while it has the lock. -/
def sweep (s : State Thread T) : Nat → State Thread T
  | 0 => s
  | n + 1 => if s.gc.locks then (garbageCollect s).elim s (sweep · n) else s

/-- One pass, from the first entry on. -/
def pass (s : State Thread T) : State Thread T :=
  sweep { s with gc := .scanning 0 } (s.activeProducers.length + 1)

theorem sweep_of_not_locks {s : State Thread T} (h : s.gc.locks = false) (n : Nat) :
    sweep s n = s := by
  cases n with
  | zero => rfl
  | succ n => rw [sweep, h, if_neg Bool.false_ne_true]

/-- How a pass ends when `pre` lies behind it and `rest` before it. -/
def Ends (pre : List (Producer Thread)) (s : State Thread T) :
    Option (List (Producer Thread)) → Prop
  | some l => s.gc = .waiting ∧ s.activeProducers = pre ++ l
  | none => s.gc = .pastEnd

theorem Ends.cons {pre : List (Producer Thread)} {a : Producer Thread} {s : State Thread T}
    {o : Option (List (Producer Thread))} (h : Ends (pre ++ [a]) s o) :
    Ends pre s (o.map (a :: ·)) := by
  cases o with
  | none => exact h
  | some l => exact ⟨h.1, by simpa using h.2⟩

theorem sweep_ends (n : Nat) : ∀ (s : State Thread T) (pre rest : List (Producer Thread)),
    s.gc = .scanning pre.length → s.activeProducers = pre ++ rest → rest.length < n →
      Ends pre (sweep s n) (swept s.collectible rest) := by
  induction n with
  | zero => exact fun s pre rest _ _ hn => absurd hn (Nat.not_lt_zero _)
  | succ n ih =>
    intro s pre rest hgc hlist hn
    have hlocks : s.gc.locks = true := by rw [hgc]; rfl
    rw [sweep, if_pos hlocks, garbageCollect, hgc]
    dsimp only
    rcases rest with - | ⟨a, rest⟩
    · rw [hlist, List.getElem?_eq_none (by simp)]
      rw [Option.elim, sweep_of_not_locks rfl]
      exact ⟨rfl, by simp⟩
    · have hget : s.activeProducers[pre.length]? = some a := by simp [hlist]
      have herase : s.activeProducers.eraseIdx pre.length = pre ++ rest := by
        simp [hlist, List.eraseIdx_append_of_length_le]
      rw [hget]
      dsimp only
      rw [List.length_cons] at hn
      cases ha : s.collectible a with
      | false =>
        have h := ih { s with gc := .scanning (pre.length + 1) } (pre ++ [a]) rest (by simp)
          (by simpa using hlist) (Nat.lt_of_succ_lt_succ hn)
        have hswept : swept s.collectible (a :: rest) =
            (swept s.collectible rest).map (a :: ·) := by
          cases rest <;> simp [swept, ha]
        rw [hswept]
        exact h.cons
      | true =>
        rcases rest with - | ⟨b, rest⟩
        · -- the last entry is erased
          have hend : ¬ pre.length + 1 < s.activeProducers.length := by simp [hlist]
          rw [if_pos rfl, if_neg hend]
          rw [Option.elim, sweep_of_not_locks rfl, swept, if_pos ha]
          rfl
        · have hin : pre.length + 1 < s.activeProducers.length := by
            simp only [hlist, List.length_append, List.length_cons]
            omega
          have h := ih
            { s with
              activeProducers := s.activeProducers.eraseIdx pre.length
              gc := .scanning (pre.length + 1) }
            (pre ++ [b]) rest (by simp) (by simpa using herase)
            (by rw [List.length_cons] at hn; omega)
          rw [if_pos rfl, if_pos hin, swept, if_pos ha]
          exact h.cons

/-! ## 3. What a pass is for -/

/-- **A pass removes exactly the collectible entries, keeps all others in order and ends at the end
of the list** if and only if every collectible entry has one behind it that is not collectible. -/
theorem pass_exact_iff (s : State Thread T) :
    ((pass s).gc = .waiting ∧
      (pass s).activeProducers = s.activeProducers.filter fun p => !s.collectible p) ↔
        Spaced s.collectible s.activeProducers = true := by
  have h := sweep_ends (s.activeProducers.length + 1) { s with gc := .scanning 0 } []
    s.activeProducers rfl rfl (Nat.lt_succ_self _)
  rw [← swept_eq_filter_iff]
  change Ends [] (pass s) (swept s.collectible s.activeProducers) at h
  cases hswept : swept s.collectible s.activeProducers with
  | none =>
    rw [hswept] at h
    refine iff_of_false (fun hw => ?_) nofun
    exact absurd (h.symm.trans hw.1) nofun
  | some l =>
    rw [hswept] at h
    rw [h.2, List.nil_append, Option.some_inj]
    exact and_iff_right h.1

/-- Two producers that are gone: the second stays on the list.  One: the iterator goes behind the
end. -/
theorem pass_skips_and_overruns :
    let gone : State Nat Nat := { State.init with info := fun _ => { active := false } }
    (pass { gone with activeProducers := [⟨1, 0⟩, ⟨2, 0⟩] }).activeProducers = [⟨2, 0⟩] ∧
      (pass { gone with activeProducers := [⟨1, 0⟩] }).gc = .pastEnd := by
  exact ⟨rfl, rfl⟩

end FalconFS.ConcurrentQueue
