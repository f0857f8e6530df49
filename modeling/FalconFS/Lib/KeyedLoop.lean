/-
# Loops over a keyed table that may stop early

A C loop `for (i = 0; i < n; ++i) { x = table[key(i)]; ...; if (...) return; }` visits one cell per
round, rewrites it and either goes on or leaves.  `run` is that loop over a table `κ → β`: the body
`f` gets the item and the old cell and gives the new cell and whether to go on.

Two facts cover every such loop:

* `run_forall`: what every visit keeps of its own cell holds of all cells afterwards, however far
  the loop came;
* `run_done` and `run_stopped`: with distinct keys, a loop that ran to its end has visited every
  item once, and one that stopped has visited a first part of the list and left the rest alone.
-/
import Mathlib.Logic.Function.Basic
import Mathlib.Data.List.Nodup

namespace KeyedLoop

open Function List

variable {α κ β : Type} [DecidableEq κ]

/-- Visit the items from left to right until one of them says stop. -/
def run (key : α → κ) (f : α → β → β × Bool) : List α → (κ → β) → (κ → β) × Bool
  | [], c => (c, true)
  | a :: as, c =>
    let r := f a (c (key a))
    if r.2 then run key f as (update c (key a) r.1)
    else (update c (key a) r.1, false)

variable (key : α → κ) (f : α → β → β × Bool)

/-- Cells that no item names are left alone. -/
theorem run_other : ∀ (as : List α) (c : κ → β) {k : κ}, k ∉ as.map key →
    (run key f as c).1 k = c k
  | [], _, _, _ => rfl
  | a :: as, c, k, hk => by
    simp only [map_cons, mem_cons, not_or] at hk
    simp only [run]
    split
    · rw [run_other as _ hk.2, update_of_ne hk.1]
    · exact update_of_ne hk.1 _ _

/-- **The invariant rule for loops.**  A property of single cells that every visit keeps holds of
every cell after the loop. -/
theorem run_forall {P : κ → β → Prop} : ∀ (as : List α) (c : κ → β),
    (∀ a ∈ as, ∀ b, P (key a) b → P (key a) (f a b).1) → (∀ k, P k (c k)) →
      ∀ k, P k ((run key f as c).1 k)
  | [], _, _, h => h
  | a :: as, c, hf, h => by
    have hupd : ∀ k, P k (update c (key a) (f a (c (key a))).1 k) := by
      intro k
      by_cases hk : k = key a
      · subst hk
        rw [update_self]
        exact hf a mem_cons_self _ (h _)
      · rw [update_of_ne hk]
        exact h k
    simp only [run]
    split
    · exact run_forall as _ (fun b hb => hf b (mem_cons_of_mem _ hb)) hupd
    · exact hupd

/-- A loop that ran to its end has visited every item, each in its old cell. -/
theorem run_done : ∀ (as : List α) (c : κ → β), (as.map key).Nodup →
    (run key f as c).2 = true →
      ∀ a ∈ as, (f a (c (key a))).2 = true ∧ (run key f as c).1 (key a) = (f a (c (key a))).1
  | [], _, _, _ => by simp
  | a :: as, c, hnd, h => by
    simp only [map_cons, nodup_cons] at hnd
    simp only [run] at h ⊢
    split at h
    · rename_i hgo
      rw [if_pos hgo]
      intro b hb
      rcases mem_cons.mp hb with rfl | hb
      · refine ⟨hgo, ?_⟩
        rw [run_other key f as _ hnd.1, update_self]
      · have hne : key b ≠ key a := fun he => hnd.1 (he ▸ mem_map_of_mem hb)
        have ih := run_done as _ hnd.2 h b hb
        rwa [update_of_ne hne] at ih
    · exact absurd h (by simp)

/-- A loop whose every visit goes on runs to its end. -/
theorem run_goes : ∀ (as : List α) (c : κ → β), (as.map key).Nodup →
    (∀ a ∈ as, (f a (c (key a))).2 = true) → (run key f as c).2 = true
  | [], _, _, _ => rfl
  | a :: as, c, hnd, h => by
    simp only [map_cons, nodup_cons] at hnd
    simp only [run]
    rw [if_pos (h a mem_cons_self)]
    refine run_goes as _ hnd.2 fun b hb => ?_
    have hne : key b ≠ key a := fun he => hnd.1 (he ▸ mem_map_of_mem hb)
    rw [update_of_ne hne]
    exact h b (mem_cons_of_mem _ hb)

/-- A loop that stopped did so at some item `a`: everything before it went on, `a` said stop, and
what comes after was not touched. -/
theorem run_stopped : ∀ (as : List α) (c : κ → β), (as.map key).Nodup →
    (run key f as c).2 = false →
      ∃ pre a post, as = pre ++ a :: post ∧ (f a (c (key a))).2 = false ∧
        (run key f as c).1 (key a) = (f a (c (key a))).1 ∧
        (∀ b ∈ pre, (f b (c (key b))).2 = true ∧
          (run key f as c).1 (key b) = (f b (c (key b))).1) ∧
        ∀ b ∈ post, (run key f as c).1 (key b) = c (key b)
  | [], _, _, h => by simp [run] at h
  | a :: as, c, hnd, h => by
    simp only [map_cons, nodup_cons] at hnd
    have hne : ∀ b ∈ as, key b ≠ key a := fun b hb he => hnd.1 (he ▸ mem_map_of_mem hb)
    simp only [run] at h ⊢
    split at h
    · rename_i hgo
      rw [if_pos hgo]
      obtain ⟨pre, x, post, rfl, hx, hxc, hpre, hpost⟩ := run_stopped as _ hnd.2 h
      have hxne : key x ≠ key a := hne x (by simp)
      rw [update_of_ne hxne] at hx hxc
      refine ⟨a :: pre, x, post, rfl, hx, hxc, fun b hb => ?_, fun b hb => ?_⟩
      · rcases mem_cons.mp hb with rfl | hb
        · exact ⟨hgo, by rw [run_other key f _ _ hnd.1, update_self]⟩
        · have := hpre b hb
          rwa [update_of_ne (hne b (by simp [hb]))] at this
      · have := hpost b hb
        rwa [update_of_ne (hne b (by simp [hb]))] at this
    · rename_i hstop
      rw [if_neg hstop]
      refine ⟨[], a, as, rfl, by simpa using hstop, update_self _ _ _, by simp, ?_⟩
      exact fun b hb => update_of_ne (hne b hb) _ _

/-- However far the loop came, an item's cell was visited once or not at all. -/
theorem run_visited {as : List α} (c : κ → β) (hnd : (as.map key).Nodup) {a : α} (ha : a ∈ as) :
    (run key f as c).1 (key a) = (f a (c (key a))).1 ∨ (run key f as c).1 (key a) = c (key a) := by
  cases hgo : (run key f as c).2 with
  | true => exact .inl (run_done key f as c hnd hgo a ha).2
  | false =>
    obtain ⟨pre, b, post, hsplit, -, hb, hpre, hpost⟩ := run_stopped key f as c hnd hgo
    rcases mem_append.mp (hsplit ▸ ha) with hin | hin
    · exact .inl (hpre a hin).2
    · rcases mem_cons.mp hin with rfl | hin
      · exact .inl hb
      · exact .inr (hpost a hin)

end KeyedLoop
