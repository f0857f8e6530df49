/-
# Who owns which cells

Owners take cells and give them back.  `Exact own used` says that the cells in use are the ones
some owner has, and that no cell has two owners.  The rules are the ways in which an allocator
changes hands: an owner that has nothing takes cells nobody uses, an owner gives up all it has, or
hands it to another.
-/
import Mathlib.Order.BooleanAlgebra.Set
import Mathlib.Logic.Function.Basic

namespace Ownership

open Function

variable {O C : Type}

structure Exact (own : O → Set C) (used : Set C) : Prop where
  used_iff : ∀ c, c ∈ used ↔ ∃ o, c ∈ own o
  apart : ∀ o o' c, c ∈ own o → c ∈ own o' → o = o'

namespace Exact

variable {own : O → Set C} {used : Set C}

theorem empty : Exact (fun _ : O => (∅ : Set C)) ∅ where
  used_iff c := by simp
  apart o o' c h := by simp at h

variable [DecidableEq O]

/-- An owner without cells takes cells that are not in use. -/
theorem acquire (h : Exact own used) {o : O} {cells : Set C} (hnone : own o = ∅)
    (hfree : ∀ c ∈ cells, c ∉ used) : Exact (update own o cells) (used ∪ cells) := by
  have hmem : ∀ p c, c ∈ update own o cells p ↔ p = o ∧ c ∈ cells ∨ c ∈ own p := by
    intro p c
    by_cases hp : p = o
    · subst hp
      simp [hnone]
    · simp [hp]
  constructor
  · intro c
    simp only [Set.mem_union, h.used_iff, hmem]
    constructor
    · rintro (⟨p, hp⟩ | hc)
      · exact ⟨p, Or.inr hp⟩
      · exact ⟨o, Or.inl ⟨rfl, hc⟩⟩
    · rintro ⟨p, ⟨-, hc⟩ | hp⟩
      · exact Or.inr hc
      · exact Or.inl ⟨p, hp⟩
  · intro p q c hp hq
    rcases (hmem p c).mp hp with ⟨hpo, hc⟩ | hp'
    · rcases (hmem q c).mp hq with ⟨hqo, -⟩ | hq'
      · rw [hpo, hqo]
      · exact absurd ((h.used_iff c).mpr ⟨q, hq'⟩) (hfree c hc)
    · rcases (hmem q c).mp hq with ⟨-, hc⟩ | hq'
      · exact absurd ((h.used_iff c).mpr ⟨p, hp'⟩) (hfree c hc)
      · exact h.apart p q c hp' hq'

/-- An owner gives up all it has. -/
theorem release (h : Exact own used) (o : O) : Exact (update own o ∅) (used \ own o) := by
  have hmem : ∀ p c, c ∈ update own o ∅ p ↔ p ≠ o ∧ c ∈ own p := by
    intro p c
    by_cases hp : p = o
    · subst hp
      simp
    · simp [hp]
  constructor
  · intro c
    simp only [Set.mem_sdiff, h.used_iff, hmem]
    constructor
    · rintro ⟨⟨p, hp⟩, hno⟩
      exact ⟨p, fun e => hno (e ▸ hp), hp⟩
    · rintro ⟨p, hne, hp⟩
      exact ⟨⟨p, hp⟩, fun ho => hne (h.apart p o c hp ho)⟩
  · intro p q c hp hq
    exact h.apart p q c ((hmem p c).mp hp).2 ((hmem q c).mp hq).2

/-- An owner hands what it has to one that has nothing. -/
theorem handOver (h : Exact own used) {o o' : O} (hne : o' ≠ o) (hnone : own o' = ∅) :
    Exact (update (update own o ∅) o' (own o)) used := by
  have hgone := h.release o
  have hnone' : update own o ∅ o' = ∅ := by rw [update_of_ne hne, hnone]
  have hnew := @acquire _ _ _ _ _ hgone o' (own o) hnone' (fun c hc hin => hin.2 hc)
  have hsub : own o ⊆ used := fun c hc => (h.used_iff c).mpr ⟨o, hc⟩
  rwa [Set.sdiff_union_of_subset hsub] at hnew

end Exact

end Ownership
