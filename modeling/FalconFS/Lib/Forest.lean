/-
# Trees kept in a table

A table `T : K → Option I` describes a tree when a row `T k = some p` stands for the node `p` below
the node `up k`, which the key names: file systems, process tables and message threads are kept like
this.  Nothing in the table itself says that the rows hang together, so `IsTree` does: every node
has one row, none of them is the root, and from every row the way up ends at the root.

What such tables are changed by are three updates: a new leaf (`IsTree.insert`), the removal of a
leaf (`IsTree.erase`), and the move of a whole subtree, by one row, to a place that is not below it
(`IsTree.move`).
-/
import Mathlib.Logic.Function.Basic
import Mathlib.Logic.Relation

namespace Forest

open Function

variable {K I : Type} {up : K → I} {root : I} {T T' : K → Option I}

/-! ## 1. The way up -/

/-- From the node `p` the way up ends at the root. -/
inductive Rooted (up : K → I) (root : I) (T : K → Option I) : I → Prop
  | root : Rooted up root T root
  | step {k : K} {p : I} (hk : T k = some p) (hup : Rooted up root T (up k)) : Rooted up root T p

/-- From the row `k` the way up, row by row, ends at the row `top`. -/
inductive Climbs (up : K → I) (T : K → Option I) (top : K) : K → Prop
  | top {p : I} (hk : T top = some p) : Climbs up T top top
  | step {k k' : K} (hk : T k' = some (up k)) (hup : Climbs up T top k') : Climbs up T top k

/-- `p` is the node directly above `q`. -/
def Above (up : K → I) (T : K → Option I) (p q : I) : Prop := ∃ k, T k = some q ∧ up k = p

structure IsTree (up : K → I) (root : I) (T : K → Option I) : Prop where
  once : ∀ k k' p, T k = some p → T k' = some p → k = k'
  proper : ∀ k, T k ≠ some root
  rooted : ∀ k p, T k = some p → Rooted up root T (up k)

theorem Rooted.mono {p : I} (h : Rooted up root T p) (hT : ∀ k q, T k = some q → T' k = some q) :
    Rooted up root T' p := by
  induction h with
  | root => exact .root
  | step hk _ ih => exact .step (hT _ _ hk) ih

/-- Only the root and the nodes of the table have a way up. -/
theorem Rooted.exists {p : I} (h : Rooted up root T p) : p = root ∨ ∃ k, T k = some p := by
  cases h with
  | root => exact .inl rfl
  | @step k _ hk _ => exact .inr ⟨k, hk⟩

section Tree

variable (h : IsTree up root T)
include h

theorem IsTree.rooted_of_exists {p : I} (hp : p = root ∨ ∃ k, T k = some p) :
    Rooted up root T p := by
  rcases hp with rfl | ⟨k, hk⟩
  · exact .root
  · exact .step hk (h.rooted k p hk)

theorem IsTree.parent {k : K} {p : I} (hk : T k = some p) :
    up k = root ∨ ∃ k', T k' = some (up k) :=
  (h.rooted k p hk).exists

/-- Where one row only is directly below the root, every way up ends at that row. -/
theorem IsTree.climbs {top : K} (htop : ∀ k p, T k = some p → up k = root → k = top) {k : K}
    {p : I} (hk : T k = some p) : Climbs up T top k := by
  have hway : ∀ q, Rooted up root T q → ∀ k p, T k = some p → up k = q → Climbs up T top k := by
    intro q hq
    induction hq with
    | root =>
      intro k p hk hup
      obtain rfl := htop k p hk hup
      exact .top hk
    | step hk' _ ih =>
      rintro k p hk rfl
      exact .step hk' (ih _ _ hk' rfl)
  exact hway _ (h.rooted k p hk) k p hk rfl

/-- **There is no cycle.**  The node above another one is unique, so a cycle through `p` leads along
the way up from `p`, and the root is on no cycle. -/
theorem IsTree.acyclic (p : I) : ¬ Relation.TransGen (Above up T) p p := by
  have hroot : ∀ q, Rooted up root T q → ¬ Relation.TransGen (Above up T) q q := by
    intro q hq
    induction hq with
    | root =>
      intro hc
      obtain ⟨_, _, k, hk, _⟩ := Relation.TransGen.tail'_iff.mp hc
      exact h.proper k hk
    | @step k q hk _ ih =>
      intro hc
      obtain ⟨a, hqa, k', hk', ha⟩ := Relation.TransGen.tail'_iff.mp hc
      obtain rfl : k' = k := h.once k' k q hk' hk
      refine ih ?_
      rw [ha]
      exact Relation.TransGen.head' ⟨k', hk', ha⟩ hqa
  intro hc
  obtain ⟨_, _, k, hk, _⟩ := Relation.TransGen.tail'_iff.mp hc
  exact hroot p (.step hk (h.rooted k p hk)) hc

/-- No node is directly above itself. -/
theorem IsTree.up_ne {k : K} {p : I} (hk : T k = some p) : up k ≠ p := fun hup =>
  h.acyclic p (.single ⟨k, hk, hup⟩)

end Tree

/-! ## 2. Updates -/

variable [DecidableEq K]

variable {k k' : K} {p : I} {v : Option I}

theorem update_of_eq_some (hk : k' ≠ k) (h : T k' = some p) :
    update T k v k' = some p := by rwa [update_of_ne hk]

theorem of_update_eq_some (h : update T k v k' = some p) :
    k' = k ∧ v = some p ∨ k' ≠ k ∧ T k' = some p := by
  by_cases hk : k' = k
  · subst hk
    rw [update_self] at h
    exact .inl ⟨rfl, h⟩
  · rw [update_of_ne hk] at h
    exact .inr ⟨hk, h⟩

/-- A new leaf. -/
theorem IsTree.insert (h : IsTree up root T) (hk : T k = none) (hnew : ∀ k', T k' ≠ some p)
    (hp : p ≠ root) (hup : Rooted up root T (up k)) : IsTree up root (update T k (some p)) := by
  have hgrow : ∀ k' q, T k' = some q → update T k (some p) k' = some q := by
    intro k' q hq
    refine update_of_eq_some (fun hkk => ?_) hq
    rw [hkk, hk] at hq
    cases hq
  constructor
  · intro k₁ k₂ q h₁ h₂
    obtain ⟨hk₁, hv₁⟩ | ⟨_, ho₁⟩ := of_update_eq_some h₁ <;>
      obtain ⟨hk₂, hv₂⟩ | ⟨_, ho₂⟩ := of_update_eq_some h₂
    · exact hk₁.trans hk₂.symm
    · exact absurd (hv₁ ▸ ho₂) (hnew k₂)
    · exact absurd (hv₂ ▸ ho₁) (hnew k₁)
    · exact h.once k₁ k₂ q ho₁ ho₂
  · intro k' hk'
    obtain ⟨_, hv⟩ | ⟨_, hk'⟩ := of_update_eq_some hk'
    · exact hp (Option.some.inj hv)
    · exact h.proper k' hk'
  · intro k' q hk'
    obtain ⟨rfl, _⟩ | ⟨_, hk'⟩ := of_update_eq_some hk'
    · exact hup.mono hgrow
    · exact (h.rooted k' q hk').mono hgrow

/-- The removal of a leaf. -/
theorem IsTree.erase (h : IsTree up root T) (hk : T k = some p)
    (hleaf : ∀ k' q, T k' = some q → up k' ≠ p) : IsTree up root (update T k none) := by
  have hold : ∀ k' q, update T k none k' = some q → T k' = some q := by
    intro k' q hk'
    obtain ⟨_, hv⟩ | ⟨_, hk'⟩ := of_update_eq_some hk'
    · cases hv
    · exact hk'
  -- the way up from a node other than `p` never comes to `p`
  have hway : ∀ q, Rooted up root T q → q ≠ p → Rooted up root (update T k none) q := by
    intro q hq
    induction hq with
    | root => exact fun _ => .root
    | @step k' q hk' _ ih =>
      intro hne
      have hkk : k' ≠ k := by
        rintro rfl
        exact hne (Option.some.inj (hk'.symm.trans hk))
      exact .step (update_of_eq_some hkk hk') (ih (hleaf k' q hk'))
  constructor
  · exact fun k₁ k₂ q h₁ h₂ => h.once k₁ k₂ q (hold _ _ h₁) (hold _ _ h₂)
  · exact fun k' hk' => h.proper k' (hold _ _ hk')
  · intro k' q hk'
    have hk' := hold _ _ hk'
    exact hway _ (h.rooted k' q hk') (hleaf k' q hk')

/-- **The move of a subtree**, to a place from which the way up does not need the row that is
moved. -/
theorem IsTree.move (h : IsTree up root T) {src dst : K} (hsrc : T src = some p)
    (hdst : T dst = none) (hup : Rooted up root (update T src none) (up dst)) :
    IsTree up root (update (update T src none) dst (some p)) := by
  have hold : ∀ k q, update (update T src none) dst (some p) k = some q →
      k = dst ∧ q = p ∨ k ≠ src ∧ T k = some q := by
    intro k q hk
    obtain ⟨rfl, hv⟩ | ⟨_, hk⟩ := of_update_eq_some hk
    · exact .inl ⟨rfl, (Option.some.inj hv).symm⟩
    · obtain ⟨_, hv⟩ | hk := of_update_eq_some hk
      · cases hv
      · exact .inr hk
  have hnew : Rooted up root (update (update T src none) dst (some p)) (up dst) := by
    refine hup.mono fun k q hk => update_of_eq_some ?_ hk
    rintro rfl
    obtain ⟨_, hv⟩ | ⟨_, hk⟩ := of_update_eq_some hk
    · cases hv
    · rw [hdst] at hk
      cases hk
  -- a way up that went through the old row goes through the new one
  have hway : ∀ q, Rooted up root T q →
      Rooted up root (update (update T src none) dst (some p)) q := by
    intro q hq
    induction hq with
    | root => exact .root
    | @step k q hk _ ih =>
      by_cases hks : k = src
      · subst hks
        obtain rfl : q = p := Option.some.inj (hk.symm.trans hsrc)
        exact .step (update_self ..) hnew
      · have hkd : k ≠ dst := by
          rintro rfl
          rw [hdst] at hk
          cases hk
        exact .step (update_of_eq_some hkd (update_of_eq_some hks hk)) ih
  constructor
  · intro k₁ k₂ q h₁ h₂
    obtain ⟨hk₁, hq₁⟩ | ⟨hs₁, ho₁⟩ := hold _ _ h₁ <;>
      obtain ⟨hk₂, hq₂⟩ | ⟨hs₂, ho₂⟩ := hold _ _ h₂
    · exact hk₁.trans hk₂.symm
    · exact absurd (h.once k₂ src p (hq₁ ▸ ho₂) hsrc) hs₂
    · exact absurd (h.once k₁ src p (hq₂ ▸ ho₁) hsrc) hs₁
    · exact h.once k₁ k₂ q ho₁ ho₂
  · intro k hk
    obtain ⟨_, rfl⟩ | ⟨_, hk⟩ := hold _ _ hk
    · exact h.proper src hsrc
    · exact h.proper k hk
  · intro k q hk
    obtain ⟨rfl, _⟩ | ⟨_, hk⟩ := hold _ _ hk
    · exact hnew
    · exact hway _ (h.rooted k q hk)

end Forest
