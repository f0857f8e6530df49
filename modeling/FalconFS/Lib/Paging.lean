/-
# Reading an ordered collection in pages

A reader goes through an ordered collection in pieces while others change it.  `Covers A F out`
says what it has so far: `A` is where it started, `F` what is still in front of it, and `out` the
positions it has returned, which are in order, lie between the two, and miss none that was there
all the time.

Pieces join (`Covers.append`), and a piece may be cut behind any position it has returned, which
then is the cursor of the next page (`Covers.cut`).  Of a collection that does not change every
page is the next part (`Covers.fixed`).
-/
import Mathlib.Order.Lattice
import Mathlib.Data.List.Pairwise

namespace Paging

open List

variable {P : Type} [LinearOrder P]

/-- `valid` are the positions that may be returned at all, `stable` those that are there all the
time. -/
structure Covers (valid stable : P → Prop) (A F : P → Prop) (out : List P) : Prop where
  sorted : out.Pairwise (· < ·)
  mem : ∀ p ∈ out, A p ∧ ¬F p ∧ valid p
  complete : ∀ p, stable p → A p → ¬F p → p ∈ out
  ahead : ∀ p, F p → A p
  upward : ∀ p q, F p → p ≤ q → F q

namespace Covers

variable {valid stable A F G : P → Prop} {out out' : List P}

theorem nil (hup : ∀ p q, A p → p ≤ q → A q) : Covers valid stable A A [] where
  sorted := List.Pairwise.nil
  mem _ h := nomatch h
  complete _ _ hA hF := absurd hA hF
  ahead _ h := h
  upward := hup

/-- **Two pieces, one after the other.** -/
theorem append (h : Covers valid stable A F out) (h' : Covers valid stable F G out') :
    Covers valid stable A G (out ++ out') where
  sorted := by
    refine pairwise_append.mpr ⟨h.sorted, h'.sorted, ?_⟩
    intro p hp q hq
    by_contra hle
    exact (h.mem p hp).2.1 (h.upward q p (h'.mem q hq).1 (not_lt.mp hle))
  mem := by
    intro p hp
    rcases mem_append.mp hp with hp | hp
    · obtain ⟨hA, hF, hv⟩ := h.mem p hp
      exact ⟨hA, fun hG => hF (h'.ahead p hG), hv⟩
    · obtain ⟨hF, hG, hv⟩ := h'.mem p hp
      exact ⟨h.ahead p hF, hG, hv⟩
  complete := by
    intro p hs hA hG
    by_cases hF : F p
    · exact mem_append_right _ (h'.complete p hs hF hG)
    · exact mem_append_left _ (h.complete p hs hA hF)
  ahead p hG := h.ahead p (h'.ahead p hG)
  upward := h'.upward

/-- **A piece that stops early** has everything up to the last position it returned. -/
theorem cut (h : Covers valid stable A F out) (hup : ∀ p q, A p → p ≤ q → A q)
    (pre : List P) (last : P) (post : List P) (hout : out = pre ++ last :: post) :
    Covers valid stable A (fun p => last < p) (pre ++ [last]) := by
  have hsorted := h.sorted
  rw [hout] at hsorted
  obtain ⟨hpre, hpost, hcross⟩ := pairwise_append.mp hsorted
  have hlast := h.mem last (by simp [hout])
  refine ⟨?_, ?_, ?_, fun p hp => hup last p hlast.1 hp.le, fun p q hp hpq => lt_of_lt_of_le hp hpq⟩
  · refine pairwise_append.mpr ⟨hpre, pairwise_singleton _ _, ?_⟩
    intro p hp q hq
    obtain rfl := mem_singleton.mp hq
    exact hcross p hp q mem_cons_self
  · intro p hp
    have hle : ¬last < p := by
      rcases mem_append.mp hp with hp | hp
      · exact not_lt.mpr (hcross p hp last mem_cons_self).le
      · exact not_lt.mpr (mem_singleton.mp hp).le
    have hmem : p ∈ out := by
      rw [hout]
      rcases mem_append.mp hp with hp | hp
      · exact mem_append_left _ hp
      · exact mem_append_right _ (mem_singleton.mp hp ▸ mem_cons_self)
    exact ⟨(h.mem p hmem).1, hle, (h.mem p hmem).2.2⟩
  · intro p hs hA hF
    have hle : p ≤ last := not_lt.mp hF
    have hnot : ¬F p := fun hFp => hlast.2.1 (h.upward p last hFp hle)
    have hmem := h.complete p hs hA hnot
    rw [hout] at hmem
    rcases mem_append.mp hmem with hmem | hmem
    · exact mem_append_left _ hmem
    · rcases mem_cons.mp hmem with rfl | hmem
      · exact mem_append_right _ mem_cons_self
      · exact absurd ((pairwise_cons.mp hpost).1 p hmem) (not_lt.mpr hle)

end Covers

/-! ## A collection that does not change -/

theorem isPrefix_of_sorted {all out : List P} (hall : all.Pairwise (· < ·))
    (hout : out.Pairwise (· < ·)) (hmem : ∀ p ∈ out, p ∈ all)
    (hdown : ∀ p ∈ all, ∀ q ∈ out, p < q → p ∈ out) : out <+: all := by
  induction all generalizing out with
  | nil =>
    have hnil : out = [] := eq_nil_iff_forall_not_mem.mpr fun p hp => (nomatch hmem p hp)
    exact hnil ▸ nil_prefix
  | cons p all ih =>
    match out with
    | [] => exact nil_prefix
    | q :: out =>
      obtain ⟨hp, htail⟩ := pairwise_cons.mp hall
      obtain ⟨hq, houtTail⟩ := pairwise_cons.mp hout
      -- the first of all is not behind the first that is returned
      obtain rfl : q = p := by
        rcases mem_cons.mp (hmem q mem_cons_self) with heq | hin
        · exact heq
        · have hlt := hp q hin
          rcases mem_cons.mp (hdown p mem_cons_self q mem_cons_self hlt) with heq | hin'
          · exact heq.symm
          · exact absurd (hq p hin') hlt.asymm
      refine cons_prefix_cons.mpr ⟨rfl, ih htail houtTail (fun r hr => ?_) fun r hr s hs hlt => ?_⟩
      · rcases mem_cons.mp (hmem r (mem_cons_of_mem _ hr)) with heq | hin
        · exact absurd (hq r hr) (heq ▸ lt_irrefl _)
        · exact hin
      · rcases mem_cons.mp (hdown r (mem_cons_of_mem _ hr) s (mem_cons_of_mem _ hs) hlt)
          with heq | hin
        · exact absurd (hp r hr) (heq ▸ lt_irrefl _)
        · exact hin

/-- The first `n` positions are behind, the others in front. -/
def Splits (A : P → Prop) (all : List P) (n : Nat) : Prop :=
  (∀ p ∈ all.take n, ¬A p) ∧ ∀ p ∈ all.drop n, A p

/-- **A page of a collection that does not change** is the next part of it. -/
theorem Covers.fixed {valid stable A F : P → Prop} {out all : List P} {n : Nat}
    (h : Covers valid stable A F out) (hall : all.Pairwise (· < ·))
    (hvalid : ∀ p, valid p → p ∈ all) (hstable : ∀ p ∈ all, stable p) (hA : Splits A all n) :
    out = (all.drop n).take out.length ∧ Splits F all (n + out.length) := by
  have hdrop : ∀ p ∈ all, A p → p ∈ all.drop n := by
    intro p hp hAp
    rw [← take_append_drop n all] at hp
    rcases mem_append.mp hp with htake | hdrop
    · exact absurd hAp (hA.1 p htake)
    · exact hdrop
  have hprefix : out <+: all.drop n := by
    refine isPrefix_of_sorted (hall.sublist (drop_sublist n all)) h.sorted ?_ ?_
    · intro p hp
      obtain ⟨hAp, -, hv⟩ := h.mem p hp
      exact hdrop p (hvalid p hv) hAp
    · intro p hp q hq hlt
      refine h.complete p (hstable p (mem_of_mem_drop hp)) (hA.2 p hp) fun hF => ?_
      exact (h.mem q hq).2.1 (h.upward p q hF hlt.le)
  have hout : out = (all.drop n).take out.length := prefix_iff_eq_take.mp hprefix
  refine ⟨hout, fun p hp hF => ?_, fun p hp => ?_⟩
  · rw [take_add, ← hout] at hp
    rcases mem_append.mp hp with htake | hmem
    · exact hA.1 p htake (h.ahead p hF)
    · exact (h.mem p hmem).2.1 hF
  · by_contra hF
    have hp' : p ∈ (all.drop n).drop out.length := by rwa [drop_drop]
    have hmem := h.complete p (hstable p (mem_of_mem_drop hp))
      (hA.2 p (mem_of_mem_drop hp')) hF
    -- it would stand on both sides of the cut
    have hnd := (hall.sublist (drop_sublist n all)).imp (S := (· ≠ ·)) ne_of_lt
    rw [hout] at hmem
    exact absurd rfl ((pairwise_append.mp
      ((take_append_drop out.length (all.drop n)).symm ▸ hnd)).2.2 p hmem p hp')

end Paging
