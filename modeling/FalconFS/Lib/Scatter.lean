/-
# Working through an array of pointers

A routine that is handed an array of pointers may sort the pointers before it works through them.
It reads its inputs in the order of the pointers (`gather`) and leaves each result at the pointer
that it was computed for (`scatter`).  The records themselves stay where they are, so whoever
reads them in their own order finds each result in its own place, whatever the sort has done.
-/
import Mathlib.Data.List.Perm.Basic
import Mathlib.Data.List.Range

namespace Scatter

open List

variable {α β : Type}

/-- What a pass over the pointers reads. -/
def gather (xs : List α) (ptrs : List Nat) : List α := ptrs.filterMap (xs[·]?)

/-- What the records are after a pass over the pointers has left its results. -/
def scatter : List β → List Nat → List β → List β
  | slots, [], _ => slots
  | slots, _ :: _, [] => slots
  | slots, p :: ptrs, v :: vals => scatter (slots.set p v) ptrs vals

@[simp] theorem length_scatter (slots : List β) (ptrs : List Nat) (vals : List β) :
    (scatter slots ptrs vals).length = slots.length := by
  induction ptrs generalizing slots vals with
  | nil => rw [scatter]
  | cons p ptrs ih =>
    cases vals with
    | nil => rfl
    | cons v vals => rw [scatter, ih, length_set]

variable {xs : List α} {ptrs : List Nat} {slots vals : List β} {p : Nat}

theorem getElem?_gather (hin : ∀ p ∈ ptrs, p < xs.length) (i : Nat) :
    (gather xs ptrs)[i]? = ptrs[i]?.bind (xs[·]?) := by
  induction ptrs generalizing i with
  | nil => rfl
  | cons p ptrs ih =>
    have hp : p < xs.length := hin p (mem_cons_self ..)
    have ih := ih fun q hq => hin q (mem_cons_of_mem _ hq)
    rw [gather, filterMap_cons_some (getElem?_eq_getElem hp)]
    cases i with
    | zero => simp [hp]
    | succ i => exact ih i

theorem length_gather (hin : ∀ p ∈ ptrs, p < xs.length) :
    (gather xs ptrs).length = ptrs.length := by
  rw [gather, length_filterMap_eq_countP, countP_eq_length]
  simpa using hin

/-- A pointer that does not come up again keeps what is there. -/
theorem getElem?_scatter_of_notMem (hp : p ∉ ptrs) (vals : List β) :
    (scatter slots ptrs vals)[p]? = slots[p]? := by
  induction ptrs generalizing slots vals with
  | nil => rw [scatter]
  | cons q ptrs ih =>
    cases vals with
    | nil => rfl
    | cons v vals =>
      obtain ⟨hne, hp⟩ := not_or.mp (mt mem_cons.mpr hp)
      rw [scatter, ih hp, getElem?_set_ne (Ne.symm hne)]

/-- **A result is found at the pointer it was computed for.** -/
theorem getElem?_scatter (hnd : ptrs.Nodup) {i : Nat} {v : β} (hp : ptrs[i]? = some p)
    (hv : vals[i]? = some v) (hin : p < slots.length) : (scatter slots ptrs vals)[p]? = some v := by
  induction ptrs generalizing slots vals i with
  | nil => cases hp
  | cons q ptrs ih =>
    cases vals with
    | nil => cases hv
    | cons w vals =>
      obtain ⟨hq, hnd⟩ := nodup_cons.mp hnd
      cases i with
      | zero =>
        cases hp
        cases hv
        rw [scatter, getElem?_scatter_of_notMem hq, getElem?_set_self hin]
      | succ i => exact ih hnd hp hv (by rwa [length_set])

/-- **Any order of the pointers.**  When the pointers are the positions in some order, every
record has the result of its own input. -/
theorem scatter_of_perm (slots : List β) (hperm : ptrs.Perm (List.range xs.length))
    (hvals : vals.length = xs.length) (hslots : slots.length = xs.length) (hp : p < xs.length) :
    ∃ (i : Nat) (v : β), ptrs[i]? = some p ∧ (gather xs ptrs)[i]? = xs[p]? ∧ vals[i]? = some v ∧
      (scatter slots ptrs vals)[p]? = some v := by
  have hmem : p ∈ ptrs := hperm.mem_iff.mpr (mem_range.mpr hp)
  obtain ⟨i, hi, hget⟩ := getElem_of_mem hmem
  have hi' : i < vals.length := by
    have hlen := hperm.length_eq
    rw [length_range] at hlen
    omega
  have hptr : ptrs[i]? = some p := by rw [getElem?_eq_getElem hi, hget]
  have hval : vals[i]? = some vals[i] := getElem?_eq_getElem hi'
  have hin : ∀ q ∈ ptrs, q < xs.length := fun q hq => mem_range.mp (hperm.mem_iff.mp hq)
  have hnd : ptrs.Nodup := hperm.nodup_iff.mpr nodup_range
  refine ⟨i, vals[i], hptr, ?_, hval, getElem?_scatter hnd hptr hval (by omega)⟩
  rw [getElem?_gather hin, hptr, Option.bind_some]

end Scatter
