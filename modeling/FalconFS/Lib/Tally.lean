/-
# Counting over the parts of a system

A system is often a list of parts, each of which contributes a number, and one step changes one
part.  `tally` is the sum, and `exists_rest` splits it into one part and the rest, so that a step
is argued about with the rest as a constant.
-/
import Mathlib.Algebra.BigOperators.Group.List.Lemmas
import Mathlib.Algebra.GroupWithZero.Nat
import Mathlib.Data.List.Nodup

namespace Tally

variable {α : Type} (f : α → Nat)

def tally (xs : List α) : Nat := (xs.map f).sum

@[simp] theorem tally_nil : tally f [] = 0 := rfl

@[simp] theorem tally_cons (x : α) (xs : List α) : tally f (x :: xs) = f x + tally f xs := by
  simp [tally]

@[simp] theorem tally_append (xs ys : List α) : tally f (xs ++ ys) = tally f xs + tally f ys := by
  simp [tally]

@[simp] theorem tally_replicate (n : Nat) (x : α) : tally f (List.replicate n x) = n * f x := by
  simp [tally]

variable {xs : List α} {x : α}

/-- **One part and the rest.** -/
theorem exists_rest {i : Nat} (h : xs[i]? = some x) :
    ∃ rest, tally f xs = rest + f x ∧ ∀ y, tally f (xs.set i y) = rest + f y := by
  induction xs generalizing i with
  | nil => simp at h
  | cons z zs ih =>
    match i, h with
    | 0, h =>
      obtain rfl : z = x := by simpa using h
      exact ⟨tally f zs, by simp [Nat.add_comm], fun y => by simp [Nat.add_comm]⟩
    | i + 1, h =>
      obtain ⟨rest, hxs, hset⟩ := ih (by simpa using h)
      refine ⟨f z + rest, ?_, fun y => ?_⟩
      · rw [tally_cons, hxs, Nat.add_assoc]
      · rw [List.set_cons_succ, tally_cons, hset, Nat.add_assoc]

theorem tally_congr {g : α → Nat} (h : ∀ x ∈ xs, f x = g x) : tally f xs = tally g xs := by
  rw [tally, tally, List.map_congr_left h]

theorem tally_erase [DecidableEq α] (hx : x ∈ xs) : tally f (xs.erase x) + f x = tally f xs :=
  (Nat.add_comm _ _).trans (List.sum_map_erase f hx)

/-- The same, when it is the contribution of one part that changes. -/
theorem tally_update [DecidableEq α] (g : α → Nat) (hnodup : xs.Nodup) (hx : x ∈ xs)
    (h : ∀ y, y ≠ x → f y = g y) : ∃ rest, tally f xs = rest + f x ∧ tally g xs = rest + g x := by
  refine ⟨tally f (xs.erase x), (tally_erase f hx).symm, ?_⟩
  have hrest : tally f (xs.erase x) = tally g (xs.erase x) :=
    tally_congr f fun y hy => h y (hnodup.mem_erase_iff.mp hy).1
  rw [hrest, tally_erase g hx]

/-- No part contributes more than the sum. -/
theorem le_tally (h : x ∈ xs) : f x ≤ tally f xs := by
  induction xs with
  | nil => cases h
  | cons z zs ih =>
    rw [tally_cons]
    rcases List.mem_cons.mp h with rfl | h
    · exact Nat.le_add_right ..
    · exact Nat.le_trans (ih h) (Nat.le_add_left ..)

/-- The parts that contribute anything are not more than the sum. -/
theorem countP_le_tally (p : α → Bool) (hp : ∀ x, p x = true → 0 < f x) (xs : List α) :
    xs.countP p ≤ tally f xs := by
  induction xs with
  | nil => exact Nat.le_refl _
  | cons z zs ih =>
    rw [tally_cons, List.countP_cons]
    split
    · rename_i hz
      have := hp z hz
      omega
    · omega

end Tally
