/-
# Writing into a sequence

`patch z f off bs` is the sequence `f` with `bs` written at position `off`, as a write into a file
does it: what was there is overwritten, a gap behind the end is filled with `z`, and a write of
nothing changes nothing.

Two writes of which the second begins where the first one ends are one write (`patch_append`), and
a write that is repeated is done once (`patch_patch_self`).
-/
import Mathlib.Data.List.Basic

namespace Sequence

open List

variable {α : Type}

section

variable (z : α) (f : List α) (off : Nat)

def patch (bs : List α) : List α :=
  if bs = [] then f
  else (f ++ List.replicate (off - f.length) z).take off ++ bs ++ f.drop (off + bs.length)

@[simp] theorem patch_nil : patch z f off [] = f := if_pos rfl

/-- The sequence after a write, position by position. -/
theorem getElem?_patch {bs : List α} (hbs : bs ≠ []) (i : Nat) : (patch z f off bs)[i]? =
      if i < off then some (f[i]?.getD z)
      else if i < off + bs.length then bs[i - off]?
      else f[i]? := by
  have hlen : ((f ++ replicate (off - f.length) z).take off).length = off := by
    simp only [length_take, length_append, length_replicate]
    omega
  rw [patch, if_neg hbs, append_assoc]
  by_cases hi : i < off
  · rw [if_pos hi, getElem?_append_left (by omega), getElem?_take_of_lt hi]
    by_cases hf : i < f.length
    · rw [getElem?_append_left hf, getElem?_eq_getElem hf]
      rfl
    · rw [getElem?_append_right (by omega), getElem?_replicate, if_pos (by omega),
        getElem?_eq_none (by omega)]
      rfl
  · rw [if_neg hi, getElem?_append_right (by omega), hlen]
    by_cases hb : i < off + bs.length
    · rw [if_pos hb, getElem?_append_left (by omega)]
    · rw [if_neg hb, getElem?_append_right (by omega), getElem?_drop]
      congr 1
      omega

/-- **Neighbouring writes are one write.** -/
theorem patch_append (as bs : List α) :
    patch z (patch z f off as) (off + as.length) bs = patch z f off (as ++ bs) := by
  by_cases ha : as = []
  · simp [ha]
  · by_cases hb : bs = []
    · simp [hb]
    · have hab : as ++ bs ≠ [] := by simp [ha]
      apply ext_getElem?
      intro i
      rw [getElem?_patch z _ _ hb, getElem?_patch z _ _ ha, getElem?_patch z _ _ hab,
        length_append]
      by_cases h₁ : i < off
      · rw [if_pos (by omega), if_pos h₁, if_pos h₁]
        rfl
      · rw [if_neg h₁, if_neg h₁]
        by_cases h₂ : i < off + as.length
        · rw [if_pos h₂, if_pos h₂, if_pos (by omega), getElem?_append_left (by omega),
            getElem?_eq_getElem (by omega)]
          rfl
        · rw [if_neg h₂, if_neg h₂, getElem?_append_right (by omega)]
          by_cases h₃ : i < off + as.length + bs.length
          · rw [if_pos h₃, if_pos (by omega)]
            congr 1
            omega
          · rw [if_neg h₃, if_neg (by omega)]

/-- A write that is repeated. -/
theorem patch_patch_self (bs : List α) : patch z (patch z f off bs) off bs = patch z f off bs := by
  by_cases hb : bs = []
  · simp [hb]
  · apply ext_getElem?
    intro i
    rw [getElem?_patch z _ _ hb, getElem?_patch z _ _ hb]
    by_cases h₁ : i < off
    · rw [if_pos h₁, if_pos h₁]
      rfl
    · rw [if_neg h₁, if_neg h₁]
      split
      · rfl
      · rfl

end

end Sequence
