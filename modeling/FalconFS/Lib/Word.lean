/-
# Fields of a machine word

A word that packs a few fields is read with masks and changed with `|`, `& ~`, `+` and `-`.  The
lemmas turn what the bit operations do into arithmetic on `toNat`, where the fields are summands.
-/
import Mathlib.Data.BitVec
import Mathlib.Data.Nat.Bitwise

namespace Word

variable {w k : Nat}

/-- A mask cuts a word into two summands. -/
theorem toNat_and_not_add_toNat_and (x m : BitVec w) :
    (x &&& ~~~m).toNat + (x &&& m).toNat = x.toNat := by
  have hdisj : (x &&& ~~~m) &&& (x &&& m) = 0#w := by
    ext i hi
    simp
    grind
  have hsum : (x &&& ~~~m) + (x &&& m) = x := by
    rw [BitVec.add_eq_or_of_and_eq_zero _ _ hdisj]
    ext i hi
    simp
    grind
  have hle : (x &&& ~~~m).toNat ≤ x.toNat := by
    rw [BitVec.toNat_and]
    exact Nat.and_le_left
  have hmod := congrArg BitVec.toNat hsum
  rw [BitVec.toNat_add] at hmod
  have hlt := (x &&& m).isLt
  -- a carry out of the word would make the sum smaller than its first summand
  rcases Nat.lt_or_ge ((x &&& ~~~m).toNat + (x &&& m).toNat) (2 ^ w) with hfits | hcarry
  · rwa [Nat.mod_eq_of_lt hfits] at hmod
  · rw [Nat.mod_eq_sub_mod hcarry, Nat.mod_eq_of_lt (by omega)] at hmod
    omega

/-- Setting bits, some of which may be set already. -/
theorem toNat_or (x m : BitVec w) : (x ||| m).toNat = (x &&& ~~~m).toNat + m.toNat := by
  have hcut := toNat_and_not_add_toNat_and (x ||| m) m
  have hrest : (x ||| m) &&& ~~~m = x &&& ~~~m := by
    ext i hi
    simp
    grind
  have hbits : (x ||| m) &&& m = m := by
    ext i hi
    simp
    grind
  rw [hrest, hbits] at hcut
  exact hcut.symm

theorem toNat_and_mask (x : BitVec w) (hk : k ≤ w) :
    (x &&& BitVec.ofNat w (2 ^ k - 1)).toNat = x.toNat % 2 ^ k := by
  have hlt : 2 ^ k - 1 < 2 ^ w :=
    (Nat.sub_lt (Nat.two_pow_pos k) one_pos).trans_le (Nat.pow_le_pow_right Nat.two_pos hk)
  rw [BitVec.toNat_and, BitVec.toNat_ofNat, Nat.mod_eq_of_lt hlt, Nat.and_two_pow_sub_one_eq_mod]

theorem toNat_and_bit (x : BitVec w) (hk : k < w) :
    (x &&& BitVec.twoPow w k).toNat = 2 ^ k * (x.toNat / 2 ^ k % 2) := by
  rw [BitVec.toNat_and, BitVec.toNat_twoPow, Nat.mod_eq_of_lt (Nat.pow_lt_pow_right (by decide) hk),
    Nat.and_two_pow, Nat.testBit_eq_decide_div_mod_eq]
  rcases Nat.mod_two_eq_zero_or_one (x.toNat / 2 ^ k) with h | h <;> simp [h]

end Word
