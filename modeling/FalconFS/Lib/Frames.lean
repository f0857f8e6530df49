/-
# Length-prefixed frames

A sequence of blocks is laid out in one list, each block behind a header that says how long it is.
`Codec` is what is needed of the header: a fixed width, and that a length below the limit can be
read back.  The lemmas say where the `i`-th block is, and what a reader finds there; they hold
with any bytes behind the last frame, so that a reader may be handed a larger buffer.
-/
import Mathlib.Data.List.Basic

/-- A header format. -/
structure Codec (α : Type) where
  width : Nat
  limit : Nat
  enc : Nat → List α
  dec : List α → Nat
  length_enc : ∀ n, (enc n).length = width
  dec_enc : ∀ n, n < limit → dec (enc n) = n

namespace Frames

open List

variable {α : Type} (c : Codec α)

def frame (b : List α) : List α := c.enc b.length ++ b

def frames (bs : List (List α)) : List α := bs.flatMap (frame c)

/-- Where the `i`-th frame begins. -/
def offset (bs : List (List α)) (i : Nat) : Nat := (frames c (bs.take i)).length

@[simp] theorem length_frame (b : List α) : (frame c b).length = c.width + b.length := by
  simp [frame, c.length_enc]

@[simp] theorem frames_nil : frames c [] = [] := rfl

@[simp] theorem frames_cons (b : List α) (bs : List (List α)) :
    frames c (b :: bs) = frame c b ++ frames c bs := rfl

theorem frames_append (bs bs' : List (List α)) :
    frames c (bs ++ bs') = frames c bs ++ frames c bs' := flatMap_append

@[simp] theorem offset_zero (bs : List (List α)) : offset c bs 0 = 0 := rfl

theorem offset_length (bs : List (List α)) : offset c bs bs.length = (frames c bs).length := by
  simp [offset]

theorem frames_split (bs : List (List α)) (i : Nat) :
    frames c bs = frames c (bs.take i) ++ frames c (bs.drop i) := by
  rw [← frames_append, take_append_drop]

theorem offset_le (bs : List (List α)) (i : Nat) : offset c bs i ≤ (frames c bs).length := by
  rw [frames_split c bs i, length_append]
  exact Nat.le_add_right _ _

variable {bs : List (List α)} {i : Nat}

theorem offset_succ (hi : i < bs.length) :
    offset c bs (i + 1) = offset c bs i + c.width + (bs[i]).length := by
  rw [offset, take_succ_eq_append_getElem hi, frames_append]
  simp [offset, Nat.add_assoc]

/-- What a reader finds behind the first `i` frames. -/
theorem drop_offset (bs : List (List α)) (i : Nat) (rest : List α) :
    (frames c bs ++ rest).drop (offset c bs i) = frames c (bs.drop i) ++ rest := by
  rw [frames_split c bs i, append_assoc, offset, drop_left]

theorem drop_offset_of_lt (hi : i < bs.length) (rest : List α) :
    (frames c bs ++ rest).drop (offset c bs i) =
      c.enc (bs[i]).length ++ (bs[i] ++ (frames c (bs.drop (i + 1)) ++ rest)) := by
  rw [drop_offset, drop_eq_getElem_cons hi, frames_cons, frame]
  simp only [append_assoc]

/-- **The header of the `i`-th frame.** -/
theorem take_header (hi : i < bs.length) (rest : List α) :
    ((frames c bs ++ rest).drop (offset c bs i)).take c.width = c.enc (bs[i]).length := by
  rw [drop_offset_of_lt c hi, take_left' (c.length_enc _)]

/-- **The block of the `i`-th frame.** -/
theorem take_block (hi : i < bs.length) (rest : List α) :
    ((frames c bs ++ rest).drop (offset c bs i + c.width)).take (bs[i]).length = bs[i] := by
  rw [← drop_drop, drop_offset_of_lt c hi, drop_left' (c.length_enc _), take_left]

theorem offset_add (bs : List (List α)) (i n : Nat) :
    offset c bs (i + n) = offset c bs i + (frames c ((bs.drop i).take n)).length := by
  rw [offset, take_add, frames_append, length_append, offset]

/-- **`n` frames cut out of the middle.** -/
theorem take_frames (bs : List (List α)) (i n : Nat) (rest : List α) :
    ((frames c bs ++ rest).drop (offset c bs i)).take (offset c bs (i + n) - offset c bs i) =
      frames c ((bs.drop i).take n) := by
  rw [drop_offset, offset_add, Nat.add_sub_cancel_left, frames_split c (bs.drop i) n,
    append_assoc, take_left]

end Frames
