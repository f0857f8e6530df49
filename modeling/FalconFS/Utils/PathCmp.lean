/-
# The order of the paths of a batch

`pathcmp` of `utils/utils_standalone.c` compares two paths byte by byte, with the end of the string
below the slash and the slash below every other byte.  The batch handlers of `meta_handle.c` sort
their requests by it, through `pg_qsort_meta_process_info_by_path_cmp`, before they walk the paths
one after another: a directory then comes before everything below it, and its subtree is one
segment of the batch.

Ranking the slash below all other bytes turns `pathcmp` into the lexicographic order of the ranks,
and the laws of the order come from there.
-/
import FalconFS.Utils.PathParse
import Mathlib.Data.List.Lex

namespace FalconFS

open List

/-! ## 1. Strings and paths -/

/-- A C string, without its terminating zero. -/
abbrev CString := { s : List UInt8 // (0 : UInt8) ∉ s }

/-- An absolute path with non-empty components; the root has none. -/
structure AbsolutePath extends Path where
  absolute : toPath.isAbsolute = true
  noNul : (0 : UInt8) ∉ bytes
  nonempty : ∀ n ∈ toPath.names, n ≠ []

/-- `q` lies in the subtree that starts at `p`. -/
def Path.Within (p q : Path) : Prop := p.names <+: q.names

/-- `q` lies below `p`. -/
def Path.Below (p q : Path) : Prop := p.Within q ∧ p.names ≠ q.names

/-- The order in which `pg_qsort` leaves a batch. -/
def PathSorted (l : List AbsolutePath) : Prop :=
  l.Pairwise fun p q => pathcmp p.bytes q.bytes ≤ 0

/-! ## 2. `pathcmp` is a lexicographic order -/

/-- Where a byte stands in the order of `pathcmp`. -/
def pathRank (c : UInt8) : Nat := if c = slash then 0 else c.toNat

theorem pathRank_slash : pathRank slash = 0 := rfl

variable {c d : UInt8} {s t : List UInt8} {p q : AbsolutePath}

theorem pathRank_pos (h0 : c ≠ 0) (hc : c ≠ slash) : 0 < pathRank c := by
  rw [pathRank, if_neg hc]
  exact Nat.pos_of_ne_zero fun h => h0 (UInt8.toNat_inj.mp h)

theorem pathRank_of_ne (hc : c ≠ slash) : pathRank c = c.toNat := if_neg hc

theorem pathRank_inj (hc : c ≠ 0) (hd : d ≠ 0) (h : pathRank c = pathRank d) : c = d := by
  by_cases h₁ : c = slash
  · by_cases h₂ : d = slash
    · rw [h₁, h₂]
    · have := pathRank_pos hd h₂
      rw [← h, h₁, pathRank_slash] at this
      omega
  · by_cases h₂ : d = slash
    · have := pathRank_pos hc h₁
      rw [h, h₂, pathRank_slash] at this
      omega
    · rw [pathRank_of_ne h₁, pathRank_of_ne h₂] at h
      exact UInt8.toNat_inj.mp h

/-- The ranks of a string. -/
def pathRanks (s : List UInt8) : List Nat := s.map pathRank

theorem pathRanks_inj : ∀ {s t : List UInt8}, 0 ∉ s → 0 ∉ t → pathRanks s = pathRanks t → s = t
  | [], [], _, _, _ => rfl
  | [], _ :: _, _, _, h => by simp [pathRanks] at h
  | _ :: _, [], _, _, h => by simp [pathRanks] at h
  | c :: s, d :: t, hs, ht, h => by
    simp only [mem_cons, not_or] at hs ht
    simp only [pathRanks, map_cons, cons.injEq] at h
    have hcd : c = d := pathRank_inj (Ne.symm hs.1) (Ne.symm ht.1) h.1
    rw [hcd, pathRanks_inj hs.2 ht.2 h.2]

/-- **The sign of `pathcmp`** is that of the lexicographic comparison of the ranks. -/
theorem pathcmp_sign (hs : 0 ∉ s) (ht : 0 ∉ t) :
    (pathcmp s t < 0 ↔ pathRanks s < pathRanks t) ∧
      (0 < pathcmp s t ↔ pathRanks t < pathRanks s) := by
  induction s, t using pathcmp.induct with
  | case1 => simp [pathcmp, pathRanks]
  | case2 c s =>
    have hc : c ≠ 0 := fun h => ht (h ▸ mem_cons_self)
    have : 0 < c.toNat := Nat.pos_of_ne_zero fun h => hc (UInt8.toNat_inj.mp h)
    simp [pathcmp, pathRanks]
    omega
  | case3 c s => simp [pathcmp, pathRanks]
  | case4 s c t ih =>
    simp only [mem_cons, not_or] at hs ht
    rw [pathcmp, if_pos rfl]
    simpa [pathRanks] using ih hs.2 ht.2
  | case5 s c t hne =>
    simp only [mem_cons, not_or] at hs
    have := pathRank_pos (Ne.symm hs.1) hne
    simp [pathcmp, pathRanks, hne, pathRank_slash, this, this.ne', cons_lt_cons_iff]
  | case6 s c t hne hd =>
    simp only [mem_cons, not_or] at ht
    have := pathRank_pos (Ne.symm ht.1) hne
    simp [pathcmp, pathRanks, hne, hd, pathRank_slash, this, this.ne', cons_lt_cons_iff]
  | case7 c s d t hne hd hc =>
    have hn : c.toNat ≠ d.toNat := fun h => hne (UInt8.toNat_inj.mp h)
    simp only [pathcmp, if_neg hne, if_neg hd, if_neg hc, pathRanks, map_cons,
      cons_lt_cons_iff, pathRank_of_ne hc, pathRank_of_ne hd]
    omega

theorem pathcmp_eq_zero_iff (hs : 0 ∉ s) (ht : 0 ∉ t) : pathcmp s t = 0 ↔ s = t := by
  obtain ⟨hlt, hgt⟩ := pathcmp_sign hs ht
  constructor
  · intro h
    have h₁ : ¬ pathRanks s < pathRanks t := fun h' => by have := hlt.mpr h'; omega
    have h₂ : ¬ pathRanks t < pathRanks s := fun h' => by have := hgt.mpr h'; omega
    exact pathRanks_inj hs ht (le_antisymm (not_lt.mp h₂) (not_lt.mp h₁))
  · rintro rfl
    have h₁ : ¬ pathcmp s s < 0 := fun h => lt_irrefl _ (hlt.mp h)
    have h₂ : ¬ 0 < pathcmp s s := fun h => lt_irrefl _ (hgt.mp h)
    omega

theorem pathcmp_le_zero_iff (hs : 0 ∉ s) (ht : 0 ∉ t) :
    pathcmp s t ≤ 0 ↔ ¬ pathRanks t < pathRanks s := by
  rw [← (pathcmp_sign hs ht).2, Int.not_lt]

/-! ## 3. Subtrees are segments -/

/-- What lies between a string and one of its extensions extends it, too. -/
theorem extends_of_between {x b r : List Nat} (hxb : ¬ b < x) (hbr : ¬ x ++ r < b) :
    ∃ r', b = x ++ r' ∧ ¬ r < r' := by
  induction x generalizing b with
  | nil => exact ⟨b, rfl, hbr⟩
  | cons n x ih =>
    cases b with
    | nil => exact absurd (nil_lt_cons n x) hxb
    | cons m b =>
      simp only [cons_append, cons_lt_cons_iff, not_or, not_and] at hxb hbr
      obtain rfl : m = n := by omega
      obtain ⟨r', rfl, hr⟩ := ih (hxb.2 rfl) (hbr.2 rfl)
      exact ⟨r', rfl, hr⟩

theorem splitSlash_cons_isPrefix_iff :
    splitSlash (c :: s) <+: splitSlash (d :: t) ↔ c = d ∧ splitSlash s <+: splitSlash t := by
  obtain ⟨n, ns, hs⟩ := exists_cons_of_ne_nil (splitSlash_ne_nil s)
  obtain ⟨m, ms, ht⟩ := exists_cons_of_ne_nil (splitSlash_ne_nil t)
  by_cases hc : c = slash <;> by_cases hd : d = slash <;>
    simp only [splitSlash, hc, hd, hs, ht, if_true, if_false, cons_prefix_cons] <;> grind

/-- One string's pieces start another's when the other is the same or goes on with a slash. -/
theorem splitSlash_isPrefix_iff :
    splitSlash s <+: splitSlash t ↔ s = t ∨ ∃ r, t = s ++ slash :: r := by
  induction s generalizing t with
  | nil =>
    cases t with
    | nil => simp
    | cons d t =>
      by_cases hd : d = slash
      · simp [splitSlash, hd]
      · cases ht : splitSlash t <;> simp [splitSlash, hd, ht]
  | cons c s ih =>
    cases t with
    | nil =>
      obtain ⟨n, ns, hs⟩ := exists_cons_of_ne_nil (splitSlash_ne_nil s)
      by_cases hc : c = slash <;> simp [splitSlash, hc, hs]
    | cons d t =>
      rw [splitSlash_cons_isPrefix_iff, ih]
      grind

theorem Path.exists_of_isAbsolute {p : Path} (h : p.isAbsolute = true) :
    ∃ s, p.bytes = slash :: s :=
  head?_eq_some_iff.mp (of_decide_eq_true h)

/-- In bytes, the subtree of the root is everything, and that of another path is the path itself and
what goes on with a slash. -/
theorem AbsolutePath.within_iff (p q : AbsolutePath) :
    p.Within q.toPath ↔
      p.bytes = [slash] ∨ p.bytes = q.bytes ∨ ∃ r, q.bytes = p.bytes ++ slash :: r := by
  obtain ⟨s, hs⟩ := Path.exists_of_isAbsolute p.absolute
  obtain ⟨t, ht⟩ := Path.exists_of_isAbsolute q.absolute
  simp only [Path.Within, Path.names, hs, ht, cons_prefix_cons, true_and, cons.injEq, cons_append]
  by_cases hp : s = []
  · simp [hp]
  · by_cases hq : t = []
    · have := splitSlash_ne_nil s
      simp [hp, hq, this]
    · simp [hp, hq, splitSlash_isPrefix_iff]

theorem AbsolutePath.eq_of_bytes (h : p.bytes = q.bytes) : p.toPath = q.toPath :=
  congrArg Path.mk h

/-- **A path comes before everything below it.** -/
theorem AbsolutePath.lt_of_below (h : p.Below q.toPath) : pathcmp p.bytes q.bytes < 0 := by
  obtain ⟨r, hr⟩ : ∃ r, q.bytes = p.bytes ++ r := by
    obtain hp | hp | ⟨r, hr⟩ := (p.within_iff q).mp h.1
    · obtain ⟨s, hs⟩ := Path.exists_of_isAbsolute q.absolute
      exact ⟨s, by rw [hp, hs]; rfl⟩
    · exact ⟨[], by simp [hp]⟩
    · exact ⟨slash :: r, hr⟩
  have hle : pathcmp p.bytes q.bytes ≤ 0 := by
    rw [pathcmp_le_zero_iff p.noNul q.noNul, hr, pathRanks, map_append]
    exact le_append_left
  have hne : pathcmp p.bytes q.bytes ≠ 0 := by
    rw [Ne, pathcmp_eq_zero_iff p.noNul q.noNul]
    intro heq
    exact h.2 (congrArg Path.names (eq_of_bytes heq))
  omega

/-- **What sorts between a path and something in its subtree is in the subtree.** -/
theorem AbsolutePath.within_of_between {b : AbsolutePath} (hpq : p.Within q.toPath)
    (hpb : pathcmp p.bytes b.bytes ≤ 0) (hbq : pathcmp b.bytes q.bytes ≤ 0) :
    p.Within b.toPath := by
  rw [pathcmp_le_zero_iff p.noNul b.noNul] at hpb
  rw [pathcmp_le_zero_iff b.noNul q.noNul] at hbq
  rw [p.within_iff] at hpq ⊢
  rcases hpq with hp | hp | ⟨r, hr⟩
  case inl => exact .inl hp
  case inr.inl =>
    rw [← hp] at hbq
    have := le_antisymm (not_lt.mp hpb) (not_lt.mp hbq)
    exact .inr (.inl (pathRanks_inj p.noNul b.noNul this))
  case inr.inr =>
    -- the ranks of `b` start with those of `p`, and what follows starts at most with a slash
    rw [hr, pathRanks, map_append] at hbq
    obtain ⟨r', hb, hr'⟩ := extends_of_between hpb hbq
    obtain ⟨x, y, hxy, hx, hy⟩ := map_eq_append_iff.mp hb
    have hp : p.bytes = x :=
      pathRanks_inj p.noNul (fun h => b.noNul (hxy ▸ mem_append_left _ h)) hx.symm
    cases y with
    | nil => exact .inr (.inl (by rw [hp, hxy, append_nil]))
    | cons c y =>
      have hc : c ≠ 0 := fun h => b.noNul (by simp [hxy, h])
      have hslash : c = slash := by
        by_contra hne
        apply hr'
        rw [← hy, map_cons, map_cons, cons_lt_cons_iff, pathRank_slash]
        exact .inl (pathRank_pos hc hne)
      exact .inr (.inr ⟨y, by rw [hp, hxy, hslash]⟩)

/-- **`pathcmp` orders strings, and a sorted batch holds every subtree in one segment** that starts
with the root of the subtree. -/
theorem pathcmp_order :
    (∀ s t : CString, pathcmp s t = 0 ↔ s = t) ∧
    (∀ s t : CString, pathcmp s t < 0 ↔ 0 < pathcmp t s) ∧
    (∀ s t u : CString, pathcmp s t < 0 → pathcmp t u < 0 → pathcmp s u < 0) ∧
    ∀ l : List AbsolutePath, PathSorted l →
      (∀ i k : Fin l.length, (l.get i).Below (l.get k).toPath → i < k) ∧
      ∀ i j k : Fin l.length, i < j → j < k → (l.get i).Within (l.get k).toPath →
        (l.get i).Within (l.get j).toPath := by
  refine ⟨fun s t => ?_, fun s t => ?_, fun s t u h h' => ?_, fun l hl => ⟨fun i k h => ?_, ?_⟩⟩
  · rw [pathcmp_eq_zero_iff s.2 t.2, Subtype.ext_iff]
  · rw [(pathcmp_sign s.2 t.2).1, (pathcmp_sign t.2 s.2).2]
  · rw [(pathcmp_sign s.2 t.2).1] at h
    rw [(pathcmp_sign t.2 u.2).1] at h'
    rw [(pathcmp_sign s.2 u.2).1]
    exact lt_trans h h'
  · have hlt := AbsolutePath.lt_of_below h
    rcases Nat.lt_trichotomy i k with hik | hik | hki
    · exact hik
    · exact absurd (by rw [Fin.ext hik]) h.2
    · have := pairwise_iff_get.mp hl k i hki
      rw [pathcmp_le_zero_iff (l.get k).noNul (l.get i).noNul] at this
      exact absurd ((pathcmp_sign (l.get i).noNul (l.get k).noNul).1.mp hlt) this
  · intro i j k hij hjk h
    have hsorted := pairwise_iff_get.mp hl
    exact AbsolutePath.within_of_between h (hsorted i j hij) (hsorted j k hjk)

/-- The batch `/`, `/a`, `/a/b`, `/a.b`: bytewise `/a.b` would come before `/a/b`. -/
theorem pathcmp_order_batch : let l : List AbsolutePath :=
      [⟨⟨[slash]⟩, rfl, by decide, by decide⟩, ⟨⟨[slash, 97]⟩, rfl, by decide, by decide⟩,
        ⟨⟨[slash, 97, slash, 98]⟩, rfl, by decide, by decide⟩,
        ⟨⟨[slash, 97, 46, 98]⟩, rfl, by decide, by decide⟩]
    PathSorted l ∧ ∀ i k : Fin l.length, (l.get i).Below (l.get k).toPath → i < k := by
  intro l
  have hl : PathSorted l := by unfold PathSorted; decide
  exact ⟨hl, (pathcmp_order.2.2.2 l hl).1⟩

end FalconFS
