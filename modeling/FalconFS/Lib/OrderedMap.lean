/-
# Ordered maps and the search for a lower bound

Two ways to find the first key that is not below a given one: a map kept as a list in the order of
its keys, and binary search over an indexed table.  `IsLeast` is where they meet: an entry whose
key is the smallest of those that are not below the one looked for.  In a table without equal keys
there is at most one (`IsLeast.unique`), so the two searches find the same entry whenever the two
tables have the same entries from there on.
-/
import Mathlib.Order.Lattice
import Mathlib.Data.List.Pairwise

namespace OrderedMap

open List

variable {K V : Type} [LinearOrder K]

/-- An entry with the smallest key that is at least `x`. -/
structure IsLeast (m : List (K × V)) (x : K) (e : K × V) : Prop where
  mem : e ∈ m
  ge : x ≤ e.1
  least : ∀ e' ∈ m, x ≤ e'.1 → e.1 ≤ e'.1

/-- The keys are strictly increasing. -/
def Sorted (m : List (K × V)) : Prop := m.Pairwise fun a b => a.1 < b.1

variable {m : List (K × V)} {e e' : K × V} {x : K}

theorem Sorted.key_inj (h : Sorted m) (he : e ∈ m) (he' : e' ∈ m) (hk : e.1 = e'.1) : e = e' := by
  induction m with
  | nil => cases he
  | cons a m ih =>
    obtain ⟨ha, hm⟩ := pairwise_cons.mp h
    rcases mem_cons.mp he with hea | hem
    · rcases mem_cons.mp he' with hea' | hem'
      · rw [hea, hea']
      · exact absurd hk (hea ▸ (ha e' hem').ne)
    · rcases mem_cons.mp he' with hea' | hem'
      · exact absurd hk.symm (hea' ▸ (ha e hem).ne)
      · exact ih hm hem hem'

theorem IsLeast.unique (h : Sorted m) (he : IsLeast m x e) (he' : IsLeast m x e') : e = e' :=
  h.key_inj he.mem he'.mem (le_antisymm (he.least e' he'.mem he'.ge) (he'.least e he.mem he.ge))

/-! ## 1. A list in the order of its keys -/

/-- Insert an entry unless its key is there. -/
def emplace (m : List (K × V)) (k : K) (v : V) : List (K × V) :=
  match m with
  | [] => [(k, v)]
  | e :: m =>
    if k < e.1 then (k, v) :: e :: m
    else if e.1 = k then e :: m
    else e :: emplace m k v

def lowerBound (m : List (K × V)) (x : K) : Option (K × V) := m.find? fun e => decide (x ≤ e.1)

theorem mem_emplace (h : Sorted m) {k : K} {v : V} :
    e ∈ emplace m k v ↔ e ∈ m ∨ (e = (k, v) ∧ ∀ e' ∈ m, e'.1 ≠ k) := by
  induction m with
  | nil => simp [emplace]
  | cons a m ih =>
    obtain ⟨ha, hm⟩ := pairwise_cons.mp h
    unfold emplace
    split
    · rename_i hlt
      have hne : ∀ e' ∈ a :: m, e'.1 ≠ k := by
        intro e' he'
        rcases mem_cons.mp he' with rfl | he'
        · exact hlt.ne'
        · exact (hlt.trans (ha e' he')).ne'
      rw [mem_cons]
      constructor
      · rintro (rfl | he)
        · exact .inr ⟨rfl, hne⟩
        · exact .inl he
      · rintro (he | ⟨rfl, -⟩)
        · exact .inr he
        · exact .inl rfl
    · split
      · rename_i heq
        constructor
        · exact .inl
        · rintro (he | ⟨-, hne⟩)
          · exact he
          · exact absurd heq (hne a mem_cons_self)
      · rename_i hne
        rw [mem_cons, ih hm, mem_cons, forall_mem_cons]
        constructor
        · rintro (rfl | he | ⟨rfl, hall⟩)
          · exact .inl (.inl rfl)
          · exact .inl (.inr he)
          · exact .inr ⟨rfl, hne, hall⟩
        · rintro ((rfl | he) | ⟨rfl, -, hall⟩)
          · exact .inl rfl
          · exact .inr (.inl he)
          · exact .inr (.inr ⟨rfl, hall⟩)

theorem sorted_emplace (h : Sorted m) (k : K) (v : V) : Sorted (emplace m k v) := by
  induction m with
  | nil => exact pairwise_singleton _ _
  | cons a m ih =>
    obtain ⟨ha, hm⟩ := pairwise_cons.mp h
    unfold emplace
    split
    · rename_i hlt
      refine pairwise_cons.mpr ⟨?_, h⟩
      intro e he
      rcases mem_cons.mp he with rfl | he
      · exact hlt
      · exact hlt.trans (ha e he)
    · split
      · exact h
      · rename_i hge hne
        refine pairwise_cons.mpr ⟨?_, ih hm⟩
        intro e he
        rcases (mem_emplace hm).mp he with he | ⟨rfl, -⟩
        · exact ha e he
        · exact lt_of_le_of_ne (not_lt.mp hge) hne

/-- **The lower bound of a sorted map** is its least entry. -/
theorem lowerBound_isLeast (h : Sorted m) (hf : lowerBound m x = some e) : IsLeast m x e := by
  obtain ⟨hxe, pre, post, rfl, hpre⟩ := find?_eq_some_iff_append.mp hf
  refine ⟨by simp, by simpa using hxe, fun e' he' hge => ?_⟩
  rcases mem_append.mp he' with he' | he'
  · exact absurd hge (by simpa using hpre e' he')
  · rcases mem_cons.mp he' with rfl | he'
    · exact le_refl _
    · exact ((pairwise_cons.mp (pairwise_append.mp h).2.1).1 e' he').le

theorem exists_isLeast (h : Sorted m) (he : e ∈ m) (hx : x ≤ e.1) : ∃ e', IsLeast m x e' := by
  have hsome : (lowerBound m x).isSome := find?_isSome.mpr ⟨e, he, decide_eq_true hx⟩
  obtain ⟨e', he'⟩ := Option.isSome_iff_exists.mp hsome
  exact ⟨e', lowerBound_isLeast h he'⟩

theorem lowerBound_eq (h : Sorted m) (he : IsLeast m x e) : lowerBound m x = some e := by
  cases hf : lowerBound m x with
  | none => exact absurd he.ge (by simpa using find?_eq_none.mp hf e he.mem)
  | some a => rw [(lowerBound_isLeast h hf).unique h he]

/-! ## 2. Binary search -/

/-- `while (l < r)`, halving; `below i` is the comparison at index `i`.  As many rounds as there are
indices are enough. -/
def bisect (below : Nat → Bool) : Nat → Nat → Nat → Nat
  | 0, l, _ => l
  | rounds + 1, l, r =>
    if l < r then
      let mid := (l + r) / 2
      if below mid then bisect below rounds (mid + 1) r else bisect below rounds l mid
    else l

/-- **The first index that is not below**, if the ones that are come first. -/
theorem bisect_spec {below : Nat → Bool} (hmono : ∀ i j, i ≤ j → below j = true → below i = true) :
    ∀ rounds l r, l ≤ r → r - l ≤ rounds → (∀ i, i < l → below i = true) →
      (∀ i, r ≤ i → below i = false) →
      (∀ i, i < bisect below rounds l r → below i = true) ∧
        below (bisect below rounds l r) = false ∧ bisect below rounds l r ≤ r := by
  intro rounds
  induction rounds with
  | zero =>
    intro l r hlr hr hlow hhigh
    obtain rfl : l = r := by omega
    exact ⟨hlow, hhigh l (Nat.le_refl l), Nat.le_refl l⟩
  | succ rounds ih =>
    intro l r hlr hr hlow hhigh
    unfold bisect
    split
    · rename_i hlt
      dsimp only
      split
      · rename_i hmid
        exact ih _ r (by omega) (by omega) (fun i hi => hmono i _ (by omega) hmid) hhigh
      · rename_i hmid
        have hfrom : ∀ i, (l + r) / 2 ≤ i → below i = false := by
          intro i hi
          by_contra hb
          exact hmid (hmono _ i hi (by simpa using hb))
        obtain ⟨h₁, h₂, h₃⟩ := ih l _ (by omega) (by omega) hlow hfrom
        exact ⟨h₁, h₂, by omega⟩
    · obtain rfl : l = r := by omega
      exact ⟨hlow, hhigh l (Nat.le_refl l), Nat.le_refl l⟩

end OrderedMap
