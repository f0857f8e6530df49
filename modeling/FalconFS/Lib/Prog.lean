/-
# Programs that talk to a server

A handler is a program that performs operations one after another, each with a result on which the
rest depends, and that may give up with an error.  `Prog Op Res ε α` is the tree of all its courses.
The same program is used in two ways:

* a machine takes it apart, one operation at a time, between the steps of other programs.  What the
  program has done so far is its HISTORY, the list of its operations with their results, newest
  first.  `Safe P Q h p` says of a program `p` with history `h` that every operation it comes to
  meets `P`, and that a result it returns meets `Q`, whatever the results of the operations are;
* `run` executes it alone, against a state.

The rules of `Safe` are those of a program logic: one for each way to build a program.
-/
import Mathlib.Data.List.Infix

/-- Programs with operations `Op`, results `Res`, errors `ε` and values `α`. -/
inductive Prog (Op : Type) (Res : Op → Type) (ε α : Type) : Type
  | ret (a : α)
  | fail (e : ε)
  | op (o : Op) (k : Res o → Prog Op Res ε α)

namespace Prog

variable {Op : Type} {Res : Op → Type} {ε α β σ : Type}

/-! ## 1. Composition -/

def bind : Prog Op Res ε α → (α → Prog Op Res ε β) → Prog Op Res ε β
  | ret a, f => f a
  | fail e, _ => fail e
  | op o k, f => op o fun r => (k r).bind f

instance : Monad (Prog Op Res ε) where
  pure := ret
  bind := bind

/-- The program has come to an end. -/
def isRet : Prog Op Res ε α → Bool
  | ret _ => true
  | _ => false

@[simp] theorem pure_eq (a : α) : (pure a : Prog Op Res ε α) = ret a := rfl

@[simp] theorem ret_bind (a : α) (f : α → Prog Op Res ε β) : (ret a >>= f) = f a := rfl

@[simp] theorem fail_bind (e : ε) (f : α → Prog Op Res ε β) :
    ((fail e : Prog Op Res ε α) >>= f) = fail e := rfl

@[simp] theorem op_bind (o : Op) (k : Res o → Prog Op Res ε α) (f : α → Prog Op Res ε β) :
    (op o k >>= f) = op o fun r => k r >>= f := rfl

theorem bind_ret (p : Prog Op Res ε α) : p.bind ret = p := by
  induction p with
  | ret a => rfl
  | fail e => rfl
  | op o k ih => exact congrArg (op o) (funext ih)

theorem bind_assoc {γ : Type} (p : Prog Op Res ε α) (f : α → Prog Op Res ε β)
    (g : β → Prog Op Res ε γ) : (p.bind f).bind g = p.bind fun a => (f a).bind g := by
  induction p with
  | ret a => rfl
  | fail e => rfl
  | op o k ih => exact congrArg (op o) (funext ih)

instance : LawfulMonad (Prog Op Res ε) :=
  LawfulMonad.mk' (Prog Op Res ε) bind_ret (fun _ _ => rfl) bind_assoc

/-! ## 2. Histories -/

/-- An operation with its result. -/
abbrev Entry (Op : Type) (Res : Op → Type) : Type := (o : Op) × Res o

/-- Every operation of the history met `P` when it was performed. -/
def All (P : List (Entry Op Res) → Op → Prop) : List (Entry Op Res) → Prop
  | [] => True
  | e :: h => P h e.1 ∧ All P h

theorem All.mem {P : List (Entry Op Res) → Op → Prop} {h : List (Entry Op Res)} (ha : All P h)
    {e : Entry Op Res} (he : e ∈ h) : ∃ h', e :: h' <:+ h ∧ P h' e.1 := by
  induction h with
  | nil => cases he
  | cons x h ih =>
    rcases List.mem_cons.mp he with rfl | he
    · exact ⟨h, List.suffix_refl _, ha.1⟩
    · obtain ⟨h', hs, hp⟩ := ih ha.2 he
      exact ⟨h', hs.trans (List.suffix_cons _ _), hp⟩

theorem All.mono {P P' : List (Entry Op Res) → Op → Prop} {h : List (Entry Op Res)}
    (ha : All P h) (hP : ∀ h o, P h o → P' h o) : All P' h := by
  induction h with
  | nil => trivial
  | cons e h ih => exact ⟨hP _ _ ha.1, ih ha.2⟩

/-! ## 3. What a program may do -/

/-- Every operation meets `P`, every value returned meets `Q`. -/
def Safe (P : List (Entry Op Res) → Op → Prop) (Q : List (Entry Op Res) → α → Prop) :
    List (Entry Op Res) → Prog Op Res ε α → Prop
  | h, ret a => Q h a
  | _, fail _ => True
  | h, op o k => P h o ∧ ∀ r, Safe P Q (⟨o, r⟩ :: h) (k r)

section Rules

variable {P : List (Entry Op Res) → Op → Prop} {Q Q' : List (Entry Op Res) → α → Prop}
  {R : List (Entry Op Res) → β → Prop} {h : List (Entry Op Res)}

variable {a : α} {p : Prog Op Res ε α} {f : α → Prog Op Res ε β}

@[simp] theorem safe_ret : Safe P Q h (ret a : Prog Op Res ε α) ↔ Q h a := Iff.rfl

@[simp] theorem safe_pure : Safe P Q h (pure a : Prog Op Res ε α) ↔ Q h a := Iff.rfl

@[simp] theorem safe_fail {e : ε} : Safe P Q h (fail e : Prog Op Res ε α) ↔ True := Iff.rfl

@[simp] theorem safe_op {o : Op} {k : Res o → Prog Op Res ε α} :
    Safe P Q h (op o k) ↔ P h o ∧ ∀ r, Safe P Q (⟨o, r⟩ :: h) (k r) := Iff.rfl

/-- The rule of consequence. -/
theorem Safe.mono (hs : Safe P Q h p) (hQ : ∀ h' a, h <:+ h' → Q h' a → Q' h' a) :
    Safe P Q' h p := by
  induction p generalizing h with
  | ret a => exact hQ h a (List.suffix_refl _) hs
  | fail e => trivial
  | op o k ih =>
    refine ⟨hs.1, fun r => ih r (hs.2 r) fun h' a hh' => hQ h' a ?_⟩
    exact (List.suffix_cons _ _).trans hh'

/-- The same for the operations. -/
theorem Safe.weaken {P' : List (Entry Op Res) → Op → Prop} (hs : Safe P Q h p)
    (hP : ∀ h o, P h o → P' h o) (hQ : ∀ h a, Q h a → Q' h a) : Safe P' Q' h p := by
  induction p generalizing h with
  | ret a => exact hQ h a hs
  | fail e => trivial
  | op o k ih => exact ⟨hP h o hs.1, fun r => ih r (hs.2 r)⟩

/-- The rule of composition. -/
theorem Safe.bind (hs : Safe P (fun h' a => Safe P R h' (f a)) h p) : Safe P R h (p >>= f) := by
  induction p generalizing h with
  | ret a => exact hs
  | fail e => trivial
  | op o k ih => exact ⟨hs.1, fun r => ih r (hs.2 r)⟩

/-- Composition through an intermediate assertion. -/
theorem Safe.seq (hs : Safe P Q h p) (hf : ∀ h' a, h <:+ h' → Q h' a → Safe P R h' (f a)) :
    Safe P R h (p >>= f) :=
  Safe.bind (hs.mono hf)

theorem Safe.map {f : α → β} (hs : Safe P Q h p) (hf : ∀ h' a, h <:+ h' → Q h' a → R h' (f a)) :
    Safe P R h (f <$> p) :=
  Safe.bind (hs.mono hf)

/-- **The rule of loops**: an invariant of what is left of the list, the history and the state. -/
theorem safe_foldlM {f : σ → β → Prog Op Res ε σ} (I : List β → List (Entry Op Res) → σ → Prop)
    (hf : ∀ b l h s, I (b :: l) h s → Safe P (fun h' s' => I l h' s') h (f s b)) :
    ∀ (l : List β) (h : List (Entry Op Res)) (s : σ), I l h s →
      Safe P (fun h' s' => I [] h' s') h (l.foldlM f s)
  | [], _, _, hi => hi
  | b :: l, h, s, hi => by
    rw [List.foldlM_cons]
    exact (hf b l h s hi).seq fun h' s' _ hi' => safe_foldlM I hf l h' s' hi'

theorem safe_forM {f : β → Prog Op Res ε PUnit} (I : List β → List (Entry Op Res) → Prop)
    (hf : ∀ b l h, I (b :: l) h → Safe P (fun h' _ => I l h') h (f b)) :
    ∀ (l : List β) (h : List (Entry Op Res)), I l h → Safe P (fun h' _ => I [] h') h (l.forM f)
  | [], _, hi => hi
  | b :: l, h, hi => (hf b l h hi).seq fun h' _ _ hi' => safe_forM I hf l h' hi'

/-- A loop that collects results: the invariant need not mention them. -/
theorem safe_mapM {γ : Type} {f : β → Prog Op Res ε γ} (I : List (Entry Op Res) → Prop)
    (hf : ∀ b h, I h → Safe P (fun h' _ => I h') h (f b)) :
    ∀ (l : List β) (h : List (Entry Op Res)), I h → Safe P (fun h' _ => I h') h (l.mapM f)
  | [], _, hi => by simpa using hi
  | b :: l, h, hi => by
    rw [List.mapM_cons]
    refine (hf b h hi).seq fun h₁ c _ h₁i => ?_
    exact (safe_mapM I hf l h₁ h₁i).seq fun h₂ cs _ h₂i => h₂i

end Rules

/-! ## 4. Running a program alone -/

/-- Execute a program; `none` if it comes to an operation that the state does not allow. -/
def run (exec : σ → (o : Op) → Option (σ × Res o)) : σ → Prog Op Res ε α → Option (σ × Except ε α)
  | s, ret a => some (s, .ok a)
  | s, fail e => some (s, .error e)
  | s, op o k =>
    match exec s o with
    | none => none
    | some (s', r) => run exec s' (k r)

theorem run_bind_ok {exec : σ → (o : Op) → Option (σ × Res o)} {s s' : σ} {p : Prog Op Res ε α}
    {a : α} (h : p.run exec s = some (s', .ok a)) (f : α → Prog Op Res ε β) :
    (p >>= f).run exec s = (f a).run exec s' := by
  induction p generalizing s with
  | ret b =>
    obtain ⟨rfl, hb⟩ := Prod.mk.inj (Option.some.inj h)
    obtain rfl := Except.ok.inj hb
    rfl
  | fail e => cases (Prod.mk.inj (Option.some.inj h)).2
  | op o k ih =>
    simp only [run, op_bind] at h ⊢
    split
    · rename_i hnone
      simp [hnone] at h
    · rename_i s₁ r hs
      rw [hs] at h
      exact ih r h

end Prog
