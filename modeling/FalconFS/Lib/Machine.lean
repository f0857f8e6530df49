/-
# Machines that take one event at a time

A machine is a partial step function `step : σ → ε → Option σ`: `step s e = none` says that the
event `e` cannot happen in `s`.  Two ways to speak of its executions are used:

* `exec step s es` runs a LIST of events, so that a concrete schedule can be evaluated;
* `Run step C s₀ s` says that `s` is reached from `s₀` by steps that each meet the condition `C`
  in the state they start from.  `Reach` is the unconditional case.

`Run.invariant` is the induction every safety proof goes through, and `Run.of_exec` turns an
evaluated schedule into a run.  Where the schedule is better computed than written down, `drive`
lets a scheduler choose the events, and stops at the first one that cannot happen or fails a test.
-/
import Mathlib.Logic.Function.Basic

namespace Machine

variable {σ ε : Type}

/-- Run a list of events, from left to right; `none` as soon as one of them cannot happen. -/
def exec (step : σ → ε → Option σ) : σ → List ε → Option σ
  | s, [] => some s
  | s, e :: es =>
    match step s e with
    | none => none
    | some s' => exec step s' es

/-- `s` is reached from `s₀` by steps each of which meets `C` where it starts. -/
inductive Run (step : σ → ε → Option σ) (C : σ → ε → Prop) (s₀ : σ) : σ → Prop
  | refl : Run step C s₀ s₀
  | tail {s s' : σ} {e : ε} :
      Run step C s₀ s → C s e → step s e = some s' → Run step C s₀ s'

/-- Reachability: runs whose steps need not meet anything. -/
abbrev Reach (step : σ → ε → Option σ) (s₀ s : σ) : Prop :=
  Run step (fun _ _ => True) s₀ s

/-- Every step of the schedule `es` meets `C` in the state it starts from. -/
def AllMeet (step : σ → ε → Option σ) (C : σ → ε → Prop) : σ → List ε → Prop
  | _, [] => True
  | s, e :: es => C s e ∧ ∀ s', step s e = some s' → AllMeet step C s' es

/-- Where `C` can be tested, running the schedule tells whether it is met. -/
instance AllMeet.decidable {step : σ → ε → Option σ} {C : σ → ε → Prop}
    [∀ s e, Decidable (C s e)] : ∀ (es : List ε) (s : σ), Decidable (AllMeet step C s es)
  | [], _ => isTrue trivial
  | e :: es, s =>
    have : ∀ s', Decidable (AllMeet step C s' es) := AllMeet.decidable es
    inferInstanceAs (Decidable (C s e ∧ ∀ s' ∈ step s e, AllMeet step C s' es))

/-- Let `next` choose the events, at most `n` of them, as long as they pass the test `ok`. -/
def drive (step : σ → ε → Option σ) (ok : σ → ε → Bool) (next : σ → Option ε) : Nat → σ → σ
  | 0, s => s
  | n + 1, s =>
    match next s with
    | none => s
    | some e =>
      if ok s e then
        match step s e with
        | none => s
        | some s' => drive step ok next n s'
      else s

/-- What a step behind a guard says: the guard held, and this is the state it leads to. -/
theorem guard_eq_some {p : Prop} [Decidable p] {x y : σ}
    (h : (if p then some x else none) = some y) : p ∧ x = y := by
  obtain ⟨hp, hx⟩ := Option.ite_none_right_eq_some.mp h
  exact ⟨hp, Option.some.inj hx⟩

section Rules

variable {step : σ → ε → Option σ} {C C' : σ → ε → Prop} {s₀ s s' : σ}

/-- **The invariant rule.**  What holds at the start and is kept by every step that meets `C`
holds in every state of every such run. -/
theorem Run.invariant {I : σ → Prop} (h : Run step C s₀ s) (h₀ : I s₀)
    (hstep : ∀ s e s', I s → C s e → step s e = some s' → I s') : I s := by
  induction h with
  | refl => exact h₀
  | tail _ hc hs ih => exact hstep _ _ _ ih hc hs

/-- A weaker condition has more runs. -/
theorem Run.mono (h : Run step C s₀ s) (hC : ∀ s e, C s e → C' s e) : Run step C' s₀ s := by
  induction h with
  | refl => exact .refl
  | tail _ hc hs ih => exact ih.tail (hC _ _ hc) hs

/-- A condition may be exchanged for another one that agrees with it where an invariant holds. -/
theorem Run.strengthen {I : σ → Prop} (h : Run step C s₀ s) (h₀ : I s₀)
    (hI : ∀ s e s', I s → C s e → step s e = some s' → I s')
    (hC : ∀ s e s', I s → C s e → step s e = some s' → C' s e) : Run step C' s₀ s := by
  have hboth : Run step C' s₀ s ∧ I s := by
    induction h with
    | refl => exact ⟨.refl, h₀⟩
    | tail _ hc hs ih => exact ⟨ih.1.tail (hC _ _ _ ih.2 hc hs) hs, hI _ _ _ ih.2 hc hs⟩
  exact hboth.1

/-- Runs compose. -/
theorem Run.trans (h : Run step C s₀ s) (h' : Run step C s s') : Run step C s₀ s' := by
  induction h' with
  | refl => exact h
  | tail _ hc hs ih => exact ih.tail hc hs

/-- An evaluated schedule whose steps all meet `C` is a run. -/
theorem Run.of_exec_meet :
    ∀ (es : List ε) {s s' : σ}, exec step s es = some s' → AllMeet step C s es →
      Run step C s s'
  | [], s, s', h, _ => by
    obtain rfl : s = s' := Option.some.inj h
    exact .refl
  | e :: es, s, s', h, hm => by
    cases hs : step s e with
    | none => simp [exec, hs] at h
    | some t =>
      simp only [exec, hs] at h
      have hone : Run step C s t := Run.refl.tail hm.1 hs
      exact hone.trans (Run.of_exec_meet es h (hm.2 t hs))

/-- Events that meet `C` in every state. -/
theorem allMeet_of_forall :
    ∀ (es : List ε) (s : σ), (∀ e ∈ es, ∀ s, C s e) → AllMeet step C s es
  | [], _, _ => trivial
  | e :: es, s, h => ⟨h e List.mem_cons_self s, fun s' _ =>
      allMeet_of_forall es s' fun e' he' => h e' (List.mem_cons_of_mem _ he')⟩

/-- A schedule that goes on where another one ends. -/
theorem AllMeet.append {es' : List ε} :
    ∀ {es : List ε} {s : σ}, AllMeet step C s es →
      (∀ s', exec step s es = some s' → AllMeet step C s' es') → AllMeet step C s (es ++ es')
  | [], s, _, h' => h' s rfl
  | e :: es, s, h, h' => by
    refine ⟨h.1, fun t ht => (h.2 t ht).append fun s' hs' => h' s' ?_⟩
    simp only [exec, ht, hs']

theorem exec_append (es es' : List ε) (s : σ) :
    exec step s (es ++ es') = (exec step s es).bind fun t => exec step t es' := by
  induction es generalizing s with
  | nil => rfl
  | cons e es ih =>
    simp only [List.cons_append, exec]
    split
    · rfl
    · exact ih _

/-- An evaluated schedule reaches its last state. -/
theorem Run.of_exec (es : List ε) (h : exec step s es = some s') : Reach step s s' :=
  Run.of_exec_meet es h (allMeet_of_forall es s fun _ _ _ => trivial)

/-- A schedule that is evaluated with a test before every step. -/
theorem Run.of_exec_if [∀ s e, Decidable (C s e)] :
    ∀ (es : List ε) {s s' : σ},
      exec (fun s e => if C s e then step s e else none) s es = some s' → Run step C s s'
  | [], s, s', h => by
    obtain rfl : s = s' := Option.some.inj h
    exact .refl
  | e :: es, s, s', h => by
    by_cases hc : C s e
    · cases hs : step s e with
      | none => simp [exec, hc, hs] at h
      | some t =>
        simp only [exec, hc, if_true, hs] at h
        have hone : Run step C s t := Run.refl.tail hc hs
        exact hone.trans (Run.of_exec_if es h)
    · simp [exec, hc] at h

/-- A driven machine runs by steps that pass the test. -/
theorem run_drive (ok : σ → ε → Bool) (next : σ → Option ε) (n : Nat) (s : σ) :
    Run step (fun s e => ok s e = true) s (drive step ok next n s) := by
  induction n generalizing s with
  | zero => exact .refl
  | succ n ih =>
    unfold drive
    split
    · exact .refl
    · rename_i e he
      split
      · rename_i hok
        split
        · exact .refl
        · rename_i s' hs
          have hone : Run step (fun s e => ok s e = true) s s' := Run.refl.tail hok hs
          exact hone.trans (ih s')
      · exact .refl

end Rules

end Machine
