/-
# Lanes: first-in first-out queues that many consumers share

Every producer has a lane of its own, a consumer takes the first item of some lane into its hands
and hands it over to its caller later.  An item is named by its place among everything that was
ever sent, so that two items are never confused even when their values agree.

`Sound` is what such a system keeps, whatever its users do and in whatever order
(`Sound.step`): no item is handed over twice, an item that was sent is in a lane, in somebody's
hands or handed over, and one consumer gets the items of one lane in the order they were sent.

A system that is more than its lanes is shown to have these facts by `Sound.follows`: each of its
steps does to the lanes what one action does, or nothing.
-/
import FalconFS.Lib.Machine
import Mathlib.Data.List.Nodup
import Mathlib.Data.List.Range
import Mathlib.Data.List.Pairwise

namespace Lanes

open Function List

/-- The `id`-th item that was sent. -/
structure Item (P V : Type) where
  id : Nat
  lane : P
  value : V
  deriving DecidableEq, Repr

structure State (P C V : Type) where
  sent : List (Item P V)
  queue : P → List (Item P V)
  held : C → Option (Item P V)
  got : List (C × Item P V)

inductive Act (P C V : Type)
  | push (p : P) (v : V)
  | pop (c : C) (p : P)
  | hand (c : C)

variable {P C V : Type}

def State.init : State P C V := ⟨[], fun _ => [], fun _ => none, []⟩

section Step

variable [DecidableEq P] [DecidableEq C]

def step (s : State P C V) : Act P C V → Option (State P C V)
  | .push p v =>
    some { s with
      sent := s.sent ++ [⟨s.sent.length, p, v⟩]
      queue := update s.queue p (s.queue p ++ [⟨s.sent.length, p, v⟩]) }
  | .pop c p =>
    match s.held c, s.queue p with
    | none, x :: rest =>
      some { s with
        queue := update s.queue p rest
        held := update s.held c (some x) }
    | _, _ => none
  | .hand c =>
    match s.held c with
    | some x =>
      some { s with held := update s.held c none, got := s.got ++ [(c, x)] }
    | none => none

end Step

/-- Handed over. -/
def State.Got (s : State P C V) (x : Item P V) : Prop := ∃ c, (c, x) ∈ s.got

/-- Out of its lane: handed over, or in the hands of a consumer. -/
def State.Taken (s : State P C V) (x : Item P V) : Prop := s.Got x ∨ ∃ c, s.held c = some x

/-- **What lanes keep.** -/
structure Sound (s : State P C V) : Prop where
  ids : s.sent.map Item.id = range s.sent.length
  queued : ∀ p, ∀ x ∈ s.queue p, x ∈ s.sent ∧ x.lane = p
  sorted : ∀ p, (s.queue p).Pairwise fun x y => x.id < y.id
  taken_sent : ∀ x, s.Taken x → x ∈ s.sent
  taken_first : ∀ x, s.Taken x → ∀ y ∈ s.queue x.lane, x.id < y.id
  placed : ∀ x ∈ s.sent, s.Taken x ∨ x ∈ s.queue x.lane
  once : (s.got.map Prod.snd).Nodup
  held_once : ∀ c x, s.held c = some x → ¬s.Got x
  held_by_one : ∀ c c' x, s.held c = some x → s.held c' = some x → c = c'
  ordered : s.got.Pairwise fun a b => a.1 = b.1 → a.2.lane = b.2.lane → a.2.id < b.2.id
  held_last : ∀ c x, s.held c = some x → ∀ y, (c, y) ∈ s.got → y.lane = x.lane → y.id < x.id

namespace Sound

variable {s s' : State P C V}

theorem init : Sound (State.init : State P C V) where
  ids := rfl
  queued p x h := nomatch h
  sorted p := .nil
  taken_sent x h := by
    rcases h with ⟨c, h⟩ | ⟨c, h⟩ <;> cases h
  taken_first x h := by
    rcases h with ⟨c, h⟩ | ⟨c, h⟩ <;> cases h
  placed x h := nomatch h
  once := .nil
  held_once c x h := nomatch h
  held_by_one c c' x h := nomatch h
  ordered := .nil
  held_last c x h := nomatch h

/-- Everything sent so far has a smaller name than what is sent next. -/
theorem id_lt (h : Sound s) {x : Item P V} (hx : x ∈ s.sent) : x.id < s.sent.length := by
  have hid : x.id ∈ s.sent.map Item.id := mem_map_of_mem hx
  rw [h.ids] at hid
  exact mem_range.mp hid

variable [DecidableEq P]

theorem push (h : Sound s) (p : P) (v : V) :
    Sound { s with
      sent := s.sent ++ [⟨s.sent.length, p, v⟩]
      queue := update s.queue p (s.queue p ++ [⟨s.sent.length, p, v⟩]) } := by
  -- the new item comes after everything that was sent
  have hlast : ∀ x ∈ s.sent, x.id < s.sent.length := fun _ => h.id_lt
  obtain ⟨hids, hqueued, hsorted, hsent, hfirst, hplaced, honce, hheld, hone, hordered,
    hheldLast⟩ := h
  constructor
  case ids => simp [hids, range_succ]
  all_goals
    simp only [State.Taken, State.Got, update_apply] at *
    grind

variable [DecidableEq C]

theorem pop (h : Sound s) {c : C} {p : P} {x : Item P V} {rest : List (Item P V)}
    (hfree : s.held c = none) (hqueue : s.queue p = x :: rest) :
    Sound { s with
      queue := update s.queue p rest
      held := update s.held c (some x) } := by
  have hx : x ∈ s.queue p := hqueue ▸ mem_cons_self
  obtain ⟨hxsent, hlane⟩ := h.queued p x hx
  have hrest := h.sorted p
  rw [hqueue, pairwise_cons] at hrest
  -- the item at the front of a lane is later than everything that left it
  have hlater : ∀ y, s.Taken y → y.lane = x.lane → y.id < x.id := by
    intro y hy hl
    exact h.taken_first y hy x (by rwa [hl, hlane])
  have hnew : ¬s.Taken x := fun ht => Nat.lt_irrefl _ (hlater x ht rfl)
  obtain ⟨hids, hqueued, hsorted, hsent, hfirst, hplaced, honce, hheld, hone, hordered,
    hheldLast⟩ := h
  constructor <;> simp only [State.Taken, State.Got, update_apply] at * <;> grind

omit [DecidableEq P] in
theorem hand (h : Sound s) {c : C} {x : Item P V} (hx : s.held c = some x) :
    Sound { s with held := update s.held c none, got := s.got ++ [(c, x)] } := by
  obtain ⟨hids, hqueued, hsorted, hsent, hfirst, hplaced, honce, hheld, hone, hordered,
    hheldLast⟩ := h
  constructor <;> simp only [State.Taken, State.Got, update_apply] at * <;>
    grind [nodup_append]

theorem step (h : Sound s) {a : Act P C V} (hs : Lanes.step s a = some s') : Sound s' := by
  cases a with
  | push p v =>
    cases hs
    exact h.push p v
  | pop c p =>
    simp only [Lanes.step] at hs
    split at hs
    · rename_i hfree hqueue
      cases hs
      exact h.pop hfree hqueue
    · cases hs
  | hand c =>
    simp only [Lanes.step] at hs
    split at hs
    · rename_i hx
      cases hs
      exact h.hand hx
    · cases hs

end Sound

section Simulation

variable [DecidableEq P] [DecidableEq C] {s s' : State P C V}

/-- What one action does to the lanes, or nothing. -/
def Follows (s s' : State P C V) : Prop := s' = s ∨ ∃ a, step s a = some s'

theorem Sound.follows (h : Sound s) (hf : Follows s s') : Sound s' := by
  rcases hf with rfl | ⟨a, ha⟩
  · exact h
  · exact h.step ha

/-- What was sent stays sent. -/
theorem Follows.sent_grows (hf : Follows s s') : s.sent <+: s'.sent := by
  rcases hf with rfl | ⟨a, ha⟩
  · exact ⟨[], append_nil _⟩
  · cases a with
    | push p v =>
      cases ha
      exact ⟨_, rfl⟩
    | pop c p =>
      simp only [step] at ha
      split at ha
      · cases ha
        exact ⟨[], append_nil _⟩
      · cases ha
    | hand c =>
      simp only [step] at ha
      split at ha
      · cases ha
        exact ⟨[], append_nil _⟩
      · cases ha

end Simulation

end Lanes
