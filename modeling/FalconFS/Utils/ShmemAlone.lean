/-
# An allocation that runs alone

While no other call runs, the bitmaps stay as they were when `FalconShmemAllocatorMalloc` began.
Its first scan starts at the hint and proves nothing about the pages before it; the second one
starts at page 0, so that a call which finds nothing has seen every page (`malloc_alone`).  That
does not depend on the hint, which may be any number.
-/
import FalconFS.Utils.ShmemAllocator

namespace FalconFS.Shmem

open Function Machine List

/-- No page has a free run for a block of the level. -/
def NoRoom (n level : Nat) (bitmap : Nat → BitVec 64) : Prop :=
  ∀ p < n, ∀ first, IsRun level first → anySet (bitmap p) first (runLength level)

/-- A block for `size` bytes that was free in the bitmaps. -/
structure Taken (n size : Nat) (bitmap : Nat → BitVec 64) (b : Block) : Prop where
  ok : b.Ok n
  level : b.level = levelOf size
  free : ∀ i, b.first ≤ i → i < b.first + runLength b.level → (bitmap b.pageNo).getLsbD i = false

section

variable (wrap : Nat → Nat) (n size : Nat) (bitmap : Nat → BitVec 64) (sh : Shared)

/-- Where a call stands that began with these bitmaps.  Only the second scan remembers something. -/
inductive Alone : Pc → Prop
  | loadHint (hsame : sh.bitmap = bitmap) : Alone (.loadHint size)
  | loadPage {second : Bool} {start pageNo : Nat} (hsame : sh.bitmap = bitmap) (hp : pageNo < n)
      (hpast : second = true → ∀ p < pageNo, findBlock (levelOf size) (bitmap p) = none) :
      Alone (.loadPage size second start pageNo)
  | swap {second full : Bool} {start pageNo : Nat} {r : BitVec 64 × Nat}
      (hsame : sh.bitmap = bitmap) (hp : pageNo < n)
      (hfind : findBlock (levelOf size) (bitmap pageNo) = some r) :
      Alone (.swap size second start pageNo (bitmap pageNo) full)
  | renewHint {b : Block} {start : Nat} {full : Bool} (hb : Taken n size bitmap b) :
      Alone (.renewHint size b start full)
  | readHint {b : Block} (hb : Taken n size bitmap b) : Alone (.readHint size b)
  | lowerHint {b : Block} {freeHint : Nat} (hb : Taken n size bitmap b) :
      Alone (.lowerHint size b freeHint)
  | writeHdr {b : Block} (hb : Taken n size bitmap b) : Alone (.writeHdr size b)
  | returns {b : Block} (hb : Taken n size bitmap b)
      (hcap : (sh.hdr (allocatedShift wrap b)).capacity = requiredSize size) :
      Alone (.returns size b)
  | idle (hnone : ∀ p < n, findBlock (levelOf size) (bitmap p) = none) : Alone .idle

end

/-- A bound on the operations that such a call still makes.  The loop that lowers
the hint needs a second turn if it has not read the current one. -/
def ahead (n : Nat) (sh : Shared) : Pc → Nat
  | .loadHint _ => 4 * n + 8
  | .loadPage _ second _ pageNo => 2 * (n - pageNo) + 6 + if second then 0 else 2 * n + 1
  | .swap _ _ _ _ _ _ => 6
  | .readHint _ _ => 4
  | .lowerHint _ b freeHint => if sh.freeListHint b.level = freeHint then 2 else 3
  | .renewHint _ _ _ _ => 2
  | .writeHdr _ _ => 1
  | _ => 0

section Alone

variable {wrap : Nat → Nat} {n size : Nat} {bitmap : Nat → BitVec 64} {sh : Shared} {pc : Pc}

theorem Alone.scanFrom {second : Bool} {pageNo : Nat} (hsame : sh.bitmap = bitmap) (start : Nat)
    (hpast : second = true → ∀ p < pageNo, findBlock (levelOf size) (bitmap p) = none) :
    Alone wrap n size bitmap sh (scanFrom n size second start pageNo) ∧
      ahead n sh (Shmem.scanFrom n size second start pageNo) ≤
        2 * (n - pageNo) + 6 + if second then 0 else 2 * n + 1 := by
  unfold Shmem.scanFrom
  split
  · rename_i hp
    exact ⟨.loadPage hsame hp hpast, le_refl _⟩
  · rename_i hend
    cases second with
    | true => exact ⟨.idle fun p hp => hpast rfl p (by omega), Nat.zero_le _⟩
    | false =>
      simp only [Bool.false_eq_true, if_false]
      split
      · rename_i hn
        refine ⟨.loadPage hsame hn fun _ p hp => absurd hp (Nat.not_lt_zero p), ?_⟩
        simp only [ahead, if_true]
        omega
      · rename_i hn
        exact ⟨.idle fun p hp => absurd hp (by omega), Nat.zero_le _⟩

/-- **One operation of a call that runs alone**, if it has not come to its end. -/
theorem Alone.step (h : Alone wrap n size bitmap sh pc) (hs : Supported size) :
    threadStep wrap n sh pc = none ∨ ∃ sh' pc', threadStep wrap n sh pc = some (sh', pc') ∧
      Alone wrap n size bitmap sh' pc' ∧ ahead n sh' pc' < ahead n sh pc := by
  cases h with
  | idle | returns => exact .inl rfl
  | loadHint hsame =>
    have hscan := fun pageNo => @Alone.scanFrom wrap n size bitmap sh false pageNo hsame
      (sh.freeListHint (levelOf size)) nofun
    refine .inr ⟨_, _, rfl, (hscan _).1, lt_of_le_of_lt (hscan _).2 ?_⟩
    simp only [ahead, Bool.false_eq_true, if_false]
    omega
  | @loadPage second start pageNo hsame hp hpast =>
    refine .inr ⟨_, _, rfl, ?_⟩
    rw [tryPage, hsame]
    split
    · rename_i hnone
      have hpast' :
          second = true → ∀ p < pageNo + 1, findBlock (levelOf size) (bitmap p) = none := by
        intro h2 p hlt
        rcases Nat.lt_succ_iff_lt_or_eq.mp hlt with hlt | rfl
        · exact hpast h2 p hlt
        · exact hnone
      obtain ⟨halone, hle⟩ := Alone.scanFrom hsame start hpast'
      refine ⟨halone, lt_of_le_of_lt hle ?_⟩
      simp only [ahead]
      omega
    · rename_i hfind
      refine ⟨.swap hsame hp hfind, ?_⟩
      simp only [ahead]
      omega
  | @swap second full start pageNo r hsame hp hfind =>
    obtain ⟨desired, first⟩ := r
    have hf := findBlock_found (requiredSize_spec hs).1 hfind
    have hb : Taken n size bitmap ⟨pageNo, first, levelOf size⟩ := ⟨⟨hf.run, hp⟩, rfl, hf.free⟩
    refine .inr ⟨{ sh with bitmap := update sh.bitmap pageNo desired },
      afterSwap size second start ⟨pageNo, first, levelOf size⟩ full, ?_, ?_⟩
    · simp [threadStep, hsame, hfind]
    · unfold afterSwap
      split
      · split
        · exact ⟨.writeHdr hb, by simp [ahead]⟩
        · exact ⟨.readHint hb, by simp [ahead]⟩
      · split
        · exact ⟨.renewHint hb, by simp [ahead]⟩
        · exact ⟨.writeHdr hb, by simp [ahead]⟩
  | renewHint hb => exact .inr ⟨_, _, rfl, .writeHdr hb, by simp [ahead]⟩
  | readHint hb => exact .inr ⟨_, _, rfl, .lowerHint hb, by simp [ahead]⟩
  | @lowerHint b freeHint hb =>
    by_cases hlow : freeHint ≤ b.pageNo
    · refine .inr ⟨sh, .writeHdr size b, by simp [threadStep, lower, hlow], .writeHdr hb, ?_⟩
      simp only [ahead]
      split <;> decide
    · by_cases heq : sh.freeListHint b.level = freeHint
      · exact .inr ⟨_, .writeHdr size b, by rw [threadStep, lower, if_neg hlow, if_pos heq],
          .writeHdr hb, by simp [ahead, heq]⟩
      · exact .inr ⟨sh, .lowerHint size b (sh.freeListHint b.level),
          by simp [threadStep, lower, hlow, heq], .lowerHint hb, by simp [ahead, heq]⟩
  | writeHdr hb => exact .inr ⟨_, _, rfl, .returns hb (by simp), by simp [ahead]⟩

/-- The call comes to its end. -/
theorem Alone.ends {t : Nat} (hs : Supported size) : ∀ (m : Nat) {s : State},
    Alone wrap n size bitmap s.shared (s.pcs t) → ahead n s.shared (s.pcs t) ≤ m →
      ∃ k s', exec (Shmem.step wrap n) s (replicate k (.step t)) = some s' ∧
        Shmem.step wrap n s' (.step t) = none := by
  intro m
  induction m with
  | zero =>
    intro s h hm
    rcases h.step hs with hnone | ⟨_, _, _, _, hlt⟩
    · exact ⟨0, s, rfl, by simp [Shmem.step, hnone]⟩
    · omega
  | succ m ih =>
    intro s h hm
    rcases h.step hs with hnone | ⟨sh', pc', hstep, h', hlt⟩
    · exact ⟨0, s, rfl, by simp [Shmem.step, hnone]⟩
    · obtain ⟨k, s', hexec, hend⟩ := ih (s := { s with shared := sh', pcs := update s.pcs t pc' })
        (by simpa using h') (by simp only [update_self]; omega)
      refine ⟨k + 1, s', ?_, hend⟩
      simpa [replicate_succ, exec, Shmem.step, hstep] using hexec

end Alone

/-- **An allocation that runs alone**, from any state and with any hints: it comes to its end, and
then it has returned 0 and no page has room, or it returns a block that was free, with a header
that says a capacity in which what was asked for fits behind the header. -/
theorem malloc_alone (wrap : Nat → Nat) (n : Nat) {s : State} {t size : Nat}
    (hidle : s.pcs t = .idle) (hsize : Supported size) :
    ∃ s₁, step wrap n s (.malloc t size) = some s₁ ∧
      ∀ s', Run (step wrap n) (fun _ e => e = .step t ∨ e = .weakFail t) s₁ s' →
        (∃ k s'', exec (step wrap n) s' (replicate k (.step t)) = some s'' ∧
          step wrap n s'' (.step t) = none) ∧
        (step wrap n s' (.step t) = none →
          s'.pcs t = .idle ∧ NoRoom n (levelOf size) s.shared.bitmap ∨
          ∃ b, s'.pcs t = .returns size b ∧ Taken n size s.shared.bitmap b ∧
            (s'.shared.hdr (allocatedShift wrap b)).capacity = requiredSize size ∧
            size + sizeofMemoryHdr ≤ requiredSize size) := by
  obtain ⟨hlevel, -, hfits⟩ := requiredSize_spec hsize
  refine ⟨_, if_pos ⟨hidle, hsize⟩, fun s' hrun => ?_⟩
  have halone : Alone wrap n size s.shared.bitmap s'.shared (s'.pcs t) := by
    refine hrun.invariant (I := fun s' => Alone wrap n size s.shared.bitmap s'.shared (s'.pcs t))
      ?_ fun s₁ e s₂ h he hs => ?_
    · simp only [update_self]
      exact .loadHint rfl
    · rcases he with rfl | rfl
      · obtain ⟨⟨sh', pc'⟩, hstep, rfl⟩ := Option.map_eq_some_iff.mp hs
        rcases h.step hsize with hnone | ⟨_, _, hstep', h', -⟩
        · cases hnone.symm.trans hstep
        · cases hstep'.symm.trans hstep
          simpa using h'
      · obtain ⟨_, rfl⟩ := guard_eq_some hs
        exact h
  refine ⟨halone.ends hsize _ (le_refl _), fun hend => ?_⟩
  have hnone : threadStep wrap n s'.shared (s'.pcs t) = none := by simpa [step] using hend
  generalize hpc : s'.pcs t = pc at halone hnone
  cases halone with
  | idle hall => exact .inl ⟨rfl, fun p hp first hr => findBlock_none hlevel (hall p hp) hr⟩
  | returns hb hcap => exact .inr ⟨_, rfl, hb, hcap, hfits⟩
  | swap hsame _ hfind => simp [threadStep, hsame, hfind] at hnone
  | _ => cases hnone

/-- The first page is full, the first block of the second is in use, and the hints point behind
both. -/
def staleHint : State :=
  { init with shared := { init.shared with
      bitmap := fun p => if p = 0 then BitVec.allOnes 64 else 1
      freeListHint := fun _ => 5 } }

theorem malloc_alone_staleHint : ∃ s₁ s', step id 2 staleHint (.malloc 0 100) = some s₁ ∧
    exec (step id 2) s₁ (replicate 7 (.step 0)) = some s' ∧
    s'.pcs 0 = .returns 100 ⟨1, 1, 6⟩ ∧ Taken 2 100 staleHint.shared.bitmap ⟨1, 1, 6⟩ := by
  obtain ⟨s₁, hcall, hall⟩ := @malloc_alone id 2 staleHint 0 100 rfl (by decide)
  cases hcall
  have hend := (hall _ (Run.of_exec_meet (replicate 7 (.step 0)) rfl
    (allMeet_of_forall _ _ fun e he _ => .inl (eq_of_mem_replicate he)))).2 rfl
  refine ⟨_, _, rfl, rfl, rfl, ?_⟩
  rcases hend with ⟨hidle, -⟩ | ⟨b, hb, htaken, -⟩
  · cases hidle
  · cases hb
    exact htaken

end FalconFS.Shmem
