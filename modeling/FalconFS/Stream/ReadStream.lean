/-
# The read stream

`read_stream.cpp` reads a large file ahead.  The file is cut into blocks, and a few threads read
them into a ring of pipes: block `b` goes through pipe `b % pipeNum`, whose thread reads every
`pipeNum`-th block.  A pipe holds one block; its thread waits until the reader has taken all of
it, and the reader waits for the block that is next.

The threads learn where the file ends from a block that comes back short.  That thread writes the
offset of the block to `stopOffset`, for the others to see, and sets `stop` of its pipe, for the
reader.  Between those two steps, and before them, everybody goes on.

What a pipe does under its mutex is one step.  `stop` is set without the mutex, but `WaitPop` asks
for it at most once when the answer matters.  `StopPushThreaded`, which a write calls, is not
modelled: `stop` of the stream is false.
-/
import FalconFS.Lib.Machine
import Mathlib.Data.Nat.ModEq
import Mathlib.Logic.Function.Basic

namespace FalconFS.ReadStream

open Function List

/-! ## 1. A pipe -/

structure Pipe where
  mem : List UInt8
  capacity : Nat
  size : Int
  index : Int
  stop : Bool

/-- What `ReadFileLR` returns, and what it leaves in the buffer. -/
inductive ReadResult
  | bytes (bs : List UInt8)
  | failed (errno : Nat)
  deriving DecidableEq

def ReadResult.size : ReadResult → Int
  | .bytes bs => bs.length
  | .failed errno => -errno

def ReadResult.fill : ReadResult → List UInt8 → List UInt8
  | .bytes bs, _ => bs
  | .failed _, mem => mem

namespace Pipe

/-- `Pipe::Init` -/
def init (initSize : Nat) : Pipe := ⟨[], initSize, initSize, initSize, false⟩

/-- `Pipe::Destroy` -/
def destroy : Pipe := ⟨[], 0, 0, 0, true⟩

/-- `Pipe::WaitPop`: the pipe afterwards, the result, the bytes and `end`; `none` while it waits. -/
def waitPop (p : Pipe) (popSize : Nat) : Option (Pipe × Int × List UInt8 × Bool) :=
  if p.index ≠ p.size ∨ p.size ≤ 0 ∨ p.stop = true then
    if p.size < 0 then some (destroy, p.size, [], false)
    else if p.size = 0 then some (destroy, 0, [], false)
    else if p.index = p.size ∧ p.stop = true then some (destroy, 0, [], false)
    else
      let readSize := min popSize (p.size - p.index).toNat
      let p' := { p with index := p.index + readSize }
      some (if p'.index = p'.size ∧ p'.stop = true then destroy else p', readSize,
        (p.mem.drop p.index.toNat).take readSize, p'.index = p'.size)
  else none

/-- `Pipe::WaitPush`, where `r` is what the file gives; `none` while it waits. -/
def waitPush (p : Pipe) (r : ReadResult) : Option (Pipe × Int) :=
  if p.index = p.size ∨ p.stop = true then
    if p.stop = true then some (p, 0)
    else some ({ p with mem := r.fill p.mem, index := 0, size := r.size }, r.size)
  else none

end Pipe

/-! ## 2. The stream -/

/-- `pipeNum` and `pipeCap`. -/
structure Config where
  pipeNum : Nat
  pipeCap : Nat
  num_pos : 0 < pipeNum
  cap_pos : 0 < pipeCap

/-- `QUEUE_SIZE` -/
def queueSize : Nat := 3

/-- `StartPreReadThreaded` and `ReadStream::Init`, which fails when it gets no memory, as for no
blocks. -/
def startPreReadThreaded (currentSize blockSize : Nat) (h : 0 < blockSize) : Option Config :=
  let fileBlocks := (currentSize + blockSize - 1) / blockSize
  if hn : 0 < min fileBlocks queueSize then some ⟨min fileBlocks queueSize, blockSize, hn, h⟩
  else none

/-- Where a thread of `StartPushThreaded` is. -/
inductive PushPc
  /-- Before the test of the loop. -/
  | head
  /-- Before or in `WaitPush`. -/
  | push
  /-- Before `retSize` is compared with the capacity of the pipe. -/
  | compare (retSize : Int)
  /-- Before `stopOffset` is written. -/
  | mark
  /-- After the loop, before `stop` of the pipe is set. -/
  | finish
  | done
  deriving DecidableEq

structure Thread where
  offset : Nat
  pc : PushPc

/-- Where the reader is in `ReadStream::WaitPop`. -/
inductive Reader
  | idle
  | loop (popSize readSize : Nat)
  /-- About to return. -/
  | back (popSize : Nat) (ret : Int)
  deriving DecidableEq

structure Stream where
  /-- -1 in the source, which is above all offsets: `none`. -/
  stopOffset : Option Nat
  pipeIndex : Nat
  pipes : Nat → Pipe
  threads : Nat → Thread
  reader : Reader
  /-- All bytes that `WaitPop` has copied, in the order of the buffers. -/
  popped : List UInt8

inductive Event
  /-- A thread goes on; `r` is for the read, if it comes to that. -/
  | thread (i : Nat) (r : ReadResult)
  /-- `ReadStream::WaitPop` is called. -/
  | call (popSize : Nat)
  /-- One turn of its loop. -/
  | pop
  | ret

variable (cfg : Config)

namespace Stream

def init : Stream where
  stopOffset := none
  pipeIndex := 0
  pipes _ := .init cfg.pipeCap
  threads i := ⟨i * cfg.pipeCap, .head⟩
  reader := .idle
  popped := []

/-- The body of a thread of `StartPushThreaded`.  It has a pipe of its own, and shares
`stopOffset` with the other threads. -/
def push (stopOffset : Option Nat) (p : Pipe) (t : Thread) (r : ReadResult) :
    Option (Option Nat × Pipe × Thread) :=
  match t.pc with
  | .head =>
    if ∀ x ∈ stopOffset, t.offset < x then some (stopOffset, p, { t with pc := .push })
    else some (stopOffset, p, { t with pc := .finish })
  | .push => (p.waitPush r).map fun (p, retSize) =>
      (stopOffset, p, { t with pc := .compare retSize })
  | .compare retSize =>
    if retSize ≠ p.capacity then some (stopOffset, p, { t with pc := .mark })
    else some (stopOffset, p, ⟨t.offset + cfg.pipeNum * cfg.pipeCap, .head⟩)
  | .mark => some (some t.offset, p, { t with pc := .finish })
  | .finish => some (stopOffset, { p with stop := true }, { t with pc := .done })
  | .done => none

def setLane (s : Stream) (i : Nat) (r : Option Nat × Pipe × Thread) : Stream :=
  { s with
    stopOffset := r.1
    pipes := update s.pipes i r.2.1
    threads := update s.threads i r.2.2 }

/-- One turn of the loop of `ReadStream::WaitPop`. -/
def pop (s : Stream) (popSize readSize : Nat) : Option Stream :=
  if readSize = popSize then some { s with reader := .back popSize readSize }
  else ((s.pipes s.pipeIndex).waitPop (popSize - readSize)).map fun (p, curSize, bytes, isEnd) =>
    { s with
      pipes := update s.pipes s.pipeIndex p
      pipeIndex := if isEnd then (s.pipeIndex + 1) % cfg.pipeNum else s.pipeIndex
      popped := s.popped ++ bytes
      reader :=
        if curSize < 0 then .back popSize curSize
        else if curSize = 0 then .back popSize readSize
        else .loop popSize (readSize + curSize.toNat) }

def step (s : Stream) : Event → Option Stream
  | .thread i r =>
    if i < cfg.pipeNum then
      (push cfg s.stopOffset (s.pipes i) (s.threads i) r).map (s.setLane i)
    else none
  | .call popSize =>
    match s.reader with
    | .idle => some { s with reader := .loop popSize 0 }
    | _ => none
  | .pop =>
    match s.reader with
    | .loop popSize readSize => s.pop cfg popSize readSize
    | _ => none
  | .ret =>
    match s.reader with
    | .back _ _ => some { s with reader := .idle }
    | _ => none

/-- A block is read with exactly the bytes that are there, up to the size of the block. -/
def Exact (file : List UInt8) (s : Stream) : Event → Prop
  | .thread i r => (s.threads i).pc = .push →
      r = .bytes ((file.drop (s.threads i).offset).take (s.pipes i).capacity)
  | _ => True

end Stream

/-! ## 3. Blocks -/

section Blocks

variable (file : List UInt8)

/-- Block `b` of the file. -/
def block (b : Nat) : List UInt8 := (file.drop (b * cfg.pipeCap)).take cfg.pipeCap

/-- The file ends before block `b`. -/
def Past (b : Nat) : Prop := file.length ≤ b * cfg.pipeCap

/-- The file ends before the end of block `b`. -/
def NotFull (b : Nat) : Prop := file.length < (b + 1) * cfg.pipeCap

variable {cfg file} {b c : Nat}

theorem length_block :
    (block cfg file b).length = min cfg.pipeCap (file.length - b * cfg.pipeCap) := by
  simp [block]

theorem past_iff_length : Past cfg file b ↔ (block cfg file b).length = 0 := by
  have := cfg.cap_pos
  rw [length_block, Past]
  omega

theorem notFull_iff_length : NotFull cfg file b ↔ (block cfg file b).length ≠ cfg.pipeCap := by
  have := cfg.cap_pos
  rw [length_block, NotFull, Nat.succ_mul]
  omega

theorem Past.mono (h : Past cfg file b) (hbc : b ≤ c) : Past cfg file c :=
  Nat.le_trans h (Nat.mul_le_mul_right _ hbc)

theorem Past.notFull (h : Past cfg file b) : NotFull cfg file b := by
  have := cfg.cap_pos
  rw [notFull_iff_length, past_iff_length.mp h]
  omega

theorem NotFull.past (h : NotFull cfg file b) (hbc : b < c) : Past cfg file c :=
  Nat.le_trans (Nat.le_of_lt h) (Nat.mul_le_mul_right _ hbc)

/-- Some more bytes of block `b`. -/
theorem take_append_block {n m : Nat} (hnm : n + m ≤ (block cfg file b).length) :
    file.take (b * cfg.pipeCap + n) ++ ((block cfg file b).drop n).take m =
      file.take (b * cfg.pipeCap + (n + m)) := by
  have hle : m ≤ cfg.pipeCap - n := by
    rw [length_block] at hnm
    omega
  rw [block, drop_take, drop_drop, take_take, Nat.min_eq_left hle,
    ← Nat.add_assoc]
  exact take_add.symm

/-- All of block `b`. -/
theorem take_block_end :
    file.take (b * cfg.pipeCap + (block cfg file b).length) =
      file.take ((b + 1) * cfg.pipeCap) := by
  rw [take_eq_take_iff, length_block, Nat.succ_mul]
  omega

end Blocks

/-! ## 4. A pipe and its thread -/

section Lanes

variable (file : List UInt8)

/-- The thread of a pipe, when `next` is the block that comes into the pipe next. -/
def Loading (next : Nat) (stop : Bool) (t : Thread) : Prop :=
  match t.pc with
  | .head | .push => t.offset = next * cfg.pipeCap ∧ stop = false
  | .compare r => ∃ y, next = y + cfg.pipeNum ∧ t.offset = y * cfg.pipeCap ∧
      r = (block cfg file y).length ∧ stop = false
  | .mark => ∃ y, next = y + cfg.pipeNum ∧ t.offset = y * cfg.pipeCap ∧ NotFull cfg file y ∧
      stop = false
  | .finish => Past cfg file next ∧ stop = false
  | .done => Past cfg file next

/-- A pipe whose turn is at block `b`, while the reader is at block `k`: all blocks before `next`
went into it, and it holds what is left of the last of them. -/
structure Alive (k b next : Nat) (p : Pipe) (t : Thread) : Prop where
  size_pos : 0 < p.size
  capacity : p.capacity = cfg.pipeCap
  content : (p.index = p.size ∧ next = b) ∨
    (0 ≤ p.index ∧ p.index < p.size ∧ next = b + cfg.pipeNum ∧ p.mem = block cfg file b ∧
      p.size = (block cfg file b).length ∧ (b ≠ k → p.index = 0))
  loading : Loading cfg file next p.stop t

/-- A pipe at the end of the file.  If the reader has seen the end before the thread has,
`capacity` is 0, the thread takes this for a full block, and goes on with nothing to do. -/
structure Dead (b : Nat) (p : Pipe) (t : Thread) : Prop where
  size : p.size = 0
  index : p.index = 0
  past : Past cfg file b
  offset : t.pc ≠ .finish → t.pc ≠ .done →
    ∃ y, b ≤ y ∧ y % cfg.pipeNum = b % cfg.pipeNum ∧ t.offset = y * cfg.pipeCap
  compare : ∀ r, t.pc = .compare r → r = 0
  seen : (p.stop = true ∧ p.capacity = 0) ∨
    (p.capacity = cfg.pipeCap ∧ t.pc ≠ .head ∧ t.pc ≠ .push)

def Lane (k b : Nat) (p : Pipe) (t : Thread) : Prop :=
  Dead cfg file b p t ∨ ∃ next, Alive cfg file k b next p t

variable {cfg file} {k b next : Nat} {p : Pipe} {t : Thread}

theorem Alive.next_mod (h : Alive cfg file k b next p t) :
    next % cfg.pipeNum = b % cfg.pipeNum := by
  rcases h.content with ⟨-, rfl⟩ | ⟨-, -, rfl, -⟩
  · rfl
  · exact Nat.add_mod_right ..

/-- The reader has seen the end before the thread starts over. -/
theorem Dead.seen_head (h : Dead cfg file b p t) (hpc : t.pc = .head) :
    p.stop = true ∧ p.capacity = 0 :=
  h.seen.resolve_right fun hseen => hseen.2.1 hpc

variable {p' : Pipe} {r : ReadResult} {retSize : Int} {stop : Bool}

/-! A thread goes on. -/

section

variable (h : Lane cfg file k b p t)

include h

/-- It does so in the same way while there is something to read and at the end of the file. -/
theorem Lane.goto {stop : Bool} {t' : Thread}
    (hdead : Dead cfg file b p t → Dead cfg file b { p with stop := stop } t')
    (halive : ∀ next, next % cfg.pipeNum = b % cfg.pipeNum → Loading cfg file next p.stop t →
      Loading cfg file next stop t') : Lane cfg file k b { p with stop := stop } t' := by
  rcases h with hd | ⟨next, ha⟩
  · exact .inl (hdead hd)
  · exact .inr ⟨next, ha.size_pos, ha.capacity, ha.content, halive next ha.next_mod ha.loading⟩

theorem Lane.head_push (hpc : t.pc = .head) : Lane cfg file k b p { t with pc := .push } := by
  refine h.goto (fun hd => ?_) fun next _ hl => ?_
  · have hoff := hd.offset (by simp [hpc]) (by simp [hpc])
    exact ⟨hd.size, hd.index, hd.past, fun _ _ => hoff, nofun, Or.inl (hd.seen_head hpc)⟩
  · simpa only [Loading, hpc] using hl

theorem Lane.head_finish (hpc : t.pc = .head)
    (hpast : ∀ y, y % cfg.pipeNum = b % cfg.pipeNum → t.offset = y * cfg.pipeCap →
      Past cfg file y) : Lane cfg file k b p { t with pc := .finish } := by
  refine h.goto (fun hd => ?_) fun next hnext hl => ?_
  · exact ⟨hd.size, hd.index, hd.past, fun hne => absurd rfl hne, nofun,
      Or.inl (hd.seen_head hpc)⟩
  · simp only [Loading, hpc] at hl
    exact ⟨hpast next hnext hl.1, hl.2⟩

/-- **A block comes into the pipe**, or the end of the file. -/
theorem Lane.push (hpc : t.pc = .push) (hr : r = .bytes ((file.drop t.offset).take p.capacity))
    (hp : p.waitPush r = some (p', retSize)) :
    Lane cfg file k b p' { t with pc := .compare retSize } := by
  rcases h with hd | ⟨next, ha⟩
  · rcases hd.seen with ⟨hstop, hcap⟩ | ⟨-, -, hne⟩
    · rw [Pipe.waitPush, if_pos (.inr hstop), if_pos hstop] at hp
      obtain ⟨rfl, rfl⟩ := Prod.mk.inj (Option.some.inj hp)
      have hoff := hd.offset (by simp [hpc]) (by simp [hpc])
      refine .inl ⟨hd.size, hd.index, hd.past, fun _ _ => hoff, fun r hr => ?_,
        Or.inl ⟨hstop, hcap⟩⟩
      cases hr
      rfl
    · exact absurd hpc hne
  · have hl := ha.loading
    simp only [Loading, hpc] at hl
    obtain ⟨hoff, hstop⟩ := hl
    rcases ha.content with ⟨hidx, rfl⟩ | ⟨-, hlt, -⟩
    · have hblock : r = .bytes (block cfg file next) := by rw [hr, hoff, ha.capacity, block]
      rw [Pipe.waitPush, if_pos (.inl hidx), if_neg (by simp [hstop]), hblock] at hp
      obtain ⟨rfl, rfl⟩ := Prod.mk.inj (Option.some.inj hp)
      by_cases hpast : Past cfg file next
      · have hzero : ((block cfg file next).length : Int) = 0 := by
          rw [past_iff_length.mp hpast]
          rfl
        refine .inl ⟨hzero, rfl, hpast, fun _ _ => ⟨next, le_refl _, rfl, hoff⟩, fun r hr => ?_,
          Or.inr ⟨ha.capacity, by simp, by simp⟩⟩
        cases hr
        exact hzero
      · have hpos : 0 < (block cfg file next).length :=
          Nat.pos_of_ne_zero fun h0 => hpast (past_iff_length.mpr h0)
        have hsize : (0 : Int) < (ReadResult.bytes (block cfg file next)).size :=
          Int.natCast_pos.mpr hpos
        exact .inr ⟨next + cfg.pipeNum, hsize, ha.capacity,
          Or.inr ⟨le_refl _, hsize, rfl, rfl, rfl, fun _ => rfl⟩, next, rfl, hoff, rfl, hstop⟩
    · -- the thread waits for the reader
      rw [Pipe.waitPush, if_neg (by simp [hstop, hlt.ne])] at hp
      cases hp

theorem Lane.compare_mark {r : Int} (hpc : t.pc = .compare r)
    (hr : r ≠ p.capacity) : Lane cfg file k b p { t with pc := .mark } := by
  rcases h with hd | ⟨next, ha⟩
  · have hzero := hd.compare r hpc
    have hoff := hd.offset (by simp [hpc]) (by simp [hpc])
    refine .inl ⟨hd.size, hd.index, hd.past, fun _ _ => hoff, nofun, Or.inr ?_⟩
    rcases hd.seen with ⟨-, hcap⟩ | ⟨hcap, -⟩
    · exact absurd (by rw [hzero, hcap]; rfl) hr
    · exact ⟨hcap, nofun, nofun⟩
  · have hl := ha.loading
    simp only [Loading, hpc] at hl
    obtain ⟨y, hnext, hoff, rfl, hstop⟩ := hl
    rw [ha.capacity] at hr
    have hfull : NotFull cfg file y := notFull_iff_length.mpr fun heq => hr (by rw [heq])
    exact .inr ⟨next, ha.size_pos, ha.capacity, ha.content, y, hnext, hoff, hfull, hstop⟩

theorem Lane.compare_head {r : Int} (hpc : t.pc = .compare r)
    (hr : r = p.capacity) : Lane cfg file k b p ⟨t.offset + cfg.pipeNum * cfg.pipeCap, .head⟩ := by
  refine h.goto (fun hd => ?_) fun next _ hl => ?_
  · have hzero := hd.compare r hpc
    obtain ⟨y, hby, hmod, hoff⟩ := hd.offset (by simp [hpc]) (by simp [hpc])
    refine ⟨hd.size, hd.index, hd.past,
      fun _ _ => ⟨y + cfg.pipeNum, Nat.le_add_right_of_le hby, ?_, ?_⟩, nofun, Or.inl ?_⟩
    · rw [Nat.add_mod_right, hmod]
    · rw [hoff, Nat.add_mul]
    · refine hd.seen.resolve_right fun hseen => ?_
      have := cfg.cap_pos
      omega
  · simp only [Loading, hpc] at hl
    obtain ⟨y, hnext, hoff, -, hstop⟩ := hl
    refine ⟨?_, hstop⟩
    rw [hnext, hoff, Nat.add_mul]

/-- A thread that is about to write `stopOffset` has seen the end of the file. -/
theorem Lane.mark (hpc : t.pc = .mark) :
    ∃ y, y % cfg.pipeNum = b % cfg.pipeNum ∧ t.offset = y * cfg.pipeCap ∧ NotFull cfg file y := by
  rcases h with hd | ⟨next, ha⟩
  · obtain ⟨y, hby, hmod, hoff⟩ := hd.offset (by simp [hpc]) (by simp [hpc])
    exact ⟨y, hmod, hoff, (hd.past.mono hby).notFull⟩
  · have hl := ha.loading
    simp only [Loading, hpc] at hl
    obtain ⟨y, hnext, hoff, hfull, -⟩ := hl
    refine ⟨y, ?_, hoff, hfull⟩
    rw [← ha.next_mod, hnext, Nat.add_mod_right]

theorem Lane.mark_finish (hpc : t.pc = .mark) : Lane cfg file k b p { t with pc := .finish } := by
  refine h.goto (fun hd => ?_) fun next _ hl => ?_
  · exact ⟨hd.size, hd.index, hd.past, fun hne => absurd rfl hne, nofun,
      hd.seen.imp_right fun hseen => ⟨hseen.1, nofun, nofun⟩⟩
  · simp only [Loading, hpc] at hl
    obtain ⟨y, hnext, -, hfull, hstop⟩ := hl
    exact ⟨hfull.past (by have := cfg.num_pos; omega), hstop⟩

theorem Lane.finish_done (hpc : t.pc = .finish) :
    Lane cfg file k b { p with stop := true } { t with pc := .done } := by
  refine h.goto (fun hd => ?_) fun next _ hl => ?_
  · exact ⟨hd.size, hd.index, hd.past, fun _ hne => absurd rfl hne, nofun,
      hd.seen.imp (fun hseen => ⟨rfl, hseen.2⟩) fun hseen => ⟨hseen.1, nofun, nofun⟩⟩
  · simp only [Loading, hpc] at hl
    exact hl.1

end

/-! The reader takes bytes from the pipe whose turn it is. -/

/-- How much of its block a pipe has given out. -/
def progress (p : Pipe) : Nat := if p.index < p.size then p.index.toNat else 0

/-- A new block comes when nothing of the last one is left. -/
theorem progress_waitPush (h : p.waitPush r = some (p', retSize)) : progress p' = progress p := by
  unfold Pipe.waitPush at h
  (repeat' split at h) <;> cases h
  · rfl
  · rename_i hwait hstop
    have hidx : p.index = p.size := hwait.resolve_right hstop
    simp [progress, hidx]

theorem Dead.destroy (h : Dead cfg file b p t) : Dead cfg file b .destroy t :=
  ⟨rfl, rfl, h.past, h.offset, h.compare, Or.inl ⟨rfl, rfl⟩⟩

/-- Only a thread that is done has set `stop`. -/
theorem Loading.done (h : Loading cfg file next stop t) (hstop : stop = true) :
    t.pc = .done ∧ Past cfg file next := by
  subst hstop
  unfold Loading at h
  split at h <;> try simp at h
  exact ⟨‹_›, h⟩

/-- ... and when the reader has taken everything, this is the end. -/
theorem Loading.destroy (h : Loading cfg file next stop t) (hstop : stop = true) :
    Dead cfg file next .destroy t := by
  obtain ⟨hpc, hpast⟩ := h.done hstop
  exact ⟨rfl, rfl, hpast, fun _ hne => absurd hpc hne, fun r hr => by simp [hpc] at hr,
    Or.inl ⟨rfl, rfl⟩⟩

/-- **The reader takes bytes from the pipe** whose turn it is: the end of the file, some bytes of
block `k`, or the rest of it. -/
theorem Lane.pop {m : Nat} {ret : Int} {bytes : List UInt8} {isEnd : Bool}
    (h : Lane cfg file k k p t) (hm : 0 < m) (hp : p.waitPop m = some (p', ret, bytes, isEnd)) :
    (ret = 0 ∧ bytes = [] ∧ isEnd = false ∧ Past cfg file k ∧ progress p = progress p' ∧
        Lane cfg file k k p' t) ∨
      (0 < ret ∧ ret ≤ m ∧ isEnd = false ∧ Lane cfg file k k p' t ∧
        file.take (k * cfg.pipeCap + progress p) ++ bytes =
          file.take (k * cfg.pipeCap + progress p')) ∨
      (0 < ret ∧ ret ≤ m ∧ isEnd = true ∧ Lane cfg file (k + 1) (k + cfg.pipeNum) p' t ∧
        progress p' = 0 ∧
        file.take (k * cfg.pipeCap + progress p) ++ bytes = file.take ((k + 1) * cfg.pipeCap)) := by
  rcases h with hd | ⟨next, ha⟩
  · rw [Pipe.waitPop, if_pos (by simp [hd.size]), if_neg (by simp [hd.size]), if_pos hd.size] at hp
    obtain ⟨rfl, rfl, rfl, rfl⟩ :
        Pipe.destroy = p' ∧ (0 : Int) = ret ∧ [] = bytes ∧ false = isEnd := by
      simpa using hp
    refine .inl ⟨rfl, rfl, rfl, hd.past, ?_, Or.inl hd.destroy⟩
    simp [progress, hd.size, hd.index, Pipe.destroy]
  · have hpos := ha.size_pos
    rcases ha.content with ⟨hidx, rfl⟩ | ⟨hge, hlt, hnext, hmem, hsize, -⟩
    · by_cases hstop : p.stop = true
      · rw [Pipe.waitPop, if_pos (by simp [hstop]), if_neg (by omega), if_neg hpos.ne',
          if_pos ⟨hidx, hstop⟩] at hp
        obtain ⟨rfl, rfl, rfl, rfl⟩ :
            Pipe.destroy = p' ∧ (0 : Int) = ret ∧ [] = bytes ∧ false = isEnd := by simpa using hp
        have hdead := ha.loading.destroy hstop
        refine .inl ⟨rfl, rfl, rfl, hdead.past, ?_, Or.inl hdead⟩
        simp [progress, hidx, Pipe.destroy]
      · rw [Pipe.waitPop, if_neg (by simp [hstop, hidx, hpos])] at hp
        cases hp
    · rw [Pipe.waitPop, if_pos (.inl hlt.ne), if_neg (by omega), if_neg hpos.ne',
        if_neg fun hf => hlt.ne hf.1] at hp
      obtain ⟨i, hi⟩ := Int.eq_ofNat_of_zero_le hge
      obtain ⟨n, hn⟩ : ∃ n, n = min m (p.size - p.index).toNat := ⟨_, rfl⟩
      have hprog : progress p = i := by rw [progress, if_pos hlt, hi, Int.toNat_natCast]
      have hin : i + n ≤ (block cfg file k).length := by omega
      have htake := take_append_block (b := k) hin
      simp only [← hn] at hp
      simp only [hi, hmem, Int.toNat_natCast, Option.some.injEq, Prod.mk.injEq] at hp
      obtain ⟨rfl, rfl, rfl, rfl⟩ := hp
      refine .inr ?_
      by_cases hend : (i : Int) + n = p.size
      · refine .inr ⟨by omega, by omega, by simpa using hend, ?_, ?_, ?_⟩
        · by_cases hstop : p.stop = true
          · rw [if_pos ⟨hend, hstop⟩, ← hnext]
            exact .inl (ha.loading.destroy hstop)
          · rw [if_neg fun hf => hstop hf.2]
            exact .inr ⟨next, hpos, ha.capacity, Or.inl ⟨hend, hnext⟩, ha.loading⟩
        · split
          · rfl
          · simp [progress, hend]
        · rw [hprog, htake, ← take_block_end]
          congr 2
          omega
      · have hlt' : (i : Int) + n < p.size := by omega
        refine .inl ⟨by omega, by omega, by simpa using hend, ?_, ?_⟩
        · rw [if_neg fun hf => hend hf.1]
          exact .inr ⟨next, hpos, ha.capacity,
            Or.inr ⟨by dsimp only; omega, hlt', hnext, rfl, hsize, fun hne => absurd rfl hne⟩,
            ha.loading⟩
        · rw [hprog, htake, if_neg fun hf => hend hf.1, progress, if_pos hlt']
          congr 2

end Lanes

/-! ## 5. The ring

The reader is at block `k`; the pipes have their turns at the blocks from `k` to
`k + pipeNum - 1`. -/

section Ring

variable (file : List UInt8)

structure Inv (k : Nat) (s : Stream) : Prop where
  index : s.pipeIndex = k % cfg.pipeNum
  lanes : ∀ b, k ≤ b → b < k + cfg.pipeNum →
    Lane cfg file k b (s.pipes (b % cfg.pipeNum)) (s.threads (b % cfg.pipeNum))
  popped : s.popped = file.take (k * cfg.pipeCap + progress (s.pipes (k % cfg.pipeNum)))
  stopOffset : ∀ x ∈ s.stopOffset, ∃ y, x = y * cfg.pipeCap ∧ NotFull cfg file y ∧
    ((s.threads (y % cfg.pipeNum)).pc = .finish ∨ (s.threads (y % cfg.pipeNum)).pc = .done)
  loop : ∀ popSize readSize, s.reader = .loop popSize readSize → readSize ≤ popSize
  back : ∀ popSize, s.reader = .back popSize 0 → 0 < popSize → s.popped = file

variable {cfg file} {k : Nat} {s s' : Stream}

theorem inv_init : Inv cfg file 0 (Stream.init cfg) where
  index := (Nat.zero_mod _).symm
  lanes b _ hb := by
    have hmod : b % cfg.pipeNum = b := Nat.mod_eq_of_lt (by omega)
    have hpos : (0 : Int) < cfg.pipeCap := Int.natCast_pos.mpr cfg.cap_pos
    rw [hmod]
    exact .inr ⟨b, hpos, rfl, Or.inl ⟨rfl, rfl⟩, rfl, rfl⟩
  popped := by simp [Stream.init, Pipe.init, progress]
  stopOffset _ h := by cases h
  loop _ _ h := by cases h
  back _ h := by cases h

variable {i b : Nat} {r : ReadResult} {l : Option Nat × Pipe × Thread} {p p' : Pipe} {t : Thread}

/-- Every pipe has its turn at one of the blocks. -/
theorem exists_turn (hi : i < cfg.pipeNum) (k : Nat) :
    ∃ b, k ≤ b ∧ b < k + cfg.pipeNum ∧ b % cfg.pipeNum = i := by
  refine ⟨k + (i + (cfg.pipeNum - k % cfg.pipeNum)) % cfg.pipeNum, Nat.le_add_right .., ?_, ?_⟩
  · exact Nat.add_lt_add_left (Nat.mod_lt _ cfg.num_pos) k
  · have hlt := Nat.mod_lt k cfg.num_pos
    rw [Nat.add_mod_mod, ← Nat.mod_add_mod,
      show k % cfg.pipeNum + (i + (cfg.pipeNum - k % cfg.pipeNum)) = i + cfg.pipeNum by omega,
      Nat.add_mod_right, Nat.mod_eq_of_lt hi]

/-- What a thread may do to its pipe and to `stopOffset`. -/
theorem push_spec (h : Inv cfg file k s) (hbi : b % cfg.pipeNum = i)
    (hlane : Lane cfg file k b (s.pipes i) (s.threads i)) (hr : s.Exact file (.thread i r))
    (hl : Stream.push cfg s.stopOffset (s.pipes i) (s.threads i) r = some l) :
    Lane cfg file k b l.2.1 l.2.2 ∧ progress l.2.1 = progress (s.pipes i) ∧
      ((s.threads i).pc = .finish ∨ (s.threads i).pc = .done →
        l.2.2.pc = .finish ∨ l.2.2.pc = .done) ∧
      (l.1 = s.stopOffset ∨ (l.2.2.pc = .finish ∧
        ∃ y, y % cfg.pipeNum = i ∧ l.1 = some (y * cfg.pipeCap) ∧ NotFull cfg file y)) := by
  obtain ⟨p, hp⟩ : ∃ p, p = s.pipes i := ⟨_, rfl⟩
  obtain ⟨t, ht⟩ : ∃ t, t = s.threads i := ⟨_, rfl⟩
  rw [Stream.Exact, ← hp, ← ht] at hr
  rw [← hp, ← ht] at hlane hl ⊢
  unfold Stream.push at hl
  split at hl
  · rename_i hpc
    split at hl
    · cases hl
      exact ⟨hlane.head_push hpc, rfl, by simp [hpc], Or.inl rfl⟩
    · rename_i hstop
      cases hl
      refine ⟨hlane.head_finish hpc fun y hy hoff => ?_, rfl, by simp [hpc], Or.inl rfl⟩
      -- another thread has seen the end of the file, in a block before this one
      push Not at hstop
      obtain ⟨x, hx, hle⟩ := hstop
      obtain ⟨z, rfl, hfull, hdone⟩ := h.stopOffset x hx
      have hzy : z ≤ y := Nat.le_of_mul_le_mul_right (hoff ▸ hle) cfg.cap_pos
      have hne : z ≠ y := by
        rintro rfl
        rw [hy, hbi, ← ht, hpc] at hdone
        simp at hdone
      exact hfull.past (by omega)
  · rename_i hpc
    obtain ⟨⟨p', retSize⟩, hpush, rfl⟩ := Option.map_eq_some_iff.mp hl
    exact ⟨hlane.push hpc (hr hpc) hpush, progress_waitPush hpush, by simp [hpc], Or.inl rfl⟩
  · rename_i retSize hpc
    split at hl
    · rename_i hne
      cases hl
      exact ⟨hlane.compare_mark hpc hne, rfl, by simp [hpc], Or.inl rfl⟩
    · rename_i heq
      cases hl
      exact ⟨hlane.compare_head hpc (not_not.mp heq), rfl, by simp [hpc], Or.inl rfl⟩
  · rename_i hpc
    cases hl
    obtain ⟨y, hy, hoff, hfull⟩ := hlane.mark hpc
    exact ⟨hlane.mark_finish hpc, rfl, by simp, Or.inr ⟨rfl, y, hy.trans hbi, by rw [hoff], hfull⟩⟩
  · rename_i hpc
    cases hl
    exact ⟨hlane.finish_done hpc, rfl, by simp, Or.inl rfl⟩
  · cases hl

/-- **A thread goes on.** -/
theorem Inv.thread (h : Inv cfg file k s) (hi : i < cfg.pipeNum) (hr : s.Exact file (.thread i r))
    (hl : Stream.push cfg s.stopOffset (s.pipes i) (s.threads i) r = some l) :
    Inv cfg file k (s.setLane i l) := by
  have hspec := fun b hbi hlane => push_spec (b := b) h hbi hlane hr hl
  obtain ⟨b, hkb, hb, hbi⟩ := exists_turn hi k
  obtain ⟨-, hprog, hpc, hstop⟩ := hspec b hbi (hbi ▸ h.lanes b hkb hb)
  refine ⟨h.index, fun c hkc hc => ?_, ?_, fun x hx => ?_, h.loop, h.back⟩
  · have hlane := h.lanes c hkc hc
    by_cases hci : c % cfg.pipeNum = i
    · rw [hci] at hlane
      simpa [Stream.setLane, hci] using (hspec c hci hlane).1
    · simpa [Stream.setLane, update_of_ne hci] using hlane
  · show s.popped = _
    rw [h.popped]
    congr 2
    by_cases hki : k % cfg.pipeNum = i
    · simp [Stream.setLane, hki, hprog]
    · simp [Stream.setLane, update_of_ne hki]
  · replace hx : x ∈ l.1 := hx
    rcases hstop with heq | ⟨hdone, y, hy, heq, hfull⟩
    · obtain ⟨y, rfl, hfull, hdone⟩ := h.stopOffset x (heq ▸ hx)
      refine ⟨y, rfl, hfull, ?_⟩
      by_cases hyi : y % cfg.pipeNum = i
      · rw [hyi] at hdone ⊢
        simpa [Stream.setLane] using hpc hdone
      · simpa [Stream.setLane, update_of_ne hyi] using hdone
    · obtain rfl : y * cfg.pipeCap = x := by simpa [heq] using hx
      exact ⟨y, rfl, hfull, Or.inl (by simpa [Stream.setLane, hy] using hdone)⟩

/-- The lane that the reader leaves has its next turn after all others. -/
theorem mod_ne_of_window (hkb : k < b) (hb : b < k + cfg.pipeNum) :
    b % cfg.pipeNum ≠ k % cfg.pipeNum := by
  intro heq
  have hdvd : cfg.pipeNum ∣ b - k := (Nat.modEq_iff_dvd' (le_of_lt hkb)).mp heq.symm
  have := Nat.le_of_dvd (by omega) hdvd
  omega

/-- A lane of another block does not care how far the reader is, as long as it has not got there. -/
theorem Lane.advance (h : Lane cfg file k b p t) (hne : b ≠ k) : Lane cfg file (k + 1) b p t := by
  rcases h with hd | ⟨next, ha⟩
  · exact .inl hd
  · refine .inr ⟨next, ha.size_pos, ha.capacity, ?_, ha.loading⟩
    rcases ha.content with hempty | ⟨hge, hlt, hnext, hmem, hsize, hidx⟩
    · exact .inl hempty
    · exact .inr ⟨hge, hlt, hnext, hmem, hsize, fun _ => hidx hne⟩

/-- A pipe that the reader has not come to has given out nothing. -/
theorem Lane.progress_eq_zero (h : Lane cfg file k b p t) (hne : b ≠ k) : progress p = 0 := by
  rcases h with hd | ⟨next, ha⟩
  · simp [progress, hd.size, hd.index]
  · rcases ha.content with ⟨hidx, -⟩ | ⟨-, -, -, -, -, hidx⟩
    · simp [progress, hidx]
    · simp [progress, hidx hne]

/-- The pipe of the reader changes, and it stays there. -/
theorem Inv.lanes_update (h : Inv cfg file k s)
    (hlane : Lane cfg file k k p' (s.threads (k % cfg.pipeNum))) (b : Nat) (hkb : k ≤ b)
    (hb : b < k + cfg.pipeNum) : Lane cfg file k b
      (update s.pipes (k % cfg.pipeNum) p' (b % cfg.pipeNum))
      (s.threads (b % cfg.pipeNum)) := by
  rcases Nat.eq_or_lt_of_le hkb with rfl | hlt
  · rwa [update_self]
  · rw [update_of_ne (mod_ne_of_window hlt hb)]
    exact h.lanes b hkb hb

/-- ... and it goes on to the next one. -/
theorem Inv.lanes_advance (h : Inv cfg file k s)
    (hlane : Lane cfg file (k + 1) (k + cfg.pipeNum) p' (s.threads (k % cfg.pipeNum))) (b : Nat)
    (hkb : k + 1 ≤ b) (hb : b < k + 1 + cfg.pipeNum) : Lane cfg file (k + 1) b
      (update s.pipes (k % cfg.pipeNum) p' (b % cfg.pipeNum))
      (s.threads (b % cfg.pipeNum)) := by
  rcases Nat.lt_or_ge b (k + cfg.pipeNum) with hlt | hge
  · rw [update_of_ne (mod_ne_of_window hkb hlt)]
    exact (h.lanes b (by omega) hlt).advance (by omega)
  · obtain rfl : b = k + cfg.pipeNum := by omega
    rwa [Nat.add_mod_right, update_self]

/-- **The reader takes bytes.** -/
theorem Inv.pop {popSize readSize : Nat} (h : Inv cfg file k s) (hle : readSize ≤ popSize)
    (hs : s.pop cfg popSize readSize = some s') : ∃ k', Inv cfg file k' s' := by
  unfold Stream.pop at hs
  split at hs
  · rename_i heq
    cases hs
    refine ⟨k, h.index, h.lanes, h.popped, h.stopOffset, nofun,
      fun n hback hpos => ?_⟩
    obtain ⟨rfl, hzero⟩ : popSize = n ∧ (readSize : Int) = 0 := by simpa using hback
    omega
  · rename_i hne
    obtain ⟨⟨p', ret, bytes, isEnd⟩, hp, rfl⟩ := Option.map_eq_some_iff.mp hs
    rw [h.index] at hp
    have hk : k < k + cfg.pipeNum := Nat.lt_add_of_pos_right cfg.num_pos
    have hself : update s.pipes (k % cfg.pipeNum) p' (k % cfg.pipeNum) = p' :=
      update_self ..
    rcases (h.lanes k (le_refl k) hk).pop (by omega) hp with
      ⟨rfl, rfl, rfl, hpast, hprog, hlane⟩ | ⟨hpos, hret, rfl, hlane, htake⟩ |
        ⟨hpos, hret, rfl, hlane, hzero, htake⟩
    · have hall : s.popped = file := by
        rw [h.popped]
        exact take_of_length_le (Nat.le_add_right_of_le hpast)
      refine ⟨k, h.index, ?_, ?_, h.stopOffset, fun _ _ hl => (by simp at hl), fun _ _ _ => ?_⟩
      · simpa only [h.index] using h.lanes_update hlane
      · simp only [h.index, hself, append_nil, ← hprog]
        exact h.popped
      · simpa using hall
    · have hne0 : ¬ ret < 0 ∧ ret ≠ 0 := by omega
      refine ⟨k, h.index, ?_, ?_, h.stopOffset, fun n m hl => ?_, fun n hback => ?_⟩
      · simpa only [h.index] using h.lanes_update hlane
      · simp only [h.index, hself, h.popped]
        exact htake
      · simp only [hne0.1, hne0.2, if_false, Reader.loop.injEq] at hl
        omega
      · simp [hne0.1, hne0.2] at hback
    · have hne0 : ¬ ret < 0 ∧ ret ≠ 0 := by omega
      have hlanes := h.lanes_advance hlane
      refine ⟨k + 1, ?_, ?_, ?_, h.stopOffset, fun n m hl => ?_, fun n hback => ?_⟩
      · simp only [if_true, h.index, Nat.mod_add_mod]
      · simpa only [h.index] using hlanes
      · -- the next pipe has given out nothing of its block
        have hnext : progress (update s.pipes (k % cfg.pipeNum) p'
            ((k + 1) % cfg.pipeNum)) = 0 := by
          by_cases hmod : (k + 1) % cfg.pipeNum = k % cfg.pipeNum
          · rw [hmod, hself, hzero]
          · rw [update_of_ne hmod]
            have hlt : k + 1 < k + cfg.pipeNum := by
              rcases Nat.lt_or_ge 1 cfg.pipeNum with hlt | hge
              · omega
              · have hone : cfg.pipeNum = 1 := Nat.le_antisymm hge cfg.num_pos
                simp [hone, Nat.mod_one] at hmod
            exact (h.lanes (k + 1) (by omega) hlt).progress_eq_zero (by omega)
        simp only [h.index, hnext, h.popped]
        exact htake
      · simp only [hne0.1, hne0.2, if_false, Reader.loop.injEq] at hl
        omega
      · simp [hne0.1, hne0.2] at hback

/-- **One step.** -/
theorem inv_step {e : Event} (h : Inv cfg file k s) (he : s.Exact file e)
    (hs : s.step cfg e = some s') : ∃ k', Inv cfg file k' s' := by
  cases e <;> simp only [Stream.step] at hs <;> split at hs <;> try cases hs
  · obtain ⟨l, hl, rfl⟩ := Option.map_eq_some_iff.mp hs
    exact ⟨k, h.thread ‹_› he hl⟩
  · rename_i popSize _ _
    refine ⟨k, h.index, h.lanes, h.popped, h.stopOffset, fun n m hl => ?_, fun n hl => ?_⟩
    · obtain ⟨-, rfl⟩ : popSize = n ∧ 0 = m := by simpa using hl
      exact Nat.zero_le _
    · cases hl
  · exact h.pop (h.loop _ _ ‹_›) hs
  · exact ⟨k, h.index, h.lanes, h.popped, h.stopOffset, nofun,
      nofun⟩

end Ring

instance (file : List UInt8) (s : Stream) : (e : Event) → Decidable (s.Exact file e)
  | .thread _ _ => inferInstanceAs (Decidable (_ → _))
  | .call _ | .pop | .ret => isTrue trivial

/-- A file that has any bytes gets a stream. -/
theorem startPreReadThreaded_isSome_iff {currentSize blockSize : Nat} (h : 0 < blockSize) :
    (startPreReadThreaded currentSize blockSize h).isSome ↔ 0 < currentSize := by
  have hblocks : 0 < (currentSize + blockSize - 1) / blockSize ↔ 0 < currentSize := by
    rw [Nat.div_pos_iff]
    omega
  simp only [startPreReadThreaded]
  split
  · rename_i hn
    simpa using hblocks.mp (Nat.lt_min.mp hn).1
  · rename_i hn
    have hzero : ¬ 0 < currentSize := fun hpos =>
      hn (Nat.lt_min.mpr ⟨hblocks.mpr hpos, by decide⟩)
    simpa using hzero

end FalconFS.ReadStream
