import DripOS.Fs.Pipe
import DripOS.Fs.PipeTable

/-!
# The pointers of pipes

`create_pipe`, `pipe_write` and `pipe_read` of `src/fs/pipe.c` with the table of pipes.  A write
that misses `n` bytes gets `n / 4096 + 1` more, which is enough for one byte only.

* `Pipe.InBuffer.write` : a write keeps the pointers in the buffer, and stores in it, if it ends at
  most one byte behind it;
* `Pipes.lookupPipe_of_run` : the table of pipes is that of `PipeSys`;
* `Pipes.pointers_in_buffer` : **the pointers of every pipe stay in its buffer** in runs of such
  calls.
-/

namespace DripOS

open List

namespace Pipe

variable {p p' : Pipe} {data : List UInt8} {count : ℕ}

/-- The places in the buffer at which `pipe_write` stores the bytes. -/
def stores (p : Pipe) (data : List UInt8) : List ℕ := List.range' p.writePointer data.length

/-- `buffer <= read_pointer <= write_pointer <= buffer + buffer_size`, with a size of 64 bits. -/
structure InBuffer (p : Pipe) : Prop where
  le : p.readPointer ≤ p.writePointer
  inside : p.writePointer ≤ p.bufferSize
  size : p.bufferSize < 2 ^ 64

theorem inBuffer_init : init.InBuffer := ⟨le_rfl, Nat.zero_le _, by decide⟩

theorem le_capacity (p : Pipe) : p.bufferSize ≤ p.capacity := by
  unfold capacity
  omega

theorem InBuffer.space_eq (h : p.InBuffer) : p.space = p.bufferSize - p.writePointer := by
  have hinside := h.inside
  have hsize := h.size
  unfold space
  omega

/-- The pipe after the test of `pipe_write` for space. -/
def fitted (p : Pipe) (count : ℕ) : Pipe := if p.space < count then p.grow count else p

theorem write_eq (p : Pipe) (data : List UInt8) :
    p.write data = (p.fitted data.length).store data := by
  unfold write fitted
  split_ifs <;> rfl

@[simp] theorem readPointer_fitted : (p.fitted count).readPointer = p.readPointer := by
  unfold fitted
  split_ifs <;> rfl

@[simp] theorem writePointer_fitted : (p.fitted count).writePointer = p.writePointer := by
  unfold fitted
  split_ifs <;> rfl

theorem bufferSize_grow (p : Pipe) (count : ℕ) :
    (p.grow count).bufferSize =
      p.bufferSize + (count - p.space + 1 + 0x1000 - 1) % 2 ^ 64 / 0x1000 :=
  rfl

/-- One byte more than the space fits: the buffer grows by one byte. -/
theorem InBuffer.bufferSize_fitted (h : p.InBuffer)
    (hend : p.writePointer + count ≤ p.bufferSize + 1) :
    (p.fitted count).bufferSize = max p.bufferSize (p.writePointer + count) := by
  have hinside := h.inside
  have hspace := h.space_eq
  unfold fitted
  split_ifs with hlt
  · have hmissing : count - p.space + 1 + 0x1000 - 1 = 0x1001 := by omega
    rw [bufferSize_grow, hmissing]
    omega
  · omega

theorem store_eq_ok (h : p.store data = .ok p') :
    p'.readPointer = p.readPointer ∧ p'.writePointer = p.writePointer + data.length ∧
      p'.bufferSize = p.bufferSize ∧ ∀ i, i ∉ p.stores data → p'.buffer i = p.buffer i := by
  unfold store at h
  split_ifs at h
  cases h
  refine ⟨rfl, rfl, rfl, fun i hi => if_neg fun hin => hi ?_⟩
  exact mem_range'_1.2 hin

theorem write_ok (h : p.write data = .ok p') :
    p'.readPointer = p.readPointer ∧ p'.writePointer = p.writePointer + data.length ∧
      p'.bufferSize = (p.fitted data.length).bufferSize ∧
      ∀ i, i ∉ p.stores data → p'.buffer i = (p.fitted data.length).buffer i := by
  rw [write_eq] at h
  obtain ⟨hread, hwrite, hsize, hbuffer⟩ := store_eq_ok h
  rw [readPointer_fitted] at hread
  rw [writePointer_fitted] at hwrite
  refine ⟨hread, hwrite, hsize, fun i hi => hbuffer i ?_⟩
  rwa [stores, writePointer_fitted]

/-- A write that ends in the mapped pages returns. -/
theorem exists_write_ok (h : p.writePointer + data.length ≤ (p.fitted data.length).capacity) :
    ∃ q, p.write data = .ok q := by
  rw [write_eq]
  unfold store
  rw [if_pos (by rwa [writePointer_fitted])]
  exact ⟨_, rfl⟩

/-- A write that ends at most one byte behind the buffer keeps the pointers and stores in the
buffer. -/
theorem InBuffer.write (h : p.InBuffer) (haddr : p.writePointer + data.length < 2 ^ 64)
    (hend : p.writePointer + data.length ≤ p.bufferSize + 1) :
    ∃ q, p.write data = .ok q ∧ q.InBuffer ∧ ∀ i ∈ p.stores data, i < q.bufferSize := by
  have hfitted := h.bufferSize_fitted hend
  have hle := (le_max_right _ _).trans_eq hfitted.symm
  obtain ⟨q, hq⟩ := exists_write_ok (hle.trans (le_capacity _))
  obtain ⟨hread, hwrite, hsize, -⟩ := write_ok hq
  refine ⟨q, hq, ⟨?_, ?_, ?_⟩, fun i hi => ?_⟩
  · rw [hread, hwrite]
    exact h.le.trans (Nat.le_add_right _ _)
  · rw [hwrite, hsize]
    exact hle
  · rw [hsize, hfitted]
    exact max_lt h.size haddr
  · rw [hsize]
    exact (mem_range'_1.1 hi).2.trans_le hle

/-- A read moves the pointers to the beginning, or leaves them alone. -/
theorem InBuffer.read (h : p.InBuffer) (hr : p.read count = .ok (data, p')) : p'.InBuffer := by
  unfold Pipe.read at hr
  dsimp only at hr
  split_ifs at hr
  · cases hr
    exact ⟨le_rfl, Nat.zero_le _, h.size⟩
  · cases hr
    exact ⟨h.le, h.inside, h.size⟩

end Pipe

/-! ### The table of pipes -/

/-- `PIPE_DIRECTION_TO_TARGET`. -/
def pipeDirectionToTarget : ℕ := 1

/-- `PIPE_DIRECTION_FROM_TARGET`. -/
def pipeDirectionFromTarget : ℕ := 2

/-- `pipe_t`. -/
structure PipeEntry where
  ends : PipeEnds
  pipe : Pipe

/-- The test of the direction: the ends of the creator and of the target need different ones. -/
def PipeEnds.Denied (e : PipeEnds) (cur : ℕ) (fd : ℤ) (creator target : ℕ) : Prop :=
  (e.creatorFd = fd ∧ e.creatorPid = cur ∧ e.direction ≠ creator) ∨
    (e.targetFd = fd ∧ e.targetPid = cur ∧ e.direction ≠ target)

instance (e : PipeEnds) (cur : ℕ) (fd : ℤ) (creator target : ℕ) :
    Decidable (e.Denied cur fd creator target) := inferInstanceAs (Decidable (_ ∨ _))

/-- `pipes`.  Nothing removes a pipe, so that no entry is null. -/
abbrev Pipes : Type := List PipeEntry

namespace Pipes

variable (pipes : Pipes)

/-- `create_pipe`, in the process `cur`. -/
def createPipe (curFd remoteFd : ℤ) (cur otherPid : ℕ) (direction : ℤ) : Pipes :=
  pipes ++ [⟨⟨curFd, cur, otherPid, remoteFd, (direction % 256).toNat⟩, Pipe.init⟩]

/-- `lookup_pipe`, in the process `cur`. -/
def lookupPipe (cur : ℕ) (fd : ℤ) : Option (Fin pipes.length) :=
  pipes.findFinIdx? fun e => e.ends.IsEnd cur fd

/-- Replaces the buffer of a pipe. -/
def setPipe (i : Fin pipes.length) (p : Pipe) : Pipes := pipes.set i ⟨pipes[i].ends, p⟩

/-- `pipe_read`, in the process `cur`. -/
def pipeRead (cur : ℕ) (fd : ℤ) (count : ℕ) : Except PipeHalt (ℤ × List UInt8 × Pipes) :=
  match pipes.lookupPipe cur fd with
  | none => .ok (-Errno.ebadf.code, [], pipes)
  | some i =>
    if pipes[i].ends.Denied cur fd pipeDirectionFromTarget pipeDirectionToTarget then
      .ok (-Errno.eperm.code, [], pipes)
    else do
      let r ← pipes[i].pipe.read count
      .ok (toInt r.1.length, r.1, pipes.setPipe i r.2)

/-- `pipe_write`, in the process `cur`. -/
def pipeWrite (cur : ℕ) (fd : ℤ) (data : List UInt8) : Except PipeHalt (ℤ × Pipes) :=
  match pipes.lookupPipe cur fd with
  | none => .ok (-Errno.ebadf.code, pipes)
  | some i =>
    if pipes[i].ends.Denied cur fd pipeDirectionToTarget pipeDirectionFromTarget then
      .ok (-Errno.eperm.code, pipes)
    else do
      let p ← pipes[i].pipe.write data
      .ok (toInt data.length, pipes.setPipe i p)

/-! ### Runs -/

/-- A call, in the process `cur`. -/
inductive Call where
  | create (curFd remoteFd : ℤ) (cur otherPid : ℕ) (direction : ℤ)
  | write (cur : ℕ) (fd : ℤ) (data : List UInt8)
  | read (cur : ℕ) (fd : ℤ) (count : ℕ)

/-- One call. -/
def exec : Call → Except PipeHalt Pipes
  | .create curFd remoteFd cur otherPid direction =>
    .ok (pipes.createPipe curFd remoteFd cur otherPid direction)
  | .write cur fd data => (pipes.pipeWrite cur fd data).map Prod.snd
  | .read cur fd count => (pipes.pipeRead cur fd count).map (·.2.2)

/-- The pipe that a write gets to. -/
def Writes (cur : ℕ) (fd : ℤ) (i : Fin pipes.length) : Prop :=
  pipes.lookupPipe cur fd = some i ∧
    ¬ pipes[i].ends.Denied cur fd pipeDirectionToTarget pipeDirectionFromTarget

/-- A write ends at most one byte behind the buffer of its pipe. -/
def Fits : Call → Prop
  | .write cur fd data => ∀ i, pipes.Writes cur fd i →
      pipes[i].pipe.writePointer + data.length < 2 ^ 64 ∧
        pipes[i].pipe.writePointer + data.length ≤ pipes[i].pipe.bufferSize + 1
  | _ => True

/-- A call that meets the condition. -/
def Step (pipes : Pipes) (call : Call) (pipes' : Pipes) : Prop :=
  pipes.Fits call ∧ pipes.exec call = .ok pipes'

/-- The pointers of every pipe are in its buffer. -/
def InBuffers : Prop := ∀ e ∈ pipes, e.pipe.InBuffer

variable {pipes} {pipes' : Pipes} {cur count : ℕ} {fd : ℤ} {data : List UInt8}

/-! ### The table of ends -/

/-- The pipes have the ends that the table of `PipeSys` has. -/
def Agrees (pipes : Pipes) (k : PipeSys) : Prop := pipes.map PipeEntry.ends = k.pipes

/-- What a call does to that table: the buffers are no part of it. -/
def tableCall (k : PipeSys) : Call → PipeSys
  | .create curFd remoteFd cur otherPid direction =>
    k.createPipe curFd remoteFd cur otherPid direction
  | _ => k

variable {k : PipeSys}

theorem Agrees.lookupPipe (h : pipes.Agrees k) :
    k.lookupPipe cur fd = (pipes.lookupPipe cur fd).map Fin.val := by
  rw [PipeSys.lookupPipe, ← h, Pipes.lookupPipe, findIdx?_map, findIdx?_eq_map_findFinIdx?_val]
  rfl

theorem Agrees.setPipe (h : pipes.Agrees k) (i : Fin pipes.length) (p : Pipe) :
    (pipes.setPipe i p).Agrees k := by
  rw [Agrees, ← h, Pipes.setPipe, map_set]
  refine ext_getElem (by simp) fun j hj _ => ?_
  rw [getElem_set, getElem_map]
  split_ifs with hij
  · subst hij
    rfl
  · rfl

theorem Agrees.exec {call : Call} (h : pipes.Agrees k) (hexec : pipes.exec call = .ok pipes') :
    pipes'.Agrees (tableCall k call) := by
  cases call with
  | create curFd remoteFd cur otherPid direction =>
    cases hexec
    rw [Agrees, Pipes.createPipe, map_append, h]
    rfl
  | write cur fd data =>
    obtain ⟨r, hr, rfl⟩ := map_eq_ok.1 hexec
    unfold Pipes.pipeWrite at hr
    split at hr
    · cases hr
      exact h
    · split_ifs at hr
      · cases hr
        exact h
      · obtain ⟨p, -, hr⟩ := bind_eq_ok.1 hr
        rw [← Except.ok.inj hr]
        exact h.setPipe _ p
  | read cur fd count =>
    obtain ⟨r, hr, rfl⟩ := map_eq_ok.1 hexec
    unfold Pipes.pipeRead at hr
    split at hr
    · cases hr
      exact h
    · split_ifs at hr
      · cases hr
        exact h
      · obtain ⟨p, -, hr⟩ := bind_eq_ok.1 hr
        rw [← Except.ok.inj hr]
        exact h.setPipe _ p.2

/-- **In every run `lookup_pipe` finds the pipe that it finds in the table of `PipeSys`.** -/
theorem lookupPipe_of_run {calls : List Call} (hrun : Run (fun p c p' => exec p c = .ok p') [] calls
    pipes) (cur : ℕ) (fd : ℤ) :
    (calls.foldl tableCall .init).lookupPipe cur fd = (pipes.lookupPipe cur fd).map Fin.val := by
  refine Agrees.lookupPipe (hrun.history
    (I := fun calls pipes => pipes.Agrees (calls.foldl tableCall .init)) rfl ?_)
  intro calls pipes call pipes' h hexec
  rw [foldl_append]
  exact h.exec hexec

/-! ### The pointers -/

theorem InBuffers.setPipe (h : pipes.InBuffers) (i : Fin pipes.length) {p : Pipe}
    (hp : p.InBuffer) : (pipes.setPipe i p).InBuffers := by
  intro e he
  rcases mem_or_eq_of_mem_set he with he | rfl
  · exact h e he
  · exact hp

/-- What `pipe_write` does, if it gets to a pipe. -/
theorem pipeWrite_of_writes {i : Fin pipes.length} (h : pipes.Writes cur fd i) {p : Pipe}
    (hp : pipes[i].pipe.write data = .ok p) :
    pipes.pipeWrite cur fd data = .ok (toInt data.length, pipes.setPipe i p) := by
  unfold pipeWrite
  rw [h.1]
  dsimp only
  rw [if_neg h.2, hp]
  rfl

/-- A write that gets to no pipe fails, and changes nothing. -/
theorem pipeWrite_of_not_writes (data : List UInt8) (h : ∀ i, ¬ pipes.Writes cur fd i) :
    ∃ e : Errno, pipes.pipeWrite cur fd data = .ok (-e.code, pipes) := by
  unfold pipeWrite
  cases hlookup : pipes.lookupPipe cur fd with
  | none => exact ⟨.ebadf, rfl⟩
  | some i => exact ⟨.eperm, if_pos (not_not.1 fun hdenied => h i ⟨hlookup, hdenied⟩)⟩

theorem InBuffers.createPipe (h : pipes.InBuffers) (curFd remoteFd : ℤ) (cur otherPid : ℕ)
    (direction : ℤ) : (pipes.createPipe curFd remoteFd cur otherPid direction).InBuffers := by
  intro e he
  rcases mem_append.1 he with he | he
  · exact h e he
  · rw [mem_singleton.1 he]
    exact Pipe.inBuffer_init

theorem InBuffers.pipeRead (h : pipes.InBuffers) {r : ℤ × List UInt8 × Pipes}
    (hr : pipes.pipeRead cur fd count = .ok r) : r.2.2.InBuffers := by
  unfold Pipes.pipeRead at hr
  cases hlookup : pipes.lookupPipe cur fd with
  | none =>
    rw [hlookup] at hr
    cases hr
    exact h
  | some i =>
    rw [hlookup] at hr
    dsimp only at hr
    split_ifs at hr
    · cases hr
      exact h
    · obtain ⟨⟨out, p⟩, hread, hr⟩ := bind_eq_ok.1 hr
      rw [← Except.ok.inj hr]
      exact h.setPipe i ((h _ (getElem_mem _)).read hread)

/-- Such a write keeps the invariant and stores its bytes in the buffer of its pipe. -/
theorem InBuffers.pipeWrite (h : pipes.InBuffers) (hfits : pipes.Fits (.write cur fd data)) :
    ∃ res pipes', pipes.pipeWrite cur fd data = .ok (res, pipes') ∧ pipes'.InBuffers ∧
      ∀ i, pipes.Writes cur fd i → ∃ p, pipes' = pipes.setPipe i p ∧
        ∀ o ∈ pipes[i].pipe.stores data, o < p.bufferSize := by
  by_cases hwrites : ∃ i, pipes.Writes cur fd i
  · obtain ⟨i, hi⟩ := hwrites
    obtain ⟨p, hp, hin, hstores⟩ := (h _ (getElem_mem i.isLt)).write (hfits i hi).1 (hfits i hi).2
    refine ⟨_, _, pipeWrite_of_writes hi hp, h.setPipe i hin, fun j hj => ?_⟩
    obtain rfl : i = j := Option.some.inj (hi.1.symm.trans hj.1)
    exact ⟨p, rfl, hstores⟩
  · obtain ⟨e, he⟩ := pipeWrite_of_not_writes data (not_exists.1 hwrites)
    exact ⟨_, pipes, he, h, fun i hi => absurd ⟨i, hi⟩ hwrites⟩

theorem InBuffers.step {call : Call} (h : pipes.InBuffers) (hstep : Step pipes call pipes') :
    pipes'.InBuffers := by
  obtain ⟨hfits, hexec⟩ := hstep
  cases call with
  | create curFd remoteFd cur otherPid direction =>
    cases hexec
    exact h.createPipe curFd remoteFd cur otherPid direction
  | write cur fd data =>
    obtain ⟨r, hr, rfl⟩ := map_eq_ok.1 hexec
    obtain ⟨res, pipes', hwrite, hok, -⟩ := h.pipeWrite hfits
    have heq := Except.ok.inj (hr.symm.trans hwrite)
    rw [heq]
    exact hok
  | read cur fd count =>
    obtain ⟨r, hr, rfl⟩ := map_eq_ok.1 hexec
    exact h.pipeRead hr

/-- **The pointers stay in the buffer.**  In every run in which every write ends at most one byte
behind the buffer of its pipe, the pointers of every pipe are in order and in its buffer, and the
next such write stores every byte in the buffer that the pipe has then. -/
theorem pointers_in_buffer {calls : List Call} (hrun : Run Step [] calls pipes) :
    (∀ e ∈ pipes, e.pipe.readPointer ≤ e.pipe.writePointer ∧
      e.pipe.writePointer ≤ e.pipe.bufferSize) ∧
    ∀ cur fd data, pipes.Fits (.write cur fd data) →
      ∃ res pipes', pipes.pipeWrite cur fd data = .ok (res, pipes') ∧
        ∀ i, pipes.Writes cur fd i → ∃ p, pipes' = pipes.setPipe i p ∧
          ∀ o ∈ pipes[i].pipe.stores data, o < p.bufferSize := by
  have hin : pipes.InBuffers := hrun.invariant (I := InBuffers) (fun e he => nomatch he)
    fun pipes call pipes' h hstep => h.step hstep
  refine ⟨fun e he => ⟨(hin e he).le, (hin e he).inside⟩, fun cur fd data hfits => ?_⟩
  obtain ⟨res, pipes', hwrite, -, hstores⟩ := hin.pipeWrite hfits
  exact ⟨res, pipes', hwrite, hstores⟩

/-- The only pipe, from descriptor 3 of process 1 to descriptor 4 of process 2. -/
def onePipe (p : Pipe) : Pipes := [⟨⟨3, 1, 2, 4, pipeDirectionToTarget⟩, p⟩]

theorem writes_onePipe (p : Pipe) : (onePipe p).Writes 1 3 (0 : Fin 1) := by
  refine ⟨rfl, ?_⟩
  change ¬ PipeEnds.Denied ⟨3, 1, 2, 4, pipeDirectionToTarget⟩ 1 3 _ _
  decide

theorem exec_write_onePipe {p q : Pipe} (h : p.write data = .ok q) :
    (onePipe p).exec (.write 1 3 data) = .ok (onePipe q) :=
  congrArg (Except.map Prod.snd) (pipeWrite_of_writes (writes_onePipe p) h)

theorem exec_create_onePipe :
    exec [] (.create 3 4 1 2 pipeDirectionToTarget) = .ok (onePipe Pipe.init) := rfl

/-- The buffer is filled, and one byte more is written. -/
theorem pointers_in_buffer_filled : ∃ pipes : Pipes,
    Run Step [] [.create 3 4 1 2 pipeDirectionToTarget, .write 1 3 (List.replicate 4097 7)] pipes ∧
    (∀ e ∈ pipes, e.pipe.readPointer ≤ e.pipe.writePointer ∧
      e.pipe.writePointer ≤ e.pipe.bufferSize) ∧
    ∀ cur fd data, pipes.Fits (.write cur fd data) →
      ∃ res pipes', pipes.pipeWrite cur fd data = .ok (res, pipes') ∧
        ∀ i, pipes.Writes cur fd i → ∃ p, pipes' = pipes.setPipe i p ∧
          ∀ o ∈ pipes[i].pipe.stores data, o < p.bufferSize := by
  have hlen : (List.replicate 4097 (7 : UInt8)).length = 4097 := length_replicate
  generalize List.replicate 4097 (7 : UInt8) = data at hlen ⊢
  obtain ⟨p, hp, -⟩ := @Pipe.InBuffer.write Pipe.init data Pipe.inBuffer_init
    (by rw [hlen]; decide) (by rw [hlen]; decide)
  have hcreate : Step [] (.create 3 4 1 2 pipeDirectionToTarget) (onePipe Pipe.init) :=
    ⟨trivial, exec_create_onePipe⟩
  have hwrite : Step (onePipe Pipe.init) (.write 1 3 data) (onePipe p) := by
    refine ⟨fun i _ => ?_, exec_write_onePipe hp⟩
    rw [hlen, Fin.fin_one_eq_zero i]
    decide
  have hrun := (Run.nil.snoc hcreate).snoc hwrite
  exact ⟨_, hrun, pointers_in_buffer hrun⟩

/-- **A write of two bytes more than the buffer holds** ends behind the new buffer. -/
theorem write_behind_buffer : ∃ pipes : Pipes,
    Run (fun (pipes : Pipes) call pipes' => pipes.exec call = .ok pipes') []
      [.create 3 4 1 2 pipeDirectionToTarget, .write 1 3 (List.replicate 4098 7)] pipes ∧
    ∃ e ∈ pipes, e.pipe.bufferSize < e.pipe.writePointer := by
  have hlen : (List.replicate 4098 (7 : UInt8)).length = 4098 := length_replicate
  generalize List.replicate 4098 (7 : UInt8) = data at hlen ⊢
  obtain ⟨p, hp⟩ := @Pipe.exists_write_ok Pipe.init data (by rw [hlen]; decide +kernel)
  obtain ⟨-, hwrite, hsize, -⟩ := Pipe.write_ok hp
  refine ⟨_, (Run.nil.snoc exec_create_onePipe).snoc (exec_write_onePipe hp), _,
    mem_singleton_self _, ?_⟩
  rw [hwrite, hsize, hlen]
  decide +kernel

end Pipes

end DripOS
