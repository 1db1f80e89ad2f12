import DripOS.Lib.Bytes
import DripOS.Lib.Outcome
import DripOS.Lib.Run
import Mathlib.Data.List.GetD

/-!
# Pipes

`pipe_read` and `pipe_write` of `src/fs/pipe.c`, with the lock of the pipe held; pointers are
offsets into the buffer.  `pipe_read` moves the read pointer only when it has read everything, and
`pipe_write` makes the buffer larger by a number of pages, but counts them as bytes.

`Pipe.reads_in_order` : bytes are read in the order in which they were written, in every run in
which every read takes nothing or everything.  `Pipe.read_twice` shows what happens otherwise.
-/

namespace DripOS

open List

/-- Why a call does not return. -/
inductive PipeHalt where
  /-- The call waits for data. -/
  | wait
  /-- Memory past the buffer is written. -/
  | fault
  deriving DecidableEq, Repr

/-- The fields of `pipe_t` about the buffer. -/
structure Pipe where
  buffer : Bytes
  bufferSize : ℕ
  readPointer : ℕ
  writePointer : ℕ
  writeEvent : BitVec 32

namespace Pipe

/-- `PIPE_DEFAULT_BUFFER_SIZE`. -/
def defaultBufferSize : ℕ := 4096

/-- The buffer of a pipe that was created with `create_pipe`. -/
def init : Pipe := ⟨fun _ => 0, defaultBufferSize, 0, 0, 0⟩

/-- The mapped bytes of the buffer: `kmalloc` hands out whole pages, and the page after them is not
mapped. -/
def capacity (p : Pipe) : ℕ := (p.bufferSize + 0x1000 - 1) / 0x1000 * 0x1000

/-- What `pipe_write` takes for the space behind the write pointer. -/
def space (p : Pipe) : ℕ := (p.bufferSize + 2 ^ 64 - p.writePointer) % 2 ^ 64

/-- `pipe_write` makes the buffer larger; `krealloc` copies it. -/
def grow (p : Pipe) (count : ℕ) : Pipe :=
  let newBytes := (count - p.space + 1 + 0x1000 - 1) % 2 ^ 64 / 0x1000
  { p with
    buffer := fun i => if i < p.bufferSize then p.buffer i else 0
    bufferSize := p.bufferSize + newBytes }

/-- The copy of the data in `pipe_write`. -/
def store (p : Pipe) (data : List UInt8) : Except PipeHalt Pipe :=
  if p.writePointer + data.length ≤ p.capacity then
    .ok { p with
      buffer := p.buffer.patch p.writePointer data.length fun i => data.getD i 0
      writePointer := p.writePointer + data.length
      writeEvent := p.writeEvent + 1 }
  else .error .fault

/-- `pipe_write`. -/
def write (p : Pipe) (data : List UInt8) : Except PipeHalt Pipe :=
  if p.space < data.length then (p.grow data.length).store data else p.store data

/-- `pipe_read`. -/
def read (p : Pipe) (count : ℕ) : Except PipeHalt (List UInt8 × Pipe) :=
  if p.readPointer = p.writePointer ∧ p.writeEvent = 0 then .error .wait
  else
    let pointerDifference := min count (p.writePointer - p.readPointer)
    let data := (List.range pointerDifference).map fun i => p.buffer (p.readPointer + i)
    if p.readPointer + pointerDifference = p.writePointer then
      .ok (data, { p with readPointer := 0, writePointer := 0, writeEvent := 0 })
    else .ok (data, { p with writeEvent := 0 })

variable {p p' : Pipe} {data : List UInt8} {count : ℕ}

/-- The bytes in the buffer that were not read yet. -/
def buffered (p : Pipe) : List UInt8 :=
  (List.range (p.writePointer - p.readPointer)).map fun i => p.buffer (p.readPointer + i)

/-- The pointers are in order and in the mapped part of the buffer. -/
structure Ok (p : Pipe) : Prop where
  le : p.readPointer ≤ p.writePointer
  mapped : p.writePointer ≤ p.capacity

@[simp] theorem readPointer_grow : (p.grow count).readPointer = p.readPointer := rfl

@[simp] theorem writePointer_grow : (p.grow count).writePointer = p.writePointer := rfl

theorem buffer_grow {i : ℕ} (h : i < p.bufferSize) : (p.grow count).buffer i = p.buffer i :=
  if_pos h

/-- When the buffer grows and the data fits, the write pointer was inside, and everything is copied.
-/
theorem le_bufferSize_of_grow (hspace : p.space < count)
    (hfits : p.writePointer + count ≤ (p.grow count).capacity) : p.writePointer ≤ p.bufferSize := by
  by_contra hlt
  simp only [capacity, Pipe.grow, space] at *
  omega

theorem capacity_congr {q : Pipe} (h : q.bufferSize = p.bufferSize) : q.capacity = p.capacity := by
  rw [capacity, capacity, h]

theorem ok_init : init.Ok := ⟨le_rfl, Nat.zero_le _⟩

theorem buffered_congr {q : Pipe} (hr : q.readPointer = p.readPointer)
    (hw : q.writePointer = p.writePointer)
    (hbuf : ∀ i < p.writePointer, q.buffer i = p.buffer i) : q.buffered = p.buffered := by
  unfold buffered
  rw [hr, hw]
  refine map_congr_left fun i hi => hbuf _ ?_
  have := mem_range.1 hi
  omega

theorem store_ok (hle : p.readPointer ≤ p.writePointer) (h : p.store data = .ok p') :
    p.writePointer + data.length ≤ p.capacity ∧ p'.Ok ∧ p'.buffered = p.buffered ++ data := by
  unfold store at h
  split_ifs at h with hfits
  cases h
  refine ⟨hfits, ⟨Nat.le_add_right_of_le hle, hfits.trans_eq (@capacity_congr _ p rfl)⟩, ?_⟩
  unfold buffered
  dsimp only
  have hlen : p.writePointer + data.length - p.readPointer =
      (p.writePointer - p.readPointer) + data.length := by omega
  rw [hlen, range_add, map_append, map_map]
  congr 1
  · refine map_congr_left fun i hi => Bytes.patch_of_lt ?_
    have := mem_range.1 hi
    omega
  · refine ext_getElem (by simp) fun i hi hi' => ?_
    have hpos : p.readPointer + (p.writePointer - p.readPointer + i) = p.writePointer + i := by
      omega
    simp only [getElem_map, getElem_range, Function.comp_apply]
    rw [hpos, Bytes.patch_add hi', getD_eq_getElem _ _ hi']

theorem Ok.write (h : p.Ok) (hw : p.write data = .ok p') :
    p'.Ok ∧ p'.buffered = p.buffered ++ data := by
  unfold Pipe.write at hw
  split_ifs at hw with hspace
  · obtain ⟨hfits, hok, hbuf⟩ := store_ok (by simpa using h.le) hw
    -- what was in the buffer is still there
    have hcopy : (p.grow data.length).buffered = p.buffered :=
      buffered_congr readPointer_grow writePointer_grow fun i hi =>
        buffer_grow (hi.trans_le (le_bufferSize_of_grow hspace hfits))
    exact ⟨hok, hcopy ▸ hbuf⟩
  · exact (store_ok h.le hw).2

/-- A read that takes nothing or everything takes the first bytes. -/
theorem Ok.read (h : p.Ok) (hcount : count = 0 ∨ p.writePointer - p.readPointer ≤ count)
    (hr : p.read count = .ok (data, p')) : p'.Ok ∧ data ++ p'.buffered = p.buffered := by
  unfold Pipe.read at hr
  dsimp only at hr
  split_ifs at hr with hwait hall
  · have hmin : min count (p.writePointer - p.readPointer) = p.writePointer - p.readPointer := by
      omega
    cases hr
    refine ⟨⟨le_rfl, Nat.zero_le _⟩, ?_⟩
    simp [buffered, hmin]
  · -- nothing is read, since there is something left
    have hmin : min count (p.writePointer - p.readPointer) = 0 := by omega
    cases hr
    refine ⟨⟨h.le, h.mapped.trans_eq (@capacity_congr _ p rfl)⟩, ?_⟩
    rw [hmin]
    rfl

/-! ### Runs -/

/-- A call. -/
inductive PipeOp where
  | write (data : List UInt8)
  | read (count : ℕ)

/-- The calls, with the bytes that they return. -/
def exec (p : Pipe) : PipeOp → Except PipeHalt (List UInt8 × Pipe)
  | .write data => do
    let p ← p.write data
    .ok ([], p)
  | .read count => p.read count

/-- A write ends in the mapped part, and a read takes nothing or everything. -/
def Whole (p : Pipe) : PipeOp → Prop
  | .write data => p.writePointer + data.length ≤
      if p.space < data.length then (p.grow data.length).capacity else p.capacity
  | .read count => count = 0 ∨ p.writePointer - p.readPointer ≤ count

/-- A call that meets the condition, with the bytes that it returns. -/
def PipeStep (p : Pipe) (l : PipeOp × List UInt8) (p' : Pipe) : Prop :=
  p.Whole l.1 ∧ p.exec l.1 = .ok (l.2, p')

/-- The bytes that were written. -/
def written (ls : List (PipeOp × List UInt8)) : List UInt8 :=
  ls.flatMap fun l => match l.1 with
    | .write data => data
    | .read _ => []

/-- The bytes that were returned. -/
def returned (ls : List (PipeOp × List UInt8)) : List UInt8 := ls.flatMap (·.2)

theorem written_append (ls : List (PipeOp × List UInt8)) (l : PipeOp × List UInt8) :
    written (ls ++ [l]) = written ls ++ written [l] := flatMap_append

theorem returned_append (ls : List (PipeOp × List UInt8)) (l : PipeOp × List UInt8) :
    returned (ls ++ [l]) = returned ls ++ l.2 := by
  simp [returned]

/-- What was written was returned or is in the buffer. -/
theorem Ok.step {ls : List (PipeOp × List UInt8)} {l : PipeOp × List UInt8} (h : p.Ok)
    (hbuf : returned ls ++ p.buffered = written ls) (hstep : PipeStep p l p') :
    p'.Ok ∧ returned (ls ++ [l]) ++ p'.buffered = written (ls ++ [l]) := by
  obtain ⟨hwhole, hexec⟩ := hstep
  obtain ⟨op, out⟩ := l
  rw [returned_append, written_append, ← hbuf]
  cases op with
  | write data =>
    obtain ⟨q, hwrite, hq⟩ := bind_eq_ok.1 hexec
    cases hq
    obtain ⟨hok, hbuf'⟩ := h.write hwrite
    refine ⟨hok, ?_⟩
    rw [hbuf']
    simp [written]
  | read count =>
    obtain ⟨hok, hbuf'⟩ := h.read hwhole hexec
    refine ⟨hok, ?_⟩
    rw [append_assoc, hbuf']
    simp [written]

/-- A call that meets the condition returns, or waits for the first data. -/
theorem exec_returns {op : PipeOp} (h : p.Whole op) :
    (∃ r, p.exec op = .ok r) ∨
      ∃ count, op = .read count ∧ p.readPointer = p.writePointer ∧ p.writeEvent = 0 := by
  cases op with
  | write data =>
    have hwrite : ∃ q, p.write data = .ok q := by
      have hfits : p.writePointer + data.length ≤ _ := h
      unfold write
      split_ifs at hfits ⊢ with hspace
      · rw [← @writePointer_grow p data.length] at hfits
        exact ⟨_, if_pos hfits⟩
      · exact ⟨_, if_pos hfits⟩
    obtain ⟨q, hq⟩ := hwrite
    refine Or.inl ⟨([], q), ?_⟩
    dsimp only [exec]
    rw [hq, ok_bind]
  | read count =>
    by_cases hwait : p.readPointer = p.writePointer ∧ p.writeEvent = 0
    · exact Or.inr ⟨count, rfl, hwait⟩
    · refine Or.inl ?_
      dsimp only [exec, read]
      split_ifs
      · exact ⟨_, rfl⟩
      · exact ⟨_, rfl⟩

/-- **Pipes keep the order.**  In every run in which every write ends in the mapped part of the
buffer and every read takes nothing or everything, the bytes returned are a prefix of the bytes
written, and the next such call returns, unless it waits for data. -/
theorem reads_in_order {ls : List (PipeOp × List UInt8)} (hrun : Run PipeStep init ls p) :
    returned ls <+: written ls ∧ ∀ op, p.Whole op → (∃ r, p.exec op = .ok r) ∨
      ∃ count, op = .read count ∧ p.readPointer = p.writePointer ∧ p.writeEvent = 0 := by
  have hinv := hrun.history
    (I := fun ls p => p.Ok ∧ returned ls ++ p.buffered = written ls) ⟨ok_init, rfl⟩
    fun ls p l p' h hstep => h.1.step h.2 hstep
  exact ⟨⟨p.buffered, hinv.2⟩, fun op => exec_returns⟩

/-- Three bytes are written and read. -/
theorem reads_in_order_three : ∃ p,
    Run PipeStep init [(.write [1, 2, 3], []), (.read 5, [1, 2, 3])] p ∧
    returned [(.write [1, 2, 3], []), (.read 5, [1, 2, 3])] <+:
      written [(.write [1, 2, 3], []), (.read 5, [1, 2, 3])] ∧
    ∀ op, p.Whole op → (∃ r, p.exec op = .ok r) ∨
      ∃ count, op = .read count ∧ p.readPointer = p.writePointer ∧ p.writeEvent = 0 := by
  obtain ⟨⟨n, out, p2⟩, hrun, hout⟩ := exists_ok_of_map
    (x := do
      let p1 ← init.write [1, 2, 3]
      let r ← p1.read 5
      .ok (p1.writePointer - p1.readPointer, r))
    (f := fun r => (r.1, r.2.1)) (b := (3, [1, 2, 3])) (by decide +kernel)
  obtain ⟨p1, hwrite, hrun⟩ := bind_eq_ok.1 hrun
  obtain ⟨r, hread, hrun⟩ := bind_eq_ok.1 hrun
  cases hrun
  obtain ⟨hn, rfl⟩ := Prod.mk.inj hout
  have hstep1 : PipeStep init (.write [1, 2, 3], []) p1 := by
    refine ⟨?_, ?_⟩
    · unfold Whole
      decide
    · dsimp only [exec]
      rw [hwrite]
      rfl
  have hstep2 : PipeStep p1 (.read 5, [1, 2, 3]) p2 := ⟨Or.inr (hn.trans_le (by decide)), hread⟩
  have hrun := (Run.nil.snoc hstep1).snoc hstep2
  exact ⟨p2, hrun, reads_in_order hrun⟩

/-- **Bytes are returned twice** when a read takes a part, and **a write of more than two pages**
writes past the buffer. -/
theorem read_twice :
    (∃ p₁ p₂ p₃, init.write [1, 2, 3] = .ok p₁ ∧ p₁.read 2 = .ok ([1, 2], p₂) ∧
      p₂.read 2 = .ok ([1, 2], p₃)) ∧
    ∀ data : List UInt8, data.length = 8193 → init.write data = .error .fault := by
  refine ⟨?_, fun data hlen => ?_⟩
  · obtain ⟨⟨out, out', p₃⟩, hrun, hout⟩ := exists_ok_of_map
      (x := do
        let p₁ ← init.write [1, 2, 3]
        let r1 ← p₁.read 2
        let r2 ← r1.2.read 2
        .ok (r1.1, r2))
      (f := fun r => (r.1, r.2.1)) (b := ([1, 2], [1, 2])) (by decide +kernel)
    obtain ⟨p₁, hwrite, hrun⟩ := bind_eq_ok.1 hrun
    obtain ⟨⟨d1, p₂⟩, hread1, hrun⟩ := bind_eq_ok.1 hrun
    obtain ⟨⟨d2, q⟩, hread2, hrun⟩ := bind_eq_ok.1 hrun
    cases hrun
    obtain ⟨rfl, rfl⟩ := Prod.mk.inj hout
    exact ⟨p₁, p₂, p₃, hwrite, hread1, hread2⟩
  · unfold write store
    rw [hlen, if_pos (by decide), if_neg (by decide)]

end Pipe

end DripOS
