import DripOS.Lib.Layout
import Mathlib.Data.List.GetD

/-!
# The name of a new thread

`create_thread` of `src/proc/scheduler.c` copies the name of the thread with `strcpy` to the field
`name` of 50 characters, when the registers behind it are already set.  `urm_execve` calls it with
the path of the executable, of up to 4095 characters.  The structure is a block of bytes here, with
the fields at the places of the C structure.

* `ThreadName.get_createThread` : a name of up to 56 characters leaves the other fields as they are;
* `ThreadName.createThread_execve_iff` : **for which paths the thread of `urm_execve` is right.**
-/

namespace DripOS

open List

/-- The fields of `task_regs_t`. -/
inductive TaskReg where
  | rax | rbx | rcx | rdx | rbp | rdi | rsi | r8 | r9 | r10 | r11 | r12 | r13 | r14 | r15
  | rsp | rip
  | ss | cs | fs
  | rflags
  | cr3
  | mxcsr
  | fcw
  deriving DecidableEq, Repr

namespace TaskReg

/-- All of them, in the order of the structure. -/
def all : List TaskReg :=
  [rax, rbx, rcx, rdx, rbp, rdi, rsi, r8, r9, r10, r11, r12, r13, r14, r15, rsp, rip, ss, cs, fs,
    rflags, cr3, mxcsr, fcw]

theorem mem_all (r : TaskReg) : r ∈ all := by
  cases r <;> decide

/-- The size, which is the alignment as well. -/
def size : TaskReg → ℕ
  | mxcsr => 4
  | fcw => 2
  | _ => 8

theorem size_pos (r : TaskReg) : 0 < r.size := by
  cases r <;> decide

/-- `default_user_regs`. -/
def defaultUser : TaskReg → ℕ
  | ss => 0x23
  | cs => 0x1B
  | rflags => 0x202
  | mxcsr => 0x1F80
  | fcw => 0x33f
  | _ => 0

/-- `default_kernel_regs`. -/
def defaultKernel : TaskReg → ℕ
  | ss => 0x10
  | cs => 0x8
  | rflags => 0x202
  | mxcsr => 0x1F80
  | fcw => 0x33f
  | _ => 0

/-- The registers of a new thread. -/
def new (main rsp baseKernelCr3 : UInt64) (ring : UInt8) : TaskReg → ℕ
  | rip => main.toNat
  | TaskReg.rsp => rsp.toNat
  | cr3 => baseKernelCr3.toNat
  | r => if ring = 3 then defaultUser r else defaultKernel r

end TaskReg

/-- The fields of `thread_t`, with those of `regs` and `vars`. -/
inductive ThreadField where
  | name
  | reg (r : TaskReg)
  | kernelStack | userStack
  | tscStarted | tscStopped | tscTotal
  | state | cpu
  | tid | parentPid | parent
  | ring | running
  | sleepNode
  | argv | enviroment | auxv | argc | envc | auxc
  | event | eventTimeout | eventWaitStart
  | ignoreRing
  | sseRegion
  deriving DecidableEq, Repr

namespace ThreadName

/-- A C string, without the zero at its end. -/
structure CString where
  bytes : List UInt8
  nonzero : ∀ c ∈ bytes, c ≠ 0

/-- `strlen`. -/
def CString.strlen (str : CString) : ℕ := str.bytes.length

/-- `thread_t`. -/
def thread : Layout ThreadField where
  fields := [⟨.name, 50, 1, by decide⟩] ++
    (TaskReg.all.map fun r => ⟨.reg r, r.size, r.size, r.size_pos⟩) ++
    [⟨.kernelStack, 8, 8, by decide⟩, ⟨.userStack, 8, 8, by decide⟩,
      ⟨.tscStarted, 8, 8, by decide⟩, ⟨.tscStopped, 8, 8, by decide⟩, ⟨.tscTotal, 8, 8, by decide⟩,
      ⟨.state, 1, 1, by decide⟩, ⟨.cpu, 4, 4, by decide⟩,
      ⟨.tid, 8, 8, by decide⟩, ⟨.parentPid, 8, 8, by decide⟩, ⟨.parent, 8, 8, by decide⟩,
      ⟨.ring, 1, 1, by decide⟩, ⟨.running, 1, 1, by decide⟩,
      ⟨.sleepNode, 8, 8, by decide⟩,
      ⟨.argv, 8, 8, by decide⟩, ⟨.enviroment, 8, 8, by decide⟩, ⟨.auxv, 8, 8, by decide⟩,
      ⟨.argc, 4, 4, by decide⟩, ⟨.envc, 4, 4, by decide⟩, ⟨.auxc, 4, 4, by decide⟩,
      ⟨.event, 8, 8, by decide⟩, ⟨.eventTimeout, 8, 8, by decide⟩,
      ⟨.eventWaitStart, 8, 8, by decide⟩,
      ⟨.ignoreRing, 1, 1, by decide⟩,
      ⟨.sseRegion, 512, 16, by decide⟩]

/-- `sizeof(thread_t)`. -/
def sizeofThread : ℕ := (thread.span .sseRegion).offset + (thread.span .sseRegion).size

/-- `READY`. -/
def ready : ℕ := 0

/-- `USER_STACK`. -/
def userStack : UInt64 := 0x7FFFFFFFFFF0

/-- What `create_thread` gets from elsewhere. -/
structure Surroundings where
  /-- The bytes of the new block before `kcalloc` clears them. -/
  block : Bytes
  /-- The end of the new kernel stack. -/
  kernelStack : UInt64
  sleepNode : UInt64
  baseKernelCr3 : UInt64
  defaultSseState : Bytes

/-- The first part of `create_thread`. -/
def fillThread (e : Surroundings) (main rsp : UInt64) (ring : UInt8) : Bytes :=
  let t := e.block.patch 0 sizeofThread fun _ => 0
  let t := thread.put t .kernelStack e.kernelStack.toNat
  let t := thread.putAll (TaskReg.all.map .reg)
    (fun
      | .reg r => if ring = 3 then r.defaultUser else r.defaultKernel
      | _ => 0) t
  let t := thread.put t (.reg .rip) main.toNat
  let t := thread.put t (.reg .rsp) rsp.toNat
  let t := thread.put t .ring ring.toNat
  let t := thread.put t (.reg .cr3) e.baseKernelCr3.toNat
  let t := thread.put t .sleepNode e.sleepNode.toNat
  thread.put t .state ready

/-- `strcpy(name, new_task->name)`. -/
def storeName (t : Bytes) (name : CString) : Bytes :=
  t.patch (thread.span .name).offset (name.strlen + 1) fun i => name.bytes.getD i 0

/-- The fields that are set to 0 or `NULL` at the end of `create_thread`. -/
def nullFields : List ThreadField := [.envc, .argc, .auxc, .enviroment, .auxv, .argv, .parent]

/-- The last part of `create_thread`. -/
def finishThread (e : Surroundings) (t : Bytes) : Bytes :=
  let t := t.patch (thread.span .sseRegion).offset (thread.span .sseRegion).size e.defaultSseState
  thread.putAll nullFields (fun _ => 0) t

/-- `create_thread`. -/
def createThread (e : Surroundings) (name : CString) (main rsp : UInt64) (ring : UInt8) : Bytes :=
  finishThread e (storeName (fillThread e main rsp ring) name)

/-- The thread of `urm_execve` has the registers of a new user thread, its ring and its state. -/
def RightThread (e : Surroundings) (path : CString) (entryPoint : UInt64) : Prop :=
  (∀ r, thread.get (createThread e path entryPoint userStack 3) (.reg r) =
    TaskReg.new entryPoint userStack e.baseKernelCr3 3 r) ∧
  thread.get (createThread e path entryPoint userStack 3) .ring = 3 ∧
  thread.get (createThread e path entryPoint userStack 3) .state = ready

/-- The store of the name changes nothing behind the field. -/
def NameInField (e : Surroundings) (path : CString) (entryPoint : UInt64) : Prop :=
  ∀ i, (thread.span .name).offset + (thread.span .name).size ≤ i →
    createThread e path entryPoint userStack 3 i =
      finishThread e (fillThread e entryPoint userStack 3) i

example : (thread.span .name, thread.span (.reg .rax), thread.span (.reg .fcw),
    thread.span .kernelStack, thread.span .state, thread.span .ring, sizeofThread) =
    (⟨0, 50⟩, ⟨56, 8⟩, ⟨236, 2⟩, ⟨240, 8⟩, ⟨280, 1⟩, ⟨312, 1⟩, 912) := by
  decide

/-! ### The places of the fields -/

variable {f : ThreadField} {i : ℕ}

/-- There is room between the name and the other fields. -/
theorem le_offset_of_ne (h : f ≠ .name) : 56 ≤ (thread.span f).offset := by
  cases f with
  | name => exact absurd rfl h
  | reg r => cases r <;> decide
  | _ => decide

theorem span_rax : thread.span (.reg .rax) = ⟨56, 8⟩ := by decide +kernel

theorem avoids_gap (f : ThreadField) : (thread.span f).Avoids 50 := by
  by_cases hf : f = .name
  · subst hf
    decide
  · have hle := le_offset_of_ne hf
    exact Or.inl (by omega)

/-! ### The parts of the function -/

variable {e : Surroundings} {main rsp : UInt64} {ring : UInt8} {t t' : Bytes} {name : CString}

theorem new_lt (main rsp cr3 : UInt64) (ring : UInt8) (r : TaskReg) :
    TaskReg.new main rsp cr3 ring r < 256 ^ (thread.span (.reg r)).size := by
  have h64 : ∀ x : UInt64, x.toNat < 256 ^ 8 := fun x => x.toNat_lt
  cases r <;> first | exact h64 _ | (simp only [TaskReg.new]; split_ifs <;> decide)

theorem get_fillThread_reg (r : TaskReg) :
    thread.get (fillThread e main rsp ring) (.reg r) =
      TaskReg.new main rsp e.baseKernelCr3 ring r := by
  have hlt := new_lt main rsp e.baseKernelCr3 ring r
  have hmem : ThreadField.reg r ∈ TaskReg.all.map .reg := mem_map_of_mem r.mem_all
  unfold fillThread
  simp only [Layout.get_put, Layout.get_putAll, hmem]
  rw [← Nat.mod_eq_of_lt hlt]
  cases r <;> rfl

theorem get_fillThread_ring : thread.get (fillThread e main rsp ring) .ring = ring.toNat := by
  unfold fillThread
  simp only [Layout.get_put]
  exact Nat.mod_eq_of_lt ring.toNat_lt

theorem get_fillThread_state : thread.get (fillThread e main rsp ring) .state = ready := by
  unfold fillThread
  simp only [Layout.get_put]
  rfl

theorem fillThread_gap : fillThread e main rsp ring 50 = 0 := by
  have hput : ∀ (t : Bytes) (f : ThreadField) (v : ℕ), thread.put t f v 50 = t 50 :=
    fun t f v => Layout.put_apply (avoids_gap f)
  unfold fillThread
  simp only [hput, Layout.putAll_apply fun f _ => avoids_gap f]
  have hsize : sizeofThread = 912 := by decide +kernel
  rw [hsize]
  rfl

theorem get_finishThread (hsse : f ≠ .sseRegion) (h : f ∉ nullFields) :
    thread.get (finishThread e t) f = thread.get t f := by
  rw [finishThread, Layout.get_putAll, if_neg h]
  exact Bytes.getLE_patch_of_disjoint (thread.disjoint_span hsse)

/-- The last part works byte by byte. -/
theorem finishThread_congr (h : t i = t' i) : finishThread e t i = finishThread e t' i :=
  Layout.putAll_congr (Bytes.patch_congr h)

/-- The last part does not touch the name and the registers. -/
theorem finishThread_apply (h : i < 240) : finishThread e t i = t i := by
  have hnull : ∀ f ∈ nullFields, 240 ≤ (thread.span f).offset := by
    decide +kernel
  have hsse : 240 ≤ (thread.span .sseRegion).offset := by decide +kernel
  rw [finishThread, Layout.putAll_apply fun f hf => Or.inl (h.trans_le (hnull f hf))]
  exact Bytes.patch_of_lt (h.trans_le hsse)

theorem storeName_apply (i : ℕ) : storeName t name i =
    if i ≤ name.strlen then name.bytes.getD i 0 else t i := by
  have hoff : (thread.span .name).offset = 0 := by decide
  rw [storeName, hoff, Bytes.patch, Nat.zero_add, Nat.sub_zero]
  by_cases hi : i ≤ name.strlen
  · rw [if_pos ⟨Nat.zero_le i, Nat.lt_succ_of_le hi⟩, if_pos hi]
  · rw [if_neg (fun h => hi (Nat.le_of_lt_succ h.2)), if_neg hi]

/-- From a zero on, a name that is not longer is not seen. -/
theorem storeName_of_le {k : ℕ} (hk : t k = 0) (hlen : name.strlen ≤ k) (hi : k ≤ i) :
    storeName t name i = t i := by
  rw [storeName_apply]
  split_ifs with hle
  · obtain rfl : i = k := by omega
    rw [hk]
    exact getD_eq_default _ _ hlen
  · rfl

theorem storeName_ne_zero (h : i < name.strlen) : storeName t name i ≠ 0 := by
  rw [storeName_apply, if_pos h.le, getD_eq_getElem _ _ h]
  exact name.nonzero _ (getElem_mem h)

theorem byte_of_rax (h : thread.get t (.reg .rax) = 0) : t 56 = 0 := by
  have hbyte := Layout.apply_of_get (k := 0) h (by rw [span_rax]; decide)
  rwa [span_rax] at hbyte

/-! ### The thread -/

/-- **A name of up to 56 characters leaves the other fields as they are**; the null character of the
longest one is stored in `rax`. -/
theorem get_createThread (hlen : name.strlen ≤ 56) (hf : f ≠ .name) :
    thread.get (createThread e name main rsp ring) f =
      thread.get (finishThread e (fillThread e main rsp ring)) f := by
  have hrax : fillThread e main rsp ring 56 = 0 :=
    byte_of_rax ((get_fillThread_reg .rax).trans (ite_self 0))
  have hle := le_offset_of_ne hf
  refine Layout.get_congr fun k _ => finishThread_congr ?_
  exact storeName_of_le hrax hlen (by omega)

theorem rightThread_iff {path : CString} {entryPoint : UInt64} :
    RightThread e path entryPoint ↔ path.strlen ≤ 56 := by
  constructor
  · intro h
    by_contra hlen
    have hrax : createThread e path entryPoint userStack 3 56 = 0 := byte_of_rax (h.1 .rax)
    rw [createThread, finishThread_apply (by decide)] at hrax
    exact storeName_ne_zero (Nat.not_le.1 hlen) hrax
  · intro hlen
    refine ⟨fun r => ?_, ?_, ?_⟩
    · rw [get_createThread hlen (by simp), get_finishThread (by simp) (by simp [nullFields]),
        get_fillThread_reg]
    · rw [get_createThread hlen (by decide), get_finishThread (by decide) (by decide),
        get_fillThread_ring]
      rfl
    · rw [get_createThread hlen (by decide), get_finishThread (by decide) (by decide),
        get_fillThread_state]

theorem nameInField_iff {path : CString} {entryPoint : UInt64} :
    NameInField e path entryPoint ↔ path.strlen ≤ 50 := by
  constructor
  · intro h
    by_contra hlen
    have hgap := h 50 (by decide)
    rw [createThread, finishThread_apply (by decide), finishThread_apply (by decide),
      fillThread_gap] at hgap
    exact storeName_ne_zero (Nat.not_le.1 hlen) hgap
  · intro hlen i hi
    exact finishThread_congr (storeName_of_le fillThread_gap hlen hi)

/-- **The thread that `urm_execve` gets is the one of a new program, with nothing changed behind the
name, exactly for paths of up to 50 characters**; the registers, the ring and the state are right
for up to 56. -/
theorem createThread_execve_iff (e : Surroundings) (path : CString) (entryPoint : UInt64) :
    (RightThread e path entryPoint ∧ NameInField e path entryPoint ↔ path.strlen ≤ 50) ∧
      (RightThread e path entryPoint ↔ path.strlen ≤ 56) := by
  refine ⟨?_, rightThread_iff⟩
  rw [rightThread_iff, nameInField_iff]
  omega

/-- A path of `a`s. -/
def longPath (n : ℕ) : CString :=
  ⟨List.replicate n 0x61, fun c hc => by rw [eq_of_mem_replicate hc]; decide⟩

/-- A path of 200 characters goes over `rip`, the entry point of the program. -/
theorem createThread_longPath :
    thread.get (createThread ⟨fun _ => 0, 0, 0, 0, fun _ => 0⟩ (longPath 200) 0x401000 userStack 3)
      (.reg .rip) = 0x6161616161616161 ∧
    thread.get (createThread ⟨fun _ => 0, 0, 0, 0, fun _ => 0⟩ (longPath 50) 0x401000 userStack 3)
      (.reg .rip) = 0x401000 := by
  decide +kernel

end ThreadName

end DripOS
