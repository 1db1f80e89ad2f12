import DripOS.Lib.Run
import DripOS.Proc.ThreadName

/-!
# The registers of a forked thread

`schedule` of `src/proc/scheduler.c` saves and restores what a program sees of the processor; the
base of `fs` is restored, but not saved: `set_fs_base_syscall` stores it in the thread.

`fork` of `src/proc/sched_syscalls.c` makes the thread of the child with `create_thread`, and copies
the general registers from the system call.  It copies neither the base of `fs` nor the control
words, and takes the state of the floating point units from the last preemption of the parent.

`Cpu.fork_sameContext_iff` says when the child starts with the registers of its parent.
-/

namespace DripOS

open Function

/-- The area that `fxsave` writes: the two control words, and the rest. -/
structure FxArea where
  fcw : ℕ
  mxcsr : ℕ
  rest : Bytes

/-- The registers of a thread in `thread_t`, with what `fork` uses besides. -/
structure ThreadContext where
  regs : TaskReg → ℕ
  ring : UInt8
  sseRegion : FxArea

/-- The state of a processor; `fs` is its base. -/
structure Cpu where
  regs : TaskReg → ℕ
  /-- The state of the floating point units without the control words. -/
  sse : Bytes

namespace Cpu

/-! ### The model -/

/-- Registers are loaded from a thread. -/
def load (c : Cpu) (rs : List TaskReg) (regs : TaskReg → ℕ) : Cpu :=
  { c with regs := fun r => if r ∈ rs then regs r else c.regs r }

/-- `fxsave`. -/
def fxsave (c : Cpu) : FxArea := ⟨c.regs .fcw, c.regs .mxcsr, c.sse⟩

/-- `fxrstor`. -/
def fxrstor (c : Cpu) (area : FxArea) : Cpu where
  regs := update (update c.regs .fcw area.fcw) .mxcsr area.mxcsr
  sse := area.rest

/-- The general registers. -/
def generalRegs : List TaskReg :=
  [.rax, .rbx, .rcx, .rdx, .rbp, .rdi, .rsi, .r8, .r9, .r10, .r11, .r12, .r13, .r14, .r15]

/-- The part of `schedule` that saves the thread `t`. -/
def save (c : Cpu) (t : ThreadContext) : ThreadContext :=
  { t with
    regs := fun r => if r = .fs then t.regs r else c.regs r
    sseRegion := c.fxsave }

/-- `schedule` restores the thread `t`. -/
def restore (c : Cpu) (t : ThreadContext) : Cpu :=
  let c := c.load (generalRegs ++ [.rflags, .rip, .rsp]) t.regs
  let c := c.fxrstor t.sseRegion
  let c := c.load [.mxcsr, .fcw] t.regs
  let c := c.load [.cs, .ss] t.regs
  let c := c.load [.fs] t.regs
  c.load [.cr3] t.regs

/-- The instruction `syscall`. -/
def syscall (c : Cpu) : Cpu :=
  let regs := update c.regs .rcx (c.regs .rip)
  { c with regs := update regs .r11 (c.regs .rflags) }

/-- `set_fs_base_syscall`. -/
def setFsBase (base : ℕ) (s : ThreadContext × Cpu) : ThreadContext × Cpu :=
  ({ s.1 with regs := update s.1.regs .fs base }, { s.2 with regs := update s.2.regs .fs base })

/-- The thread that `fork` makes, with `r` from the stack of the system call and `newCr3` from
`add_new_child_thread_no_stack_init`. -/
def forkThread (oldThread : ThreadContext) (r : TaskReg → ℕ) (threadUserStack : ℕ)
    (baseKernelCr3 : UInt64) (newCr3 : ℕ) : ThreadContext where
  regs
    | .rax => 0
    | .rsp => threadUserStack
    | .rip => r .rcx
    | .rflags => r .r11
    | .cr3 => newCr3
    | q =>
      if q ∈ generalRegs then r q
      else TaskReg.new (.ofNat (oldThread.regs .rip)) (.ofNat (oldThread.regs .rsp)) baseKernelCr3
        oldThread.ring q
  ring := oldThread.ring
  sseRegion := oldThread.sseRegion

/-- The registers that a program sees. -/
def Visible (r : TaskReg) : Prop := r ≠ .cr3 ∧ r ≠ .cs ∧ r ≠ .ss

/-- The state of the parent at the system call, except that `rax` is 0. -/
structure SameContext (parent child : Cpu) : Prop where
  regs : ∀ r, Visible r → child.regs r = if r = .rax then 0 else parent.syscall.regs r
  sse : child.sse = parent.sse

/-! ### Preemption -/

/-- What happens to a thread. -/
inductive Event where
  /-- The program runs, up to the state `u`. -/
  | compute (u : Cpu)
  | setFsBase (base : ℕ)
  /-- Another thread runs, and then this one on a processor in the state `c`. -/
  | preempt (c : Cpu)

/-- One event, for a thread and the processor that runs it. -/
def EventStep (s : ThreadContext × Cpu) : Event → ThreadContext × Cpu → Prop
  | .compute u, s' => s' = (s.1, u)
  | .setFsBase base, s' => s' = setFsBase base s
  | .preempt c, s' => s' = (s.2.save s.1, c.restore (s.2.save s.1))

/-! ### Fork -/

section

variable (oldThread : ThreadContext) (u c : Cpu) (baseKernelCr3 : UInt64) (newCr3 : ℕ)

/-- The processor that runs the child first, after a fork in the state `u`. -/
def firstRun : Cpu :=
  c.restore (forkThread oldThread u.syscall.regs (u.regs .rsp) baseKernelCr3 newCr3)

/-- The registers of the system call, except for three of a new program. -/
def childRegs : TaskReg → ℕ
  | .rax => 0
  | .fs => 0
  | .mxcsr => 0x1F80
  | .fcw => 0x33f
  | r => u.syscall.regs r

theorem firstRun_regs {r : TaskReg} (hr : Visible r) :
    (firstRun oldThread u c baseKernelCr3 newCr3).regs r = u.childRegs r := by
  cases r with
  | cr3 => exact absurd rfl hr.1
  | cs => exact absurd rfl hr.2.1
  | ss => exact absurd rfl hr.2.2
  | fs => exact ite_self 0
  | mxcsr => exact ite_self _
  | fcw => exact ite_self _
  | _ => rfl

theorem firstRun_sse :
    (firstRun oldThread u c baseKernelCr3 newCr3).sse = oldThread.sseRegion.rest := by
  rfl

/-- **The child of a fork starts with the state of its parent at the system call exactly if** the
parent has the base of `fs` and the control words of a new program, and the saved state of its
floating point units is current. -/
theorem fork_sameContext_iff :
    SameContext u (firstRun oldThread u c baseKernelCr3 newCr3) ↔
      u.regs .fs = 0 ∧ u.regs .mxcsr = 0x1F80 ∧ u.regs .fcw = 0x33f ∧
        oldThread.sseRegion.rest = u.sse := by
  constructor
  · intro h
    have hreg : ∀ r, Visible r → r ≠ .rax → u.syscall.regs r = u.childRegs r := fun r hr hrax => by
      rw [← firstRun_regs oldThread u c baseKernelCr3 newCr3 hr, h.regs r hr, if_neg hrax]
    refine ⟨hreg .fs ?_ ?_, hreg .mxcsr ?_ ?_, hreg .fcw ?_ ?_, ?_⟩
    case refine_7 => exact (firstRun_sse ..).symm.trans h.sse
    all_goals simp [Visible]
  · rintro ⟨hfs, hmxcsr, hfcw, hsse⟩
    refine ⟨fun r hr => ?_, (firstRun_sse ..).trans hsse⟩
    rw [firstRun_regs _ _ _ _ _ hr]
    cases r with
    | fs => exact hfs.symm
    | mxcsr => exact hmxcsr.symm
    | fcw => exact hfcw.symm
    | _ => rfl

end

/-- The thread of a new program, and the processor that starts it. -/
def newProgram : ThreadContext × Cpu :=
  let t : ThreadContext :=
    ⟨TaskReg.new 0x401000 ThreadName.userStack 0x1000 3, 3, ⟨0x33f, 0x1F80, fun _ => 0⟩⟩
  (t, (⟨fun _ => 0, fun _ => 0⟩ : Cpu).restore t)

/-- A program forks after it has set the base of `fs`: that of the child is 0. -/
theorem fork_loses_fsBase : ∃ s, Run EventStep newProgram [.setFsBase 0x7000] s ∧
    s.2.regs .fs = 0x7000 ∧
    (firstRun s.1 s.2 ⟨fun _ => 0, fun _ => 0⟩ 0x1000 0x2000).regs .fs = 0 ∧
    ¬ SameContext s.2 (firstRun s.1 s.2 ⟨fun _ => 0, fun _ => 0⟩ 0x1000 0x2000) := by
  have hfs : (firstRun (setFsBase 0x7000 newProgram).1 (setFsBase 0x7000 newProgram).2
      ⟨fun _ => 0, fun _ => 0⟩ 0x1000 0x2000).regs .fs = 0 :=
    firstRun_regs _ _ _ _ _ (by simp [Visible])
  refine ⟨setFsBase 0x7000 newProgram, Run.nil.snoc rfl, rfl, hfs, fun h => ?_⟩
  have hsame := h.regs .fs (by simp [Visible])
  exact absurd hsame (by decide)

end Cpu

end DripOS
