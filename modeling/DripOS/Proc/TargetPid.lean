import DripOS.Klibc.Errno
import DripOS.Lib.Slots
import Mathlib.Data.Int.ModEq

/-!
# The processes that system calls name

Five system calls get the pid of another process, and test it before they read `processes[pid]`:
`syscall_map_to_process` against `process_count`, which only `add_process` changes,
`syscall_map_from_us_to_process` and `syscall_open_pipe` against `process_list_size`, which counts
empty slots as well, and `syscall_ipc_read` and `syscall_ipc_write` not at all.  Three of them
convert the pid to an `int` first.

* `ProcTable.target_checked_iff` : **when the test of a call is right** (`ProcTable.Checked`).
-/

namespace DripOS

/-- The conversion of an `int` to `uint64_t`. -/
def toUInt64 (x : ℤ) : ℕ := (x % 2 ^ 64).toNat

/-- The table of processes. -/
structure ProcTable (P : Type) where
  /-- `processes`; `process_list_size` is its length. -/
  processes : Slots P
  /-- `process_count`. -/
  processCount : ℕ

/-- What comes of the pid in a system call. -/
inductive Target (P : Type) where
  /-- The call returns an error. -/
  | rejected
  /-- The table is read outside of its bounds. -/
  | outside (index : ℤ)
  /-- The call goes on with a null pointer. -/
  | empty (pid : ℕ)
  | process (pid : ℕ) (p : P)
  deriving DecidableEq

/-- The system calls. -/
inductive TargetCall where
  | openPipe
  | mapToProcess
  | mapFromUsToProcess
  | ipcRead
  | ipcWrite
  deriving DecidableEq

namespace ProcTable

variable {P : Type} (T : ProcTable P)

/-- No processes. -/
def init : ProcTable P := ⟨[], 0⟩

/-- `process_list_size`. -/
def processListSize : ℕ := T.processes.length

/-- `add_new_pid`, with the process stored there. -/
def addNewPid (p : P) : Slots P := T.processes.alloc.2.set T.processes.alloc.1 (some p)

/-- `add_process`. -/
def addProcess (p : P) : ProcTable P := ⟨T.addNewPid p, T.processCount + 1⟩

/-- The new process of a `fork`, which does not use `add_process`. -/
def fork (p : P) : ProcTable P := { T with processes := T.addNewPid p }

/-- The end of `urm_kill_process`. -/
def kill (pid : ℕ) : ProcTable P := { T with processes := T.processes.set pid none }

/-- `processes[pid]`. -/
def index (pid : ℤ) : Target P :=
  if 0 ≤ pid ∧ pid < T.processListSize then
    match T.processes.get pid.toNat with
    | some p => .process pid.toNat p
    | none => .empty pid.toNat
  else .outside pid

/-- The test of `syscall_open_pipe`. -/
def openPipeTarget (rdi : ℕ) : Target P :=
  let pid := toInt rdi
  if toUInt64 pid > T.processListSize then .rejected else T.index pid

/-- The test of `syscall_map_to_process`. -/
def mapToProcessTarget (rdi : ℕ) : Target P :=
  if rdi ≥ T.processCount then .rejected else T.index rdi

/-- The test of `syscall_map_from_us_to_process`. -/
def mapFromUsToProcessTarget (rdi : ℕ) : Target P :=
  if rdi ≥ T.processListSize then .rejected else T.index rdi

/-- `read_ipc_server` and `write_ipc_server` make no test. -/
def ipcServerTarget (pid : ℤ) : Target P := T.index pid

/-- What comes of the pid in `rdi`. -/
def target : TargetCall → (rdi : ℕ) → Target P
  | .openPipe, rdi => T.openPipeTarget rdi
  | .mapToProcess, rdi => T.mapToProcessTarget rdi
  | .mapFromUsToProcess, rdi => T.mapFromUsToProcessTarget rdi
  | .ipcRead, rdi => T.ipcServerTarget (toInt rdi)
  | .ipcWrite, rdi => T.ipcServerTarget (toInt rdi)

/-! ### What the tests are for -/

/-- There is a process with this pid. -/
def Live (pid : ℕ) : Prop := (T.processes.get pid).isSome

instance (pid : ℕ) : Decidable (T.Live pid) := inferInstanceAs (Decidable (_ = true))

/-- The call goes on with the process of the pid, and is rejected if there is none. -/
def Checked (t : Target P) (pid : ℕ) : Prop :=
  match T.processes.get pid with
  | some p => t = .process pid p
  | none => t = .rejected

/-- When the test of a call is right. -/
def TestOk (pid : ℕ) : TargetCall → Prop
  | .openPipe => if T.Live pid then pid < 2 ^ 31 else T.processListSize < toUInt64 (toInt pid)
  | .mapToProcess => T.Live pid ↔ pid < T.processCount
  | .mapFromUsToProcess => pid < T.processListSize → T.Live pid
  | .ipcRead | .ipcWrite => T.Live pid ∧ pid < 2 ^ 31

variable {T} {pid : ℕ} {p : P}

theorem Live.exists (h : T.Live pid) : ∃ p, T.processes.get pid = some p :=
  Option.isSome_iff_exists.1 h

theorem get_of_not_live (h : ¬ T.Live pid) : T.processes.get pid = none :=
  Option.not_isSome_iff_eq_none.1 h

theorem lt_of_get (h : T.processes.get pid = some p) : pid < T.processListSize := Slots.lt_length h

theorem checked_of_live {t : Target P} (h : T.processes.get pid = some p) :
    T.Checked t pid ↔ t = .process pid p := by
  unfold Checked
  rw [h]

theorem checked_of_not_live {t : Target P} (h : ¬ T.Live pid) :
    T.Checked t pid ↔ t = .rejected := by
  unfold Checked
  rw [get_of_not_live h]

theorem index_of_get (h : T.processes.get pid = some p) : T.index pid = .process pid p := by
  have hlt := lt_of_get h
  unfold index
  rw [if_pos ⟨Int.natCast_nonneg pid, Int.ofNat_lt.2 hlt⟩, Int.toNat_natCast, h]

/-- Reading the table is no rejection. -/
theorem index_ne_rejected (i : ℤ) : T.index i ≠ .rejected := by
  intro h
  unfold index at h
  split_ifs at h
  split at h <;> cases h

/-- A read that finds the process of the pid was made with the pid. -/
theorem eq_of_index {i : ℤ} (h : T.index i = .process pid p) : i = pid := by
  unfold index at h
  split_ifs at h with hi
  split at h
  · cases h
    exact (Int.toNat_of_nonneg hi.1).symm
  · cases h

/-! ### Conversions -/

/-- A pid keeps its value as an `int` below `2 ^ 31`. -/
theorem toInt_eq_self_iff (hpid : pid < 2 ^ 64) : toInt pid = pid ↔ pid < 2 ^ 31 := by
  unfold toInt
  have h := Int.bmod_lt (x := (pid : ℤ)) (m := 2 ^ 32) (by decide)
  constructor
  · intro he
    omega
  · intro hlt
    exact Int.bmod_eq_of_le (by omega) (by omega)

theorem toUInt64_natCast (hpid : pid < 2 ^ 64) : toUInt64 pid = pid := by
  unfold toUInt64
  omega

/-! ### The tests -/

theorem openPipe_checked_iff (hpid : pid < 2 ^ 64) :
    T.Checked (T.openPipeTarget pid) pid ↔ T.TestOk pid .openPipe := by
  unfold TestOk openPipeTarget
  dsimp only
  by_cases hlive : T.Live pid
  · obtain ⟨p, hp⟩ := hlive.exists
    have hlt := lt_of_get hp
    rw [if_pos hlive, checked_of_live hp, ← toInt_eq_self_iff hpid]
    constructor
    · intro h
      split_ifs at h
      exact eq_of_index h
    · intro h
      rw [h, toUInt64_natCast hpid, if_neg (by omega), index_of_get hp]
  · rw [if_neg hlive, checked_of_not_live hlive]
    constructor
    · intro h
      by_contra hle
      rw [if_neg hle] at h
      exact index_ne_rejected _ h
    · intro h
      exact if_pos h

theorem mapToProcess_checked_iff :
    T.Checked (T.mapToProcessTarget pid) pid ↔ T.TestOk pid .mapToProcess := by
  unfold TestOk mapToProcessTarget
  by_cases hlive : T.Live pid
  · obtain ⟨p, hp⟩ := hlive.exists
    rw [checked_of_live hp]
    constructor
    · intro h
      split_ifs at h with hge
      exact ⟨fun _ => Nat.not_le.1 hge, fun _ => hlive⟩
    · intro h
      rw [if_neg (Nat.not_le.2 (h.1 hlive)), index_of_get hp]
  · rw [checked_of_not_live hlive]
    constructor
    · intro h
      split_ifs at h with hge
      · exact ⟨fun hl => absurd hl hlive, fun hlt => absurd hge (Nat.not_le.2 hlt)⟩
      · exact absurd h (index_ne_rejected _)
    · intro h
      exact if_pos (Nat.not_lt.1 fun hlt => hlive (h.2 hlt))

theorem mapFromUsToProcess_checked_iff :
    T.Checked (T.mapFromUsToProcessTarget pid) pid ↔ T.TestOk pid .mapFromUsToProcess := by
  unfold TestOk mapFromUsToProcessTarget
  by_cases hlive : T.Live pid
  · obtain ⟨p, hp⟩ := hlive.exists
    rw [checked_of_live hp, if_neg (Nat.not_le.2 (lt_of_get hp)), index_of_get hp]
    exact ⟨fun _ _ => hlive, fun _ => rfl⟩
  · rw [checked_of_not_live hlive]
    constructor
    · intro h hlt
      rw [if_neg (Nat.not_le.2 hlt)] at h
      exact absurd h (index_ne_rejected _)
    · intro h
      exact if_pos (Nat.not_lt.1 fun hlt => hlive (h hlt))

theorem ipcServer_checked_iff (hpid : pid < 2 ^ 64) :
    T.Checked (T.ipcServerTarget (toInt pid)) pid ↔ T.Live pid ∧ pid < 2 ^ 31 := by
  unfold ipcServerTarget
  by_cases hlive : T.Live pid
  · obtain ⟨p, hp⟩ := hlive.exists
    rw [checked_of_live hp, ← toInt_eq_self_iff hpid]
    constructor
    · intro h
      exact ⟨hlive, eq_of_index h⟩
    · rintro ⟨-, h⟩
      rw [h, index_of_get hp]
  · rw [checked_of_not_live hlive]
    exact ⟨fun h => absurd h (index_ne_rejected _), fun h => absurd h.1 hlive⟩

/-- **When a system call finds the process that a pid names.**  All five do for a process with a pid
below `2 ^ 31` and `process_count`.  A pid without a process is never rejected by the calls for
messages, and by the others only if it fails their test. -/
theorem target_checked_iff (T : ProcTable P) (call : TargetCall) (hpid : pid < 2 ^ 64) :
    T.Checked (T.target call pid) pid ↔ T.TestOk pid call := by
  cases call with
  | openPipe => rw [target, openPipe_checked_iff hpid]
  | mapToProcess => rw [target, mapToProcess_checked_iff]
  | mapFromUsToProcess => rw [target, mapFromUsToProcess_checked_iff]
  | ipcRead => rw [target, ipcServer_checked_iff hpid, TestOk]
  | ipcWrite => rw [target, ipcServer_checked_iff hpid, TestOk]

/-- The second of two processes that were added. -/
theorem target_checked_two :
    ((init.addProcess ()).addProcess ()).target .openPipe 1 = .process 1 () ∧
    ((init.addProcess ()).addProcess ()).target .mapToProcess 1 = .process 1 () := by
  have hlive : ((init.addProcess ()).addProcess ()).Live 1 := rfl
  have hget : ((init.addProcess ()).addProcess ()).processes.get 1 = some () := rfl
  refine ⟨(checked_of_live hget).1 ((target_checked_iff _ .openPipe (by omega)).2 ?_),
    (checked_of_live hget).1 ((target_checked_iff _ .mapToProcess (by omega)).2 ?_)⟩
  · unfold TestOk
    rw [if_pos hlive]
    omega
  · exact ⟨fun _ => Nat.lt_succ_self 1, fun _ => hlive⟩

/-- The table after `add_process` and `fork`: the pids are 0 and 1. -/
def addFork : ProcTable Unit := (init.addProcess ()).fork ()

/-- **No test is right for all pids.**  `syscall_map_to_process` rejects the forked process, and
takes the slot of a killed one for a process, as `syscall_map_from_us_to_process` does.
`syscall_open_pipe` reads the slot behind the table, and the calls for IPC read in front of it. -/
theorem target_not_checked :
    (addFork.Live 1 ∧ addFork.target .mapToProcess 1 = .rejected) ∧
    (¬ (addFork.kill 0).Live 0 ∧ (addFork.kill 0).target .mapToProcess 0 = .empty 0 ∧
      (addFork.kill 0).target .mapFromUsToProcess 0 = .empty 0) ∧
    (¬ addFork.Live 10 ∧ addFork.target .openPipe 10 = .outside 10) ∧
    ¬ addFork.Live (2 ^ 32 - 1) ∧ addFork.target .ipcRead (2 ^ 32 - 1) = .outside (-1) ∧
    addFork.target .ipcWrite (2 ^ 32 - 1) = .outside (-1) := by
  decide +kernel

end ProcTable

end DripOS
