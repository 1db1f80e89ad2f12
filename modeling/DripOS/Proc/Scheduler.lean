import DripOS.Lib.Outcome
import DripOS.Lib.Slots

/-!
# Threads and processes of the scheduler

The tables of threads and processes of `src/proc/scheduler.c` and `src/proc/process_management.c`,
with the queue of sleeping threads.  Every function runs under `sched_lock`, so it is one step;
`kill_thread` gives the lock up while it waits, and is two.  Numbers of threads and processes are
used again; the ghost `ident` tells a thread from an earlier one with the same number.
-/

namespace DripOS

open Slots

/-- Why the kernel does not go on. -/
inductive SchedHalt where
  /-- An assertion fails. -/
  | assertion
  /-- A null pointer is dereferenced. -/
  | fault
  /-- A freed thread or process is accessed. -/
  | freed
  /-- Something is waited for that never happens. -/
  | hang
  /-- A list node that is in the list is put into it again. -/
  | relinked
  deriving DecidableEq, Repr

/-- The state of a thread. -/
inductive ThreadState where
  | ready
  | running
  | blocked
  | sleep
  | waitEvent
  | waitEventTimeout
  deriving DecidableEq, Repr

/-- `thread_t`. -/
structure Thread where
  /-- Ghost: which thread this is. -/
  ident : ℕ
  state : ThreadState
  /-- The processor the thread is running on, or -1. -/
  cpu : ℤ
  running : Bool
  /-- The number of the parent process, and which process this is. -/
  parent : Option (ℕ × ℕ)
  deriving DecidableEq, Repr

/-- The fields of `process_t` about its threads. -/
structure ThreadGroup where
  /-- Ghost: which process this is. -/
  ident : ℕ
  /-- The numbers of the threads; a free slot is -1. -/
  threads : Slots ℕ
  childThreadCount : ℤ
  deriving DecidableEq, Repr

/-- `sleep_queue_t`. -/
structure SleepNode where
  timeLeft : UInt64
  tid : ℕ
  /-- Ghost: the thread whose `sleep_node` this is. -/
  owner : ℕ
  deriving DecidableEq, Repr

/-- The state of the scheduler. -/
structure Sched where
  threads : Slots Thread
  processes : Slots ThreadGroup
  /-- The nodes after `base_queue`. -/
  queue : List SleepNode
  laggedTicks : ℕ
  /-- The calls of `kill_thread` that wait: the number and the thread. -/
  dying : List (ℕ × ℕ)
  /-- Ghost: the number of ticks. -/
  clock : ℕ
  /-- Ghost: the next new thread or process. -/
  nextIdent : ℕ
  /-- Ghost: a subtraction on `time_left` went below zero. -/
  wrapped : Bool
  /-- Ghost: the owners of the expired nodes, with the threads that became ready. -/
  wakes : List (ℕ × ℕ)
  deriving DecidableEq, Repr

/-- `add_to_process`. -/
def ThreadGroup.addToProcess (parent : ThreadGroup) : ℕ × ThreadGroup :=
  (parent.threads.alloc.1,
    { parent with
      threads := parent.threads.alloc.2
      childThreadCount := parent.childThreadCount + 1 })

/-- What `schedule` does to the thread that was running. -/
def Thread.leave (thread : Thread) : Thread :=
  { thread with
    cpu := -1
    running := false
    state := if thread.state = .running then .ready else thread.state }

/-- What `schedule` does to the thread that was picked. -/
def Thread.enter (thread : Thread) (cpu : ℕ) : Thread :=
  { thread with running := true, state := .running, cpu := cpu }

/-- The threads that `schedule` may pick: a waiting thread becomes ready when the event is there or
the time is over. -/
def Thread.pickable (thread : Thread) : Bool :=
  thread.state = .ready ∨ thread.state = .waitEvent ∨ thread.state = .waitEventTimeout

namespace Sched

/-- The scheduler after the boot of the kernel. -/
def init : Sched := ⟨[], [], [], 0, [], 0, 0, false, []⟩

/-- `threads[tid] = thread`. -/
def setThread (s : Sched) (tid : ℕ) (thread : Option Thread) : Sched :=
  { s with threads := s.threads.set tid thread }

/-- `threads[tid]`, asserted not to be null. -/
def getThread (s : Sched) (tid : ℕ) : Except SchedHalt Thread :=
  match get s.threads tid with
  | some thread => .ok thread
  | none => .error .assertion

/-! ### Creation -/

/-- `add_new_tid`. -/
def addNewTid (s : Sched) : ℕ × Sched :=
  (s.threads.alloc.1, { s with threads := s.threads.alloc.2 })

/-- `add_new_pid`. -/
def addNewPid (s : Sched) : ℕ × Sched :=
  (s.processes.alloc.1, { s with processes := s.processes.alloc.2 })

/-- `create_thread`: `kcalloc` leaves 0 in `cpu`. -/
def createThread (s : Sched) (state : ThreadState) : Thread × Sched :=
  (⟨s.nextIdent, state, 0, false, none⟩, { s with nextIdent := s.nextIdent + 1 })

/-- `start_thread`. -/
def startThread (s : Sched) (thread : Thread) : ℕ × Sched :=
  let (tid, s) := s.addNewTid
  (tid, s.setThread tid (some thread))

/-- `add_new_child_thread`, without the stack of the thread, and
`add_new_child_thread_no_stack_init`. -/
def addNewChildThread (s : Sched) (thread : Thread) (pid : ℕ) : Except SchedHalt (ℕ × Sched) :=
  match get s.processes pid with
  -- returns with the lock held
  | none => .error .hang
  | some newParent =>
    let (newTid, s) := s.addNewTid
    let s := s.setThread newTid (some { thread with parent := some (pid, newParent.ident) })
    let (index, newParent) := newParent.addToProcess
    let newParent := { newParent with threads := newParent.threads.set index (some newTid) }
    .ok (newTid, { s with processes := s.processes.set pid (some newParent) })

/-- `create_process` and `add_new_pid`, as in `add_process` and `fork`. -/
def newProcess (s : Sched) : ℕ × Sched :=
  let (pid, s) := s.addNewPid
  (pid, { s with
    processes := s.processes.set pid (some ⟨s.nextIdent, [], 0⟩)
    nextIdent := s.nextIdent + 1 })

/-! ### Scheduling -/

/-- The first part of `schedule`: the running thread leaves the processor. -/
def leaveCpu (s : Sched) : Option ℕ → Except SchedHalt Sched
  | none => .ok s
  | some tid => do
    let thread ← s.getThread tid
    .ok (s.setThread tid (some thread.leave))

/-- The last part of `schedule`: the thread that was picked runs. -/
def enterCpu (s : Sched) (cpu : ℕ) : Option ℕ → Except SchedHalt Sched
  | none => .ok s
  | some tid => do
    let thread ← s.getThread tid
    -- the assertions on `state` and `running`
    if thread.pickable ∧ !thread.running then .ok (s.setThread tid (some (thread.enter cpu)))
    else .error .assertion

/-- `schedule` on a processor, from the thread `cur` to the thread `next` of `pick_task`; `none` is
the idle thread. -/
def schedule (s : Sched) (cpu : ℕ) (cur next : Option ℕ) : Except SchedHalt Sched := do
  let s ← s.leaveCpu cur
  s.enterCpu cpu next

/-! ### The end of a thread -/

/-- The last part of `kill_thread`: the thread is no longer running. -/
def removeThread (s : Sched) (tid : ℕ) (thread : Thread) : Except SchedHalt Sched :=
  match thread.parent with
  | none => .ok (s.setThread tid none)
  | some (pid, ident) =>
    match get s.processes pid with
    | none => .error .freed
    | some parent =>
      if parent.ident = ident then
        let parent := { parent with childThreadCount := parent.childThreadCount - 1 }
        .ok ({ s with processes := s.processes.set pid (some parent) }.setThread tid none)
      else .error .freed

/-- `kill_thread`, up to the wait for the processor of the thread. -/
def killThread (s : Sched) (tid : ℕ) : Except SchedHalt Sched := do
  let thread ← s.getThread tid
  let s := s.setThread tid (some { thread with state := .blocked })
  if thread.cpu = -1 then s.removeThread tid thread
  else .ok { s with dying := (tid, thread.ident) :: s.dying }

/-- `kill_thread`, from the wait on. -/
def killResume (s : Sched) (tid ident : ℕ) : Except SchedHalt Sched :=
  match get s.threads tid with
  | none => .error .freed
  | some thread =>
    if thread.ident ≠ ident then .error .freed
    else if thread.cpu ≠ -1 then .error .hang
    else { s with dying := s.dying.erase (tid, ident) }.removeThread tid thread

/-! ### What the functions do -/

variable {s s' : Sched} {tid cpu : ℕ} {thread : Thread} {cur next : Option ℕ}

theorem getThread_eq_ok : s.getThread tid = .ok thread ↔ get s.threads tid = some thread := by
  unfold getThread
  split
  · rename_i th hth
    rw [hth, Except.ok.injEq, Option.some.injEq]
  · rename_i hth
    simp [hth]

theorem get_setThread (h : get s.threads tid = some thread) (x : Option Thread) (i : ℕ) :
    get (s.setThread tid x).threads i = if i = tid then x else get s.threads i :=
  get_set (lt_length h) x

/-- Replacing the thread of a slot is a map on the table. -/
theorem get_setThread_map (h : get s.threads tid = some thread) (f : Thread → Thread)
    (i : ℕ) :
    get (s.setThread tid (some (f thread))).threads i =
      (get s.threads i).map fun th => if i = tid then f th else th := by
  rw [get_setThread h]
  split_ifs with hi
  · rw [hi, h]
    rfl
  · rw [Option.map_id']

theorem leaveCpu_ok (h : s.leaveCpu cur = .ok s') :
    (∀ i, get s'.threads i =
      (get s.threads i).map fun th => if cur = some i then th.leave else th) ∧
    s' = { s with threads := s'.threads } := by
  cases cur with
  | none =>
    cases h
    simp
  | some tid =>
    obtain ⟨thread, hthread, h⟩ := bind_eq_ok.1 h
    cases h
    refine ⟨fun i => ?_, rfl⟩
    rw [get_setThread_map (getThread_eq_ok.1 hthread)]
    simp only [Option.some.injEq, eq_comm]

theorem enterCpu_ok (h : s.enterCpu cpu next = .ok s') :
    (∀ i, get s'.threads i =
      (get s.threads i).map fun th => if next = some i then th.enter cpu else th) ∧
    s' = { s with threads := s'.threads } ∧
    ∀ tid thread, next = some tid → get s.threads tid = some thread → thread.pickable := by
  cases next with
  | none =>
    cases h
    simp
  | some tid =>
    obtain ⟨thread, hthread, h⟩ := bind_eq_ok.1 h
    split_ifs at h with hpick
    cases h
    have hget := getThread_eq_ok.1 hthread
    refine ⟨fun i => ?_, rfl, fun tid' thread' heq hget' => ?_⟩
    · rw [get_setThread_map hget fun th => th.enter cpu]
      simp only [Option.some.injEq, eq_comm]
    · cases heq
      cases hget.symm.trans hget'
      exact hpick.1

theorem schedule_ok (h : s.schedule cpu cur next = .ok s') :
    (∀ i, get s'.threads i = (get s.threads i).map fun th =>
      if next = some i then (if cur = some i then th.leave else th).enter cpu
      else if cur = some i then th.leave else th) ∧
    s' = { s with threads := s'.threads } ∧
    ∀ tid thread, next = some tid → get s.threads tid = some thread →
      (if cur = some tid then thread.leave else thread).pickable := by
  obtain ⟨s1, hleave, henter⟩ := bind_eq_ok.1 h
  obtain ⟨hget1, hsame1⟩ := leaveCpu_ok hleave
  obtain ⟨hget2, hsame2, hpick⟩ := enterCpu_ok henter
  refine ⟨fun i => ?_, by rw [hsame2, hsame1], fun tid thread hnext hget => ?_⟩
  · rw [hget2, hget1, Option.map_map]
    rfl
  · refine hpick tid _ hnext ?_
    rw [hget1, hget]
    rfl

/-- The thread is gone, and its process has one thread less. -/
structure Removed (s s' : Sched) (tid : ℕ) (thread : Thread) : Prop where
  get : ∀ i, Slots.get s'.threads i = if i = tid then none else Slots.get s.threads i
  same : s' = { s with threads := s'.threads, processes := s'.processes, dying := s'.dying }
  processes : (thread.parent = none ∧ s'.processes = s.processes) ∨
    ∃ pid parent, thread.parent = some (pid, parent.ident) ∧
      Slots.get s.processes pid = some parent ∧
      ∀ j, Slots.get s'.processes j =
        if j = pid then some { parent with childThreadCount := parent.childThreadCount - 1 }
        else Slots.get s.processes j

theorem removeThread_ok (h : s.removeThread tid thread = .ok s') {th : Thread}
    (hget : get s.threads tid = some th) : Removed s s' tid thread := by
  unfold removeThread at h
  cases hparent : thread.parent with
  | none =>
    rw [hparent] at h
    cases h
    exact ⟨get_setThread hget none, rfl, Or.inl ⟨hparent, rfl⟩⟩
  | some p =>
    obtain ⟨pid, ident⟩ := p
    rw [hparent] at h
    dsimp only at h
    split at h
    · cases h
    · rename_i parent hpid
      split_ifs at h with hident
      cases h
      refine ⟨fun i => get_set (lt_length hget) none, rfl, Or.inr
        ⟨pid, parent, by rw [hparent, hident], hpid, fun j => get_set (lt_length hpid) _⟩⟩

theorem killThread_ok (h : s.killThread tid = .ok s') :
    ∃ thread, get s.threads tid = some thread ∧ (thread.cpu = -1 ∧ Removed s s' tid thread ∨
      thread.cpu ≠ -1 ∧ s' = { s.setThread tid (some { thread with state := .blocked }) with
        dying := (tid, thread.ident) :: s.dying }) := by
  obtain ⟨thread, hthread, h⟩ := bind_eq_ok.1 h
  have hget := getThread_eq_ok.1 hthread
  have hset := get_setThread hget (some { thread with state := .blocked })
  refine ⟨thread, hget, ?_⟩
  split_ifs at h with hcpu
  · obtain ⟨hthreads, hsame, hprocs⟩ := removeThread_ok h ((hset tid).trans (if_pos rfl))
    refine Or.inl ⟨hcpu, fun i => ?_, hsame, hprocs⟩
    rw [hthreads, hset]
    split_ifs <;> rfl
  · cases h
    exact Or.inr ⟨hcpu, rfl⟩

theorem killResume_ok {ident : ℕ} (h : s.killResume tid ident = .ok s') :
    ∃ thread, get s.threads tid = some thread ∧ thread.ident = ident ∧ thread.cpu = -1 ∧
      Removed s s' tid thread := by
  unfold killResume at h
  split at h
  · cases h
  · rename_i thread hthread
    split_ifs at h with hident hcpu
    obtain ⟨hthreads, hsame, hprocs⟩ := removeThread_ok h hthread
    exact ⟨thread, hthread, not_not.1 hident, not_not.1 hcpu, hthreads, hsame, hprocs⟩

theorem addNewChildThread_ok {pid : ℕ} (h : s.addNewChildThread thread pid = .ok (tid, s')) :
    ∃ parent, get s.processes pid = some parent ∧ tid = s.threads.alloc.1 ∧
      (∀ i, get s'.threads i =
        if i = s.threads.alloc.1 then some { thread with parent := some (pid, parent.ident) }
        else get s.threads i) ∧
      s' = { s with threads := s'.threads, processes := s'.processes } ∧
      ∀ j, get s'.processes j = if j = pid then some
          { parent with
            threads := parent.threads.alloc.2.set parent.threads.alloc.1 (some tid)
            childThreadCount := parent.childThreadCount + 1 }
        else get s.processes j := by
  unfold addNewChildThread at h
  split at h
  · cases h
  · rename_i parent hpid
    cases h
    exact ⟨parent, hpid, rfl, fun i => get_set_alloc _ _, rfl, fun j => get_set (lt_length hpid) _⟩

end Sched

end DripOS
