import DripOS.Lib.Interleave
import DripOS.Proc.Smp

/-!
# The scheduler lock

The steps inside `schedule` of `src/proc/scheduler.c`, on several processors, with the ways to enter
it: `schedule_runner`, which attempts to take `sched_lock`; `yield`, `sleep_ms`, `await_event`,
`await_event_timeout`, `futex_wait` and `urm_runner`, which take it and raise interrupt 254; and
`isr_handler` of `src/sys/int/isr.c` after an exception of a user thread, which does not take it.
`schedule` gives the lock up at its end.

Besides, a processor that has the lock creates, wakes up or kills threads.  A thread that has the
lock is not preempted, because the timer does not get it.  `Proc/SchedLockRuns.lean` has these
sections and the results.

`SchedLock.schedule_refines` : the statements of `schedule` do what `Smp.schedule` does in one step.
-/

namespace DripOS

open Option

namespace SchedLock

/-- Where a processor is in `schedule`. -/
inductive Stage where
  | save
  /-- At the label `repick_task`, with `picked_first`. -/
  | pick (pickedFirst : Option ℕ)
  /-- `pick_task` has returned a thread. -/
  | candidate (pickedFirst tid : ℕ)
  /-- At the label `picked`.  `none` is the idle thread. -/
  | dispatch (tid : Option ℕ)
  | unlock
  deriving DecidableEq, Repr

/-- Where a processor is after an exception. -/
inductive ExcStage where
  | mark (tids : List ℕ)
  | unlock (tids : List ℕ)
  /-- In the loop of calls of `kill_thread`. -/
  | kill (tids : List ℕ)
  /-- In `kill_thread`, waiting for the processor of the thread. -/
  | wait (tid ident : ℕ) (tids : List ℕ)
  | free
  | enter
  deriving DecidableEq, Repr

/-- Where a processor is. -/
inductive Pc where
  | off
  /-- Anywhere without the lock. -/
  | running
  /-- In a section that holds the lock. -/
  | locked
  /-- Before `int $254`. -/
  | suspended
  | inside (stage : Stage)
  | exception (stage : ExcStage)
  deriving DecidableEq, Repr

/-- The places that hold `sched_lock`. -/
def Pc.holds : Pc → Bool
  | .locked | .suspended | .inside _ => true
  | _ => false

/-- The places where the current thread of the processor is in between. -/
def Pc.busy : Pc → Bool
  | .suspended | .inside _ => true
  | _ => false

/-- A processor, with its `cpu_locals_t`. -/
structure Cpu where
  pc : Pc
  currentThread : Option (ℕ × ℕ)
  idleTid : ℕ
  deriving DecidableEq, Repr

/-- The shared state. -/
structure Table where
  lock : Bool
  threads : Slots Thread
  /-- The threads in the wait lists of the futexes. -/
  waiters : List (ℕ × ℕ)
  /-- The calls of `kill_thread` that wait for a processor. -/
  dying : List (ℕ × ℕ)
  /-- The calls of `kill_thread` that have seen -1 in `cpu`. -/
  gone : List (ℕ × ℕ)
  /-- Ghost: the next new thread. -/
  nextIdent : ℕ
  /-- Ghost: the processor that has taken the lock. -/
  holder : Option ℕ
  /-- Ghost: the processor that is about to enter `schedule`, or inside. -/
  busy : Option ℕ
  /-- Ghost: the processor that made the thread its current thread last. -/
  runner : ℕ → Option ℕ
  /-- Ghost: the processor whose idle thread this is. -/
  idleOf : ℕ → Option ℕ
  /-- Ghost: the lock was released by a processor that did not have it. -/
  badRelease : Bool

/-- How a thread suspends itself. -/
inductive Suspend where
  | yield
  | sleep
  | waitEvent
  | waitEventTimeout
  | futex
  | block
  deriving DecidableEq, Repr

/-- The state of the thread afterwards. -/
def Suspend.state (current : ThreadState) : Suspend → ThreadState
  | .yield => current
  | .sleep => .sleep
  | .waitEvent => .waitEvent
  | .waitEventTimeout => .waitEventTimeout
  | .futex | .block => .blocked

/-- What a processor does while it has the lock. -/
inductive Op where
  | suspend (how : Suspend)
  /-- A new thread is put into the table. -/
  | create (blocked : Bool)
  /-- `advance_time` wakes a thread up. -/
  | wake (tid : ℕ)
  /-- `futex_wake` wakes a thread up. -/
  | futexWake (thread : ℕ × ℕ)
  /-- `kill_thread`, up to the wait. -/
  | kill (tid : ℕ)
  /-- `kill_thread`, after the wait. -/
  | remove (thread : ℕ × ℕ)
  | release
  deriving DecidableEq, Repr

/-- The statements of a processor. -/
inductive Stmt where
  | boot
  /-- `schedule_runner`. -/
  | tick
  | acquire
  | locked (op : Op)
  /-- `int $254`. -/
  | int254
  /-- The next statement of `schedule`; the event of the picked thread is set, or its time is over.
  -/
  | schedule (event : Bool)
  /-- An exception of the current thread, whose process has the threads. -/
  | exception (tids : List ℕ)
  | exceptionNext
  deriving DecidableEq, Repr

/-- A call of `kill_thread` sees -1 in `cpu`. -/
inductive WaitStmt where
  | observe (thread : ℕ × ℕ)
  deriving DecidableEq, Repr

namespace Table

/-- `threads[tid]`. -/
def get (g : Table) (tid : ℕ) : Option Thread := Slots.get g.threads tid

/-- `threads[tid] = thread`. -/
def setThread (g : Table) (tid : ℕ) (thread : Option Thread) : Table :=
  { g with threads := g.threads.set tid thread }

/-- The thread that a pointer points to. -/
def deref (g : Table) (p : ℕ × ℕ) : Option Thread :=
  (g.get p.1).filter fun thread => thread.ident = p.2

/-- The lock is taken. -/
def take (g : Table) (cpu : ℕ) : Table := { g with lock := true, holder := some cpu }

/-- The lock is released. -/
def release (g : Table) (cpu : ℕ) : Table :=
  { g with
    lock := false
    holder := none
    busy := if g.busy = some cpu then none else g.busy
    badRelease := g.badRelease || g.holder ≠ some cpu }

/-- `get_cpu_locals()->current_thread = thread`. -/
def setRunner (g : Table) (cpu : ℕ) (thread : Option ℕ) : Table :=
  { g with
    runner := fun id =>
      if thread = some id then some cpu else if g.runner id = some cpu then none else g.runner id }

/-- A new thread in the first free slot. -/
def create (g : Table) (state : ThreadState) : Table :=
  { g with
    threads := g.threads.alloc.2.set g.threads.alloc.1 (some ⟨g.nextIdent, state, 0, false, none⟩)
    nextIdent := g.nextIdent + 1 }

end Table

/-- `pick_task`: the threads after the current one come first. -/
def pickTask (g : Table) (currentThread : Option (ℕ × ℕ)) : Option ℕ :=
  currentThread.bind fun p =>
    ((List.range g.threads.length).filter (p.1 < ·) ++
      (List.range g.threads.length).filter (· ≤ p.1)).find? fun tid =>
        (g.get tid).any Thread.pickable

/-- The idle thread becomes the current thread. -/
def pickIdle (cpu : ℕ) (g : Table) (l : Cpu) : Option (Table × Cpu) :=
  (g.get l.idleTid).map fun idle =>
    (g.setRunner cpu idle.ident,
      { l with pc := .inside (.dispatch none), currentThread := some (l.idleTid, idle.ident) })

/-- The statements of `schedule`. -/
def scheduleStep (cpu : ℕ) (event : Bool) (stage : Stage) (g : Table) (l : Cpu) :
    Option (Table × Cpu) :=
  match stage with
  | .save =>
    match l.currentThread with
    | none => some (g, { l with pc := .inside (.pick none) })
    | some p =>
      (g.deref p).map fun thread =>
        (g.setThread p.1 (some (thread.save (p.1 = l.idleTid))),
          { l with pc := .inside (.pick none) })
  | .pick pickedFirst =>
    match pickTask g l.currentThread with
    | none => pickIdle cpu g l
    | some tid =>
      if pickedFirst = some tid then pickIdle cpu g l
      else some (g, { l with pc := .inside (.candidate (pickedFirst.getD tid) tid) })
  | .candidate pickedFirst tid =>
    (g.get tid).map fun thread =>
      let g := g.setRunner cpu thread.ident
      let l := { l with currentThread := some (tid, thread.ident) }
      if thread.state = .waitEvent ∨ thread.state = .waitEventTimeout then
        if event then
          (g.setThread tid (some { thread with state := .ready }),
            { l with pc := .inside (.dispatch (some tid)) })
        else (g, { l with pc := .inside (.pick (some pickedFirst)) })
      else (g, { l with pc := .inside (.dispatch (some tid)) })
  | .dispatch none =>
    (l.currentThread.bind fun p => (g.deref p).map (p.1, ·)).map fun (tid, thread) =>
      (g.setThread tid (some { thread with cpu := cpu }), { l with pc := .inside .unlock })
  | .dispatch (some _) =>
    (l.currentThread.bind fun p => (g.deref p).map (p.1, ·)).bind fun (tid, thread) =>
      -- the assertions
      if thread.state = .ready ∧ thread.running = false then
        some (g.setThread tid (some (thread.enter cpu)), { l with pc := .inside .unlock })
      else none
  | .unlock => some (g.release cpu, { l with pc := .running })

/-- What a processor does while it has the lock. -/
def lockedStep (cpu : ℕ) (op : Op) (g : Table) (l : Cpu) : Option (Table × Cpu) :=
  match op with
  | .suspend how =>
    (l.currentThread.bind fun p => (g.deref p).map (p, ·)).bind fun (p, thread) =>
      -- the idle threads make no calls; `sleep_ms` asserts that the thread is running
      if p.1 = l.idleTid ∨ (how = .sleep ∧ thread.state ≠ .running) then none
      else some
        ({ g.setThread p.1 (some { thread with state := how.state thread.state }) with
          busy := some cpu
          waiters := if how = .futex then p :: g.waiters else g.waiters },
        { l with pc := .suspended })
  | .create blocked => some (g.create (if blocked then .blocked else .ready), l)
  | .wake tid =>
    (g.get tid).bind fun thread =>
      if thread.state = .sleep then
        some (g.setThread tid (some { thread with state := .ready, running := false }), l)
      else none
  | .futexWake p =>
    if p ∈ g.waiters then
      (g.deref p).map fun thread =>
        ({ g.setThread p.1 (some { thread with state := .ready }) with
          waiters := g.waiters.filter (· ≠ p) }, l)
    else none
  | .kill tid =>
    (g.get tid).map fun thread =>
      let g := g.setThread tid (some { thread with state := .blocked })
      if thread.cpu = -1 then ({ g with gone := (tid, thread.ident) :: g.gone }, l)
      else ({ g with dying := (tid, thread.ident) :: g.dying }, l)
  | .remove p =>
    if p ∈ g.gone then
      (g.deref p).map fun _ => ({ g.setThread p.1 none with gone := g.gone.erase p }, l)
    else none
  | .release => some (g.release cpu, { l with pc := .running })

/-- `isr_handler` after an exception of a user thread.  `kill_thread` and the end of the process
hold the lock within a step. -/
def exceptionStep (cpu : ℕ) (stage : ExcStage) (g : Table) (l : Cpu) : Option (Table × Cpu) :=
  match stage with
  | .mark tids =>
    (l.currentThread.bind fun p => (g.deref p).map (p.1, ·)).map fun (tid, thread) =>
      (g.setThread tid (some { thread with state := .blocked, cpu := -1 }),
        { l with pc := .exception (.unlock tids) })
  | .unlock tids => some (g.release cpu, { l with pc := .exception (.kill tids) })
  | .kill [] => some (g, { l with pc := .exception .free })
  | .kill (tid :: tids) =>
    if g.lock then none
    else (g.get tid).map fun thread =>
      if thread.cpu = -1 then
        (g.setThread tid none, { l with pc := .exception (.kill tids) })
      else
        (g.setThread tid (some { thread with state := .blocked }),
          { l with pc := .exception (.wait tid thread.ident tids) })
  | .wait tid ident tids =>
    if g.lock then none
    else (g.deref (tid, ident)).bind fun thread =>
      if thread.cpu = -1 then
        some (g.setThread tid none, { l with pc := .exception (.kill tids) })
      else none
  | .free => if g.lock then none else some (g, { l with pc := .exception .enter })
  | .enter => some (g.setRunner cpu none, { l with pc := .inside .save, currentThread := none })

/-- The statements of a processor. -/
def cpuStep (cpu : ℕ) (a : Stmt) (g : Table) (l : Cpu) : Option (Table × Cpu) :=
  match a, l.pc with
  | .boot, .off =>
    if g.lock then none
    else some
      ({ g.create .blocked with idleOf := Function.update g.idleOf g.nextIdent (some cpu) },
        ⟨.running, none, g.threads.alloc.1⟩)
  | .tick, .running =>
    if g.lock then some (g, l)
    else some ({ g.take cpu with busy := some cpu }, { l with pc := .inside .save })
  | .acquire, .running =>
    if g.lock then none else some (g.take cpu, { l with pc := .locked })
  | .locked op, .locked => lockedStep cpu op g l
  | .int254, .suspended => some (g, { l with pc := .inside .save })
  | .schedule event, .inside stage => scheduleStep cpu event stage g l
  | .exception tids, .running =>
    if g.lock then none else some (g.take cpu, { l with pc := .exception (.mark tids) })
  | .exceptionNext, .exception stage => exceptionStep cpu stage g l
  | _, _ => none

/-- A call of `kill_thread` leaves its wait. -/
def waitStep (b : WaitStmt) (g : Table) : Option Table :=
  match b with
  | .observe p =>
    if p ∈ g.dying then
      (g.deref p).bind fun thread =>
        if thread.cpu = -1 then
          some { g with dying := g.dying.erase p, gone := p :: g.gone }
        else none
    else none

/-- Processors that share the table of threads. -/
def system : System ℕ Table Cpu Stmt WaitStmt := ⟨waitStep, cpuStep⟩

/-- No processor was started. -/
def init : Conf ℕ Table Cpu :=
  ⟨⟨false, [], [], [], [], 0, none, none, fun _ => none, fun _ => none, false⟩,
    fun _ => ⟨.off, none, 0⟩⟩

/-- There is no exception, and no idle thread is killed. -/
def NoException (c : Conf ℕ Table Cpu) : Act ℕ Stmt WaitStmt → Prop
  | .proc _ (.exception _) => False
  | .proc _ (.locked (.kill tid)) =>
    ∀ thread ∈ c.shared.get tid, c.shared.idleOf thread.ident = none
  | _ => True

instance (c : Conf ℕ Table Cpu) (l : Act ℕ Stmt WaitStmt) : Decidable (NoException c l) := by
  unfold NoException
  split <;> infer_instance

/-! ### The invariant -/

/-- What is true of a thread in the table. -/
structure ThreadOk (g : Table) (tid : ℕ) (th : Thread) : Prop where
  fresh : th.ident < g.nextIdent
  /-- The current thread of a processor that is not busy cannot be picked. -/
  runs : ∀ c, g.runner th.ident = some c →
    g.busy = some c ∨ th.cpu = c ∧ (th.state = .running ∨ th.state = .blocked)
  waits : (tid, th.ident) ∈ g.waiters →
    th.state = .blocked ∧ (g.runner th.ident = none ∨ g.runner th.ident = g.busy)
  idle : ∀ c, g.idleOf th.ident = some c → th.state = .blocked ∧ (tid, th.ident) ∉ g.waiters

/-- The numbers of the threads that are not in the table any more. -/
structure GhostsOk (g : Table) : Prop where
  runner : ∀ id c, g.runner id = some c → id < g.nextIdent
  waiters : ∀ p ∈ g.waiters, p.2 < g.nextIdent
  idleOf : ∀ id c, g.idleOf id = some c → id < g.nextIdent
  /-- A processor has one idle thread, and runs no other one. -/
  idleUnique : ∀ id id' c, g.idleOf id = some c → g.idleOf id' = some c → id = id'
  idleRuns : ∀ id c d, g.idleOf id = some c → g.runner id = some d → d = c
  dying : ∀ p, p ∈ g.dying ∨ p ∈ g.gone → p.2 < g.nextIdent ∧ g.idleOf p.2 = none

/-- What is true of the table. -/
structure TableOk (g : Table) : Prop where
  lock : g.lock = g.holder.isSome
  good : g.badRelease = false
  busy : ∀ c, g.busy = some c → g.holder = some c
  thread : ∀ tid th, g.get tid = some th → ThreadOk g tid th
  ident : ∀ i j th th', g.get i = some th → g.get j = some th' → th.ident = th'.ident → i = j
  ghosts : GhostsOk g

/-- What a processor knows about the thread it is about to run. -/
def StageOk (cpu : ℕ) (g : Table) (l : Cpu) : Pc → Prop
  | .off => l.currentThread = none ∧ ∀ id, g.idleOf id ≠ some cpu
  | .inside (.candidate _ tid) => ∃ th, g.get tid = some th ∧ th.pickable
  | .inside (.dispatch (some tid)) =>
    ∃ th, g.get tid = some th ∧ th.pickable ∧ l.currentThread = some (tid, th.ident)
  | .inside (.dispatch none) =>
    ∃ th, g.get l.idleTid = some th ∧ l.currentThread = some (l.idleTid, th.ident)
  | .inside .unlock => ∃ tid th, g.get tid = some th ∧ l.currentThread = some (tid, th.ident) ∧
      th.cpu = cpu ∧ (th.state = .running ∨ th.state = .blocked) ∧ (tid, th.ident) ∉ g.waiters
  | .exception _ => False
  | _ => True

/-- What is true of a processor. -/
structure CpuOk (cpu : ℕ) (g : Table) (l : Cpu) : Prop where
  holds : g.holder = some cpu ↔ l.pc.holds
  busy : g.busy = some cpu ↔ l.pc.busy
  runner : ∀ id, g.runner id = some cpu ↔ ∃ tid, l.currentThread = some (tid, id)
  idle : l.pc ≠ .off → ∃ th, g.get l.idleTid = some th ∧ g.idleOf th.ident = some cpu
  stage : StageOk cpu g l l.pc

variable {g g' : Table} {cpu d tid : ℕ} {l l' : Cpu} {th th' : Thread} {p : ℕ × ℕ} {stage : Stage}
  {event : Bool}

theorem get_setThread (h : g.get tid = some th) (x : Option Thread) (i : ℕ) :
    (g.setThread tid x).get i = if i = tid then x else g.get i :=
  Slots.get_set (Slots.lt_length h) x

theorem deref_eq_some : g.deref p = some th ↔ g.get p.1 = some th ∧ th.ident = p.2 := by
  simp [Table.deref]

theorem get_create (g : Table) (state : ThreadState) (i : ℕ) :
    (g.create state).get i =
      if i = g.threads.alloc.1 then some ⟨g.nextIdent, state, 0, false, none⟩ else g.get i :=
  Slots.get_set_alloc g.threads _

theorem CpuOk.ne_off (hc : CpuOk cpu g l) (hhold : g.holder = some cpu) : l.pc ≠ .off := by
  intro hoff
  have := hc.holds.1 hhold
  rw [hoff] at this
  cases this

theorem TableOk.busy_eq_none (hok : TableOk g) (hhold : g.holder = some cpu)
    (hb : g.busy ≠ some cpu) : g.busy = none := by
  refine eq_none_iff_forall_ne_some.2 fun d hd => hb ?_
  rw [hd, ← hok.busy d hd, hhold]

theorem TableOk.busy_none (hok : TableOk g) (hfree : g.lock = false) :
    g.holder = none ∧ g.busy = none := by
  have hnone : g.holder = none := not_isSome_iff_eq_none.1 (by simp [← hok.lock, hfree])
  refine ⟨hnone, eq_none_iff_forall_ne_some.2 fun d hd => ?_⟩
  cases hnone.symm.trans (hok.busy d hd)

theorem pickTask_eq_some (h : pickTask g l.currentThread = some tid) :
    ∃ th, g.get tid = some th ∧ th.pickable := by
  obtain ⟨p, -, h⟩ := bind_eq_some_iff.1 h
  have hany := List.find?_some h
  cases hget : g.get tid with
  | none => simp [hget] at hany
  | some th => exact ⟨th, rfl, by simpa [hget] using hany⟩

/-- A thread that can be picked runs nowhere else. -/
theorem TableOk.runner_of_pickable (hok : TableOk g) (hbusy : g.busy = some cpu)
    (hget : g.get tid = some th) (hpick : th.pickable) :
    (∀ d, g.runner th.ident = some d → d = cpu) ∧ (∀ d, g.idleOf th.ident ≠ some d) ∧
      (tid, th.ident) ∉ g.waiters := by
  have hth := hok.thread tid th hget
  have hstate : th.state ≠ .running ∧ th.state ≠ .blocked := by
    constructor <;> intro h <;> simp [Thread.pickable, h] at hpick
  refine ⟨fun d hd => ?_, fun d hd => hstate.2 (hth.idle d hd).1,
    fun hw => hstate.2 (hth.waits hw).1⟩
  rcases hth.runs d hd with hb | ⟨-, hs | hs⟩
  · exact Option.some.inj (hb.symm.trans hbusy)
  · exact absurd hs hstate.1
  · exact absurd hs hstate.2

/-- A processor inside of `schedule` has the lock. -/
theorem CpuOk.inside (hc : CpuOk cpu g l) (hpc : l.pc = .inside stage) :
    g.holder = some cpu ∧ g.busy = some cpu ∧ l.pc ≠ .off ∧ StageOk cpu g l (.inside stage) :=
  ⟨hc.holds.2 (by rw [hpc]; rfl), hc.busy.2 (by rw [hpc]; rfl), by simp [hpc], hpc ▸ hc.stage⟩

theorem runner_setRunner (g : Table) (cpu x id d : ℕ) : (g.setRunner cpu x).runner id = some d ↔
    (id = x ∧ d = cpu) ∨ (id ≠ x ∧ d ≠ cpu ∧ g.runner id = some d) := by
  simp only [Table.setRunner, Option.some.injEq]
  rcases eq_or_ne x id with rfl | hne
  · simp [eq_comm]
  · rw [if_neg hne]
    split_ifs with hcpu
    · simp only [hne.symm, false_and, ne_eq, not_false_eq_true, true_and, false_or, hcpu,
        Option.some.injEq]
      exact ⟨nofun, fun h => absurd h.2.symm h.1⟩
    · simp only [hne.symm, false_and, ne_eq, not_false_eq_true, true_and, false_or]
      refine ⟨fun h => ⟨?_, h⟩, fun h => h.2⟩
      rintro rfl
      exact hcpu h

/-- The processors without the lock do not notice what the one with it does. -/
theorem CpuOk.other (h : CpuOk d g l) (hhold : g.holder ≠ some d) (hhold' : g'.holder ≠ some d)
    (hbusy : g'.busy = some d → g.busy = some d)
    (hrunner : ∀ id, g'.runner id = some d ↔ g.runner id = some d)
    (hidle : ∀ tid th, g.get tid = some th → g.idleOf th.ident = some d →
      ∃ th', g'.get tid = some th' ∧ g'.idleOf th'.ident = some d)
    (hidleOf : ∀ id, g'.idleOf id = some d → g.idleOf id = some d)
    (hok : ∀ c, g.busy = some c → g.holder = some c) : CpuOk d g' l := by
  have hpc : l.pc.holds = false := Bool.eq_false_iff.2 fun hp => hhold (h.holds.2 hp)
  have hpc' : l.pc.busy = false := Bool.eq_false_iff.2 fun hp => hhold (hok d (h.busy.2 hp))
  refine ⟨?_, ?_, fun id => (hrunner id).trans (h.runner id), fun hoff => ?_, ?_⟩
  · simp [hhold', hpc]
  · refine iff_of_false (fun hb => hhold (hok d (hbusy hb))) (by simp [hpc'])
  · obtain ⟨th, hth, hid⟩ := h.idle hoff
    exact hidle _ th hth hid
  · have hstage := h.stage
    cases hpcs : l.pc <;> rw [hpcs] at hpc hstage
    case off => exact ⟨hstage.1, fun id hid => hstage.2 id (hidleOf id hid)⟩
    case running => trivial
    case locked | suspended | inside => cases hpc
    case exception => exact hstage.elim

/-- What a step of a processor has to keep. -/
structure Kept (cpu : ℕ) (g g' : Table) (l' : Cpu) : Prop where
  ok : TableOk g'
  own : CpuOk cpu g' l'
  others : ∀ d l, d ≠ cpu → CpuOk d g l → CpuOk d g' l

theorem Kept.trans {g1 g2 : Table} {l1 l2 : Cpu} (h : Kept cpu g g1 l1) (h' : Kept cpu g1 g2 l2) :
    Kept cpu g g2 l2 :=
  ⟨h'.ok, h'.own, fun d l hd hl => h'.others d l hd (h.others d l hd hl)⟩

/-- The list of threads and those of the dying ones do not matter. -/
theorem ThreadOk.lists {i : ℕ} {threads : List (Option Thread)} {dying gone : List (ℕ × ℕ)}
    (h : ThreadOk g i th) :
    ThreadOk { g with threads := threads, dying := dying, gone := gone } i th :=
  ⟨h.fresh, h.runs, h.waits, h.idle⟩

section Kept

variable (hok : TableOk g) (hc : CpuOk cpu g l)
include hok hc

theorem Kept.setPc {pc : Pc} (hholds : l.pc.holds = pc.holds) (hbusy : l.pc.busy = pc.busy)
    (hoff : l.pc ≠ .off) (hstage : StageOk cpu g { l with pc := pc } pc) :
    Kept cpu g g { l with pc := pc } :=
  ⟨hok, ⟨hholds ▸ hc.holds, hbusy ▸ hc.busy, hc.runner, fun _ => hc.idle hoff, hstage⟩,
    fun _ _ _ h => h⟩

section

variable (hhold : g.holder = some cpu)
include hhold

section

variable (hwaiters : ∀ p ∈ g'.waiters, p.2 < g.nextIdent)
  (hdying : ∀ p, p ∈ g'.dying ∨ p ∈ g'.gone → p.2 < g.nextIdent ∧ g.idleOf p.2 = none)
  (hcur : l'.currentThread = l.currentThread) (hidleTid : l'.idleTid = l.idleTid)
  (hpc : l'.pc.holds = true) (hbusy : g'.busy = if l'.pc.busy then some cpu else none)
  (hstage : StageOk cpu g' l' l'.pc)
include hwaiters hdying hcur hidleTid hpc hbusy hstage

theorem Kept.change
    (hsame : g' = { g with
      threads := g'.threads
      waiters := g'.waiters
      dying := g'.dying
      gone := g'.gone
      busy := g'.busy })
    (hthread : ∀ i th', g'.get i = some th' →
      ThreadOk g' i th' ∧ ∃ th, g.get i = some th ∧ th.ident = th'.ident)
    (hidle : ∀ i th c, g.get i = some th → g.idleOf th.ident = some c →
      ∃ th', g'.get i = some th' ∧ th'.ident = th.ident) : Kept cpu g g' l' := by
  have hidle' : ∀ i th c, g.get i = some th → g.idleOf th.ident = some c →
      ∃ th', g'.get i = some th' ∧ g.idleOf th'.ident = some c := by
    intro i th c hi hc
    obtain ⟨th', hi', hident⟩ := hidle i th c hi hc
    exact ⟨th', hi', by rw [hident, hc]⟩
  have hbusy' : ∀ c, g'.busy = some c → c = cpu := fun c hb => by
    rw [hbusy] at hb
    split_ifs at hb
    exact (Option.some.inj hb).symm
  rw [hsame] at hthread hidle' hstage ⊢
  refine ⟨⟨hok.lock, hok.good, fun c hb => ?_, fun i th hi => (hthread i th hi).1, ?_,
    ⟨hok.ghosts.runner, hwaiters, hok.ghosts.idleOf, hok.ghosts.idleUnique, hok.ghosts.idleRuns,
      hdying⟩⟩, ⟨?_, ?_, fun id => ?_, fun _ => ?_, hstage⟩, fun d ld hd hld => ?_⟩
  · rw [hbusy' c hb]
    exact hhold
  · intro i j th th' hi hj hident
    obtain ⟨-, th0, hi0, hth0⟩ := hthread i th hi
    obtain ⟨-, th1, hj1, hth1⟩ := hthread j th' hj
    exact hok.ident i j th0 th1 hi0 hj1 (by rw [hth0, hth1, hident])
  · simp [hhold, hpc]
  · rw [hbusy]
    cases l'.pc.busy <;> simp
  · rw [hcur]
    exact hc.runner id
  · obtain ⟨th, hth, hid⟩ := hc.idle (hc.ne_off hhold)
    rw [hidleTid]
    exact hidle' _ th cpu hth hid
  · exact hld.other (by simp [hhold, hd.symm]) (by simp [hhold, hd.symm])
      (fun hb => absurd (hbusy' d hb) hd) (fun _ => Iff.rfl) (fun tid th => hidle' tid th d)
      (fun _ h => h) hok.busy

theorem Kept.changeThread (th' : Thread) (hget : g.get tid = some th)
    (hident : th'.ident = th.ident)
    (hsame : g' = { g with
      threads := g.threads.set tid (some th')
      waiters := g'.waiters
      dying := g'.dying
      gone := g'.gone
      busy := g'.busy })
    (hth : ThreadOk g' tid th')
    (hothers : ∀ i th, i ≠ tid → g.get i = some th → ThreadOk g' i th) : Kept cpu g g' l' := by
  have hget' : ∀ i, g'.get i = if i = tid then some th' else g.get i := fun i => by
    rw [hsame]
    exact get_setThread hget _ i
  refine .change hok hc hhold hwaiters hdying hcur hidleTid hpc hbusy hstage (by rw [hsame])
    (fun i th1 hi => ?_) fun i th0 c hi _ => ?_
  · rw [hget'] at hi
    split_ifs at hi with hit
    · cases hi
      subst hit
      exact ⟨hth, th, hget, hident.symm⟩
    · exact ⟨hothers i th1 hit hi, th1, hi, rfl⟩
  · rw [hget']
    split_ifs with hit
    · subst hit
      cases hget.symm.trans hi
      exact ⟨th', rfl, hident⟩
    · exact ⟨th0, hi, rfl⟩

end

theorem Kept.setThread {pc : Pc} (hget : g.get tid = some th) (hident : th'.ident = th.ident)
    (hth : ThreadOk g tid th') (hpc : l.pc.busy = pc.busy) (hpc' : pc.holds)
    (hstage : StageOk cpu (g.setThread tid (some th')) { l with pc := pc } pc) :
    Kept cpu g (g.setThread tid (some th')) { l with pc := pc } := by
  have hbusy : g.busy = if pc.busy then some cpu else none := by
    rw [← hpc]
    split_ifs with hb
    · exact hc.busy.2 hb
    · exact hok.busy_eq_none hhold (mt hc.busy.1 hb)
  exact .changeThread hok hc hhold hok.ghosts.waiters hok.ghosts.dying rfl rfl hpc' hbusy hstage th'
    hget hident rfl hth.lists fun i th1 _ hi => (hok.thread i th1 hi).lists

end

/-- The current thread of a processor, while it is inside. -/
theorem CpuOk.deref (hcur : l.currentThread = some p) (hp : g.deref p = some th) :
    g.get p.1 = some th ∧ th.ident = p.2 ∧ g.runner th.ident = some cpu ∧ ThreadOk g p.1 th := by
  obtain ⟨hget, hident⟩ := deref_eq_some.1 hp
  exact ⟨hget, hident, (hc.runner _).2 ⟨p.1, by rw [hcur, hident]⟩, hok.thread _ _ hget⟩

theorem Kept.setRunner {pc : Pc} (hbusy : g.busy = some cpu) (hget : g.get tid = some th)
    (hfree : ∀ d, g.runner th.ident = some d → d = cpu)
    (hidle : ∀ d, g.idleOf th.ident = some d → d = cpu) (hpc : pc.holds) (hpc' : pc.busy)
    (hstage : StageOk cpu (g.setRunner cpu th.ident)
      { l with pc := pc, currentThread := some (tid, th.ident) } pc) :
    Kept cpu g (g.setRunner cpu th.ident)
      { l with pc := pc, currentThread := some (tid, th.ident) } := by
  have hhold := hok.busy cpu hbusy
  have hrunner := runner_setRunner g cpu th.ident
  refine ⟨⟨hok.lock, hok.good, hok.busy, fun i th1 hi => ?_, hok.ident, ?_⟩,
    ⟨?_, ?_, ?_, ?_, hstage⟩, ?_⟩
  · have hth1 := hok.thread i th1 hi
    refine ⟨hth1.fresh, fun c hrun => ?_, fun hw => ⟨(hth1.waits hw).1, ?_⟩, hth1.idle⟩
    · rcases (hrunner _ _).1 hrun with ⟨-, rfl⟩ | ⟨-, -, hold⟩
      · exact .inl hbusy
      · exact hth1.runs c hold
    · cases hr : (g.setRunner cpu th.ident).runner th1.ident with
      | none => exact .inl rfl
      | some c =>
        right
        rcases (hrunner _ _).1 hr with ⟨-, rfl⟩ | ⟨-, hne, hold⟩
        · exact hbusy.symm
        · rcases (hth1.waits hw).2 with hnone | hb
          · cases hold.symm.trans hnone
          · exact hold.symm.trans hb
  · refine ⟨fun id c hrun => ?_, hok.ghosts.waiters, hok.ghosts.idleOf, hok.ghosts.idleUnique,
      fun id c d hid hrun => ?_, hok.ghosts.dying⟩
    · rcases (hrunner _ _).1 hrun with ⟨rfl, -⟩ | ⟨-, -, hold⟩
      · exact (hok.thread _ _ hget).fresh
      · exact hok.ghosts.runner id c hold
    · rcases (hrunner _ _).1 hrun with ⟨rfl, rfl⟩ | ⟨-, -, hold⟩
      · exact (hidle c hid).symm
      · exact hok.ghosts.idleRuns id c d hid hold
  · simp only [hpc, iff_true]
    exact hhold
  · simp only [hpc', iff_true]
    exact hbusy
  · intro id
    rw [hrunner]
    simp [eq_comm]
  · intro _
    exact hc.idle (hc.ne_off hhold)
  · intro d ld hd hld
    refine hld.other (by simp [hhold, hd.symm]) (by simp [Table.setRunner, hhold, hd.symm]) id
      (fun id => ?_) (fun tid th hth hid => ⟨th, hth, hid⟩) (fun _ h => h) hok.busy
    rw [hrunner]
    refine ⟨fun h => ?_, fun h => .inr ⟨?_, hd, h⟩⟩
    · rcases h with ⟨-, rfl⟩ | ⟨-, -, h⟩
      · exact absurd rfl hd
      · exact h
    · rintro rfl
      exact hd (hfree d h)

/-! ### Taking and releasing the lock -/

theorem Kept.take (pc : Pc) (hfree : g.lock = false) (hpc : l.pc = .running) (hpc' : pc.holds)
    (hstage : ∀ g, StageOk cpu g { l with pc := pc } pc) :
    Kept cpu g { g.take cpu with busy := if pc.busy then some cpu else none }
      { l with pc := pc } := by
  obtain ⟨hnone, hbusy⟩ := hok.busy_none hfree
  refine ⟨⟨rfl, hok.good, fun c h => ?_, fun i th hi => ?_, hok.ident, ?_⟩,
    ⟨by simp [Table.take, hpc'], ?_, hc.runner, fun _ => hc.idle (by simp [hpc]), hstage _⟩,
    fun d ld hd hld => ?_⟩
  · dsimp only at h
    split_ifs at h
    exact h
  · have hth := hok.thread i th hi
    refine ⟨hth.fresh, fun c hrun => ?_, fun hw => ⟨(hth.waits hw).1, .inl ?_⟩, hth.idle⟩
    · rcases hth.runs c hrun with hb | hdone
      · cases hbusy.symm.trans hb
      · exact .inr hdone
    · rcases (hth.waits hw).2 with hn | hb
      · exact hn
      · exact hb.trans hbusy
  · exact ⟨hok.ghosts.runner, hok.ghosts.waiters, hok.ghosts.idleOf, hok.ghosts.idleUnique,
      hok.ghosts.idleRuns, hok.ghosts.dying⟩
  · dsimp only
    cases pc.busy <;> simp
  · refine hld.other (by simp [hnone]) (by simp [Table.take, hd.symm]) (fun h => ?_)
      (fun _ => Iff.rfl) (fun tid th hth hid => ⟨th, hth, hid⟩) (fun _ h => h) hok.busy
    split_ifs at h
    exact absurd (Option.some.inj h).symm hd

/-- A processor releases the lock when its current thread is in order. -/
theorem Kept.release (hhold : g.holder = some cpu)
    (hcur : ∀ tid th, g.get tid = some th → g.runner th.ident = some cpu → g.busy = some cpu →
      th.cpu = cpu ∧ (th.state = .running ∨ th.state = .blocked) ∧ (tid, th.ident) ∉ g.waiters) :
    Kept cpu g (g.release cpu) { l with pc := .running } := by
  have hbusy : (g.release cpu).busy = none := by
    simp only [Table.release]
    split_ifs with hb
    · rfl
    · exact hok.busy_eq_none hhold hb
  have hbusy' : ∀ d, g.busy = some d → d = cpu := fun d hd =>
    Option.some.inj ((hok.busy d hd).symm.trans hhold)
  refine ⟨⟨rfl, ?_, fun c h => ?_, fun i th hi => ?_, hok.ident, ?_⟩, ⟨?_, ?_, hc.runner, fun _ =>
    hc.idle (hc.ne_off hhold), trivial⟩, fun d ld hd hld => ?_⟩
  · simp [Table.release, hok.good, hhold]
  · cases hbusy.symm.trans h
  · have hth := hok.thread i th hi
    refine ⟨hth.fresh, fun c hrun => ?_, fun hw => ⟨(hth.waits hw).1, .inl ?_⟩, hth.idle⟩
    · rcases hth.runs c hrun with hb | hdone
      · obtain rfl := hbusy' c hb
        obtain ⟨hcpu, hstate, -⟩ := hcur i th hi hrun hb
        exact .inr ⟨hcpu, hstate⟩
      · exact .inr hdone
    · rcases (hth.waits hw).2 with hnone | hb
      · exact hnone
      · refine eq_none_iff_forall_ne_some.2 fun c hrun => ?_
        have hbc : g.busy = some c := by rw [← hb]; exact hrun
        obtain rfl := hbusy' c hbc
        exact (hcur i th hi hrun hbc).2.2 hw
  · exact ⟨hok.ghosts.runner, hok.ghosts.waiters, hok.ghosts.idleOf, hok.ghosts.idleUnique,
      hok.ghosts.idleRuns, hok.ghosts.dying⟩
  · simp [Table.release, Pc.holds]
  · simp [hbusy, Pc.busy]
  · exact hld.other (by simp [hhold, hd.symm]) (by simp [Table.release])
      (fun h => by cases hbusy.symm.trans h) (fun _ => Iff.rfl)
      (fun tid th hth hid => ⟨th, hth, hid⟩) (fun _ h => h) hok.busy

/-! ### `schedule` -/

theorem pickIdle_kept (hbusy : g.busy = some cpu) (hoff : l.pc ≠ .off)
    (h : pickIdle cpu g l = some (g', l')) : Kept cpu g g' l' := by
  obtain ⟨th, hth, heq⟩ := map_eq_some_iff.1 h
  cases heq
  obtain ⟨th', hth', hid⟩ := hc.idle hoff
  cases hth.symm.trans hth'
  refine .setRunner hok hc hbusy hth (fun d => hok.ghosts.idleRuns _ _ _ hid)
    (fun d hd => Option.some.inj (hd.symm.trans hid)) rfl rfl ⟨th, hth, rfl⟩

theorem Kept.setStage {stage' : Stage} (hpc : l.pc = .inside stage)
    (hstage : StageOk cpu g { l with pc := .inside stage' } (.inside stage')) :
    Kept cpu g g { l with pc := .inside stage' } :=
  .setPc hok hc (by rw [hpc]; rfl) (by rw [hpc]; rfl) (by simp [hpc]) hstage

theorem save_kept (hpc : l.pc = .inside .save)
    (h : scheduleStep cpu event .save g l = some (g', l')) : Kept cpu g g' l' := by
  obtain ⟨hhold, hbusy, -, -⟩ := hc.inside hpc
  dsimp only [scheduleStep] at h
  split at h
  · cases h
    exact .setStage hok hc hpc trivial
  · rename_i p hcur
    obtain ⟨th, hp, heq⟩ := map_eq_some_iff.1 h
    cases heq
    obtain ⟨hget, hident, hrun, hth⟩ := hc.deref hok hcur hp
    refine .setThread hok hc hhold hget rfl ⟨hth.fresh, fun c hc' => .inl ?_, fun hw => ?_, ?_⟩
      (by rw [hpc]; rfl) rfl trivial
    · rw [hbusy, ← hrun]
      exact hc'
    · obtain ⟨hblocked, hrunner⟩ := hth.waits hw
      exact ⟨by simp [Thread.save, hblocked], hrunner⟩
    · intro c hid
      obtain ⟨hblocked, hw⟩ := hth.idle c hid
      exact ⟨by simp [Thread.save, hblocked], hw⟩

theorem pick_kept {pickedFirst : Option ℕ} (hpc : l.pc = .inside (.pick pickedFirst))
    (h : scheduleStep cpu event (.pick pickedFirst) g l = some (g', l')) : Kept cpu g g' l' := by
  obtain ⟨-, hbusy, hoff, -⟩ := hc.inside hpc
  dsimp only [scheduleStep] at h
  split at h
  · exact pickIdle_kept hok hc hbusy hoff h
  · rename_i tid hpick
    split_ifs at h
    · exact pickIdle_kept hok hc hbusy hoff h
    · cases h
      exact .setStage hok hc hpc (pickTask_eq_some hpick)

/-- The candidate becomes the current thread, whether it can run or not. -/
theorem candidate_kept {pickedFirst : ℕ} (hpc : l.pc = .inside (.candidate pickedFirst tid))
    (h : scheduleStep cpu event (.candidate pickedFirst tid) g l = some (g', l')) :
    Kept cpu g g' l' := by
  obtain ⟨th, hget, heq⟩ := map_eq_some_iff.1 h
  obtain ⟨hhold, hbusy, -, th0, hget0, hpick⟩ := hc.inside hpc
  cases hget.symm.trans hget0
  obtain ⟨hrun, hidle, hw⟩ := hok.runner_of_pickable hbusy hget hpick
  have hcur (pc : Pc) (hpc : pc.holds) (hpc' : pc.busy)
      (hst : StageOk cpu (g.setRunner cpu th.ident)
        { l with pc := pc, currentThread := some (tid, th.ident) } pc) :=
    Kept.setRunner hok hc hbusy hget hrun (fun d hd => absurd hd (hidle d)) hpc hpc' hst
  dsimp only at heq
  split_ifs at heq with hwait hevent
  · cases heq
    have hcur1 := hcur (.inside (.candidate pickedFirst tid)) rfl rfl ⟨th, hget, hpick⟩
    have hth1 := hcur1.ok.thread tid th hget
    refine hcur1.trans (.setThread hcur1.ok hcur1.own hhold hget rfl ⟨hth1.fresh, fun c hc' => ?_,
      fun hw' => absurd hw' hw, fun c hid => absurd hid (hidle c)⟩ rfl rfl ?_)
    · rcases hth1.runs c hc' with hb | ⟨-, hs | hs⟩
      · exact .inl hb
      · simp [hs] at hwait
      · simp [hs] at hwait
    · have hset := get_setThread (g := g.setRunner cpu th.ident) hget
      exact ⟨_, (hset _ tid).trans (if_pos rfl), rfl, rfl⟩
  · cases heq
    exact hcur _ rfl rfl trivial
  · cases heq
    exact hcur _ rfl rfl ⟨th, hget, hpick, rfl⟩

/-- The current thread is the one that was picked, and nobody waits for it. -/
theorem CpuOk.dispatched {next : Option ℕ} (hpc : l.pc = .inside (.dispatch next)) :
    ∃ tid th, g.get tid = some th ∧ l.currentThread = some (tid, th.ident) ∧
      (tid, th.ident) ∉ g.waiters ∧
      (next = none ∧ th.state = .blocked ∨ next ≠ none ∧ ∀ d, g.idleOf th.ident ≠ some d) := by
  obtain ⟨-, hbusy, hoff, hstage⟩ := hc.inside hpc
  cases next with
  | none =>
    obtain ⟨th, hget, hcur⟩ := hstage
    obtain ⟨th', hget', hid⟩ := hc.idle hoff
    cases hget.symm.trans hget'
    obtain ⟨hblocked, hw⟩ := (hok.thread _ _ hget).idle cpu hid
    exact ⟨_, th, hget, hcur, hw, .inl ⟨rfl, hblocked⟩⟩
  | some tid =>
    obtain ⟨th, hget, hpick, hcur⟩ := hstage
    obtain ⟨-, hidle, hw⟩ := hok.runner_of_pickable hbusy hget hpick
    exact ⟨_, th, hget, hcur, hw, .inr ⟨by simp, hidle⟩⟩

theorem Kept.enter {th' : Thread} (hpc : l.pc = .inside stage) (hget : g.get tid = some th)
    (hcur : l.currentThread = some (tid, th.ident)) (hw : (tid, th.ident) ∉ g.waiters)
    (hident : th'.ident = th.ident) (hcpu : th'.cpu = cpu)
    (hstate : th'.state = .running ∧ (∀ d, g.idleOf th.ident ≠ some d) ∨ th'.state = .blocked) :
    Kept cpu g (g.setThread tid (some th')) { l with pc := .inside .unlock } := by
  obtain ⟨hhold, hbusy, -, -⟩ := hc.inside hpc
  have hrun : g.runner th.ident = some cpu := (hc.runner _).2 ⟨tid, hcur⟩
  refine .setThread hok hc hhold hget hident ⟨?_, fun c hc' => .inl ?_, fun hw' => ?_,
    fun c hid => ?_⟩ (by rw [hpc]; rfl) rfl ?_
  · rw [hident]
    exact (hok.thread tid th hget).fresh
  · rw [hident, hrun] at hc'
    rw [hbusy, hc']
  · rw [hident] at hw'
    exact absurd hw' hw
  · rw [hident] at hid ⊢
    rcases hstate with ⟨-, hidle⟩ | hblocked
    · exact absurd hid (hidle c)
    · exact ⟨hblocked, hw⟩
  · refine ⟨tid, th', (get_setThread hget _ tid).trans (if_pos rfl), by rw [hident]; exact hcur,
      hcpu, hstate.imp_left And.left, ?_⟩
    rw [hident]
    exact hw

theorem dispatch_kept {next : Option ℕ} (hpc : l.pc = .inside (.dispatch next))
    (h : scheduleStep cpu event (.dispatch next) g l = some (g', l')) : Kept cpu g g' l' := by
  obtain ⟨tid, th, hget, hcur, hw, hcase⟩ := hc.dispatched hok hpc
  have hderef : g.deref (tid, th.ident) = some th := deref_eq_some.2 ⟨hget, rfl⟩
  have hbind : (l.currentThread.bind fun p => (g.deref p).map (p.1, ·)) = some (tid, th) := by
    simp [hcur, hderef]
  cases next with
  | none =>
    dsimp only [scheduleStep] at h
    rw [hbind] at h
    cases h
    rcases hcase with ⟨-, hblocked⟩ | ⟨hne, -⟩
    · exact .enter hok hc hpc hget hcur hw rfl rfl (.inr hblocked)
    · exact absurd rfl hne
  | some next =>
    dsimp only [scheduleStep] at h
    rw [hbind] at h
    dsimp only [bind_some] at h
    split_ifs at h
    cases h
    rcases hcase with ⟨hne, -⟩ | ⟨-, hidle⟩
    · cases hne
    · exact .enter hok hc hpc hget hcur hw rfl rfl (.inl ⟨rfl, hidle⟩)

theorem unlock_kept (hpc : l.pc = .inside .unlock)
    (h : scheduleStep cpu event .unlock g l = some (g', l')) : Kept cpu g g' l' := by
  obtain ⟨hhold, -, -, tid, th, hget, hcur, hcpu, hstate, hw⟩ := hc.inside hpc
  cases h
  refine .release hok hc hhold fun i th' hi hrun _ => ?_
  -- the thread is the current thread
  obtain ⟨tid', hcur'⟩ := (hc.runner _).1 hrun
  obtain ⟨-, hident⟩ := Prod.mk.inj (Option.some.inj (hcur.symm.trans hcur'))
  obtain rfl := hok.ident tid i th th' hget hi hident
  cases hget.symm.trans hi
  exact ⟨hcpu, hstate, hw⟩

/-- **`schedule` keeps the invariant.** -/
theorem scheduleStep_kept (hpc : l.pc = .inside stage)
    (h : scheduleStep cpu event stage g l = some (g', l')) :
    Kept cpu g g' l' := by
  cases stage with
  | save => exact save_kept hok hc hpc h
  | pick pickedFirst => exact pick_kept hok hc hpc h
  | candidate pickedFirst tid => exact candidate_kept hok hc hpc h
  | dispatch next => exact dispatch_kept hok hc hpc h
  | unlock => exact unlock_kept hok hc hpc h

end Kept

/-! ### `schedule` as one step -/

section Atomic

/-- Where a processor is in `Smp.schedule`, which began in the state `m`. -/
def Progress (m : Smp) (cpu : ℕ) (locals : CpuLocals) (g : Table) (cur : Option (ℕ × ℕ)) :
    Pc → Prop
  | .inside .save => g.threads = m.sched.threads ∧ cur = locals.currentThread
  | .inside (.pick _) => ∃ m', m.saveThread locals = .ok m' ∧ g.threads = m'.sched.threads
  | .inside (.candidate _ tid) => ∃ m' thread, m.saveThread locals = .ok m' ∧
      g.threads = m'.sched.threads ∧ m'.get tid = some thread ∧ thread.pickable
  | .inside (.dispatch none) => ∃ m' idle, m.saveThread locals = .ok m' ∧
      g.threads = m'.sched.threads ∧ m'.get locals.idleTid = some idle ∧
      cur = some (locals.idleTid, idle.ident)
  | .inside (.dispatch (some tid)) => ∃ m' thread state, m.saveThread locals = .ok m' ∧
      g.threads = m'.sched.threads.set tid (some { thread with state := state }) ∧
      m'.get tid = some thread ∧ thread.pickable ∧ cur = some (tid, thread.ident)
  | .inside .unlock | .running => ∃ m' next, m.schedule cpu next = .ok m' ∧
      g.threads = m'.sched.threads ∧ m'.cpus[cpu]? = some ⟨cur, locals.idleTid⟩
  | _ => False

variable {m m' : Smp} {cpu tid : ℕ} {locals : CpuLocals} {g g' : Table} {l l' : Cpu}
  {thread : Thread} {event : Bool} {stage : Stage}

theorem saveThread_ok (hcpu : m.cpus[cpu]? = some locals) (h : m.saveThread locals = .ok m') :
    m'.cpus[cpu]? = some locals ∧
      ∀ next, m.schedule cpu next = m'.restoreThread cpu locals next := by
  refine ⟨?_, fun next => ?_⟩
  · rw [(Smp.saveThread_ok h).2.1]
    exact hcpu
  · rw [Smp.schedule, hcpu]
    show (m.saveThread locals >>= _) = _
    rw [h, ok_bind]

theorem cpus_setCurrent (hcpu : m.cpus[cpu]? = some locals) :
    (m.setCurrent cpu locals tid thread).cpus[cpu]? =
      some ⟨some (tid, thread.ident), locals.idleTid⟩ :=
  List.getElem?_set_self (List.getElem?_eq_some_iff.1 hcpu).1

theorem set_of_get {t : Slots Thread} (h : Slots.get t tid = some thread) :
    t.set tid (some thread) = t := by
  obtain ⟨hlt, heq⟩ := List.getElem?_eq_some_iff.1 (Slots.get_eq_some.1 h)
  rw [← heq, List.set_getElem_self]

/-- The processor follows `Smp.schedule`. -/
def Follows (m : Smp) (cpu : ℕ) (locals : CpuLocals) (g : Table) (l : Cpu) : Prop :=
  l.idleTid = locals.idleTid ∧ Progress m cpu locals g l.currentThread l.pc

section Stages

variable (hidle : l.idleTid = locals.idleTid)
include hidle

theorem follows_save (hg : g.threads = m.sched.threads)
    (hcur : l.currentThread = locals.currentThread)
    (hstep : scheduleStep cpu event .save g l = some (g', l')) : Follows m cpu locals g' l' := by
  unfold scheduleStep at hstep
  rw [hcur] at hstep
  cases hlocals : locals.currentThread with
  | none =>
    rw [hlocals] at hstep
    cases hstep
    refine ⟨hidle, m, ?_, hg⟩
    rw [Smp.saveThread, hlocals]
  | some p =>
    rw [hlocals] at hstep
    obtain ⟨th, hth, heq⟩ := map_eq_some_iff.1 hstep
    cases heq
    obtain ⟨hget, hident⟩ := deref_eq_some.1 hth
    rw [Table.get, hg] at hget
    refine ⟨hidle, { m with sched := m.sched.setThread p.1 (some (th.save (p.1 = l.idleTid))) },
      ?_, congrArg (List.set · p.1 _) hg⟩
    rw [Smp.saveThread, hlocals]
    dsimp only
    rw [Smp.get, hget]
    dsimp only
    rw [if_pos hident, hidle]

variable (hsave : m.saveThread locals = .ok m')
include hsave

section Pick

variable (hg : g.threads = m'.sched.threads)
include hg

theorem follows_pickIdle (hstep : pickIdle cpu g l = some (g', l')) :
    Follows m cpu locals g' l' := by
  obtain ⟨idle, hget, heq⟩ := map_eq_some_iff.1 hstep
  cases heq
  refine ⟨hidle, m', idle, hsave, hg, ?_, by rw [← hidle]⟩
  rw [← hidle, Smp.get, ← hg]
  exact hget

theorem follows_pick {pickedFirst : Option ℕ}
    (hstep : scheduleStep cpu event (.pick pickedFirst) g l = some (g', l')) :
    Follows m cpu locals g' l' := by
  unfold scheduleStep at hstep
  cases hpick : pickTask g l.currentThread with
  | none =>
    rw [hpick] at hstep
    exact follows_pickIdle hidle hsave hg hstep
  | some tid =>
    rw [hpick] at hstep
    dsimp only at hstep
    split_ifs at hstep
    · exact follows_pickIdle hidle hsave hg hstep
    · cases hstep
      obtain ⟨th, hth, hp⟩ := pickTask_eq_some hpick
      rw [Table.get, hg] at hth
      exact ⟨hidle, m', th, hsave, hg, hth, hp⟩

theorem follows_candidate {pickedFirst : ℕ} (hth : m'.get tid = some thread)
    (hp : thread.pickable)
    (hstep : scheduleStep cpu event (.candidate pickedFirst tid) g l = some (g', l')) :
    Follows m cpu locals g' l' := by
  obtain ⟨th', hth', heq⟩ := map_eq_some_iff.1 hstep
  rw [Table.get, hg] at hth'
  cases hth.symm.trans hth'
  dsimp only at heq
  split_ifs at heq
  · cases heq
    exact ⟨hidle, m', thread, .ready, hsave, congrArg (List.set · tid _) hg, hth, hp, rfl⟩
  · cases heq
    exact ⟨hidle, m', hsave, hg⟩
  · cases heq
    exact ⟨hidle, m', thread, thread.state, hsave, hg.trans (set_of_get hth).symm, hth, hp, rfl⟩

end Pick

variable (hcpu : m.cpus[cpu]? = some locals) (hcur : l.currentThread = some (tid, thread.ident))
include hcpu hcur

theorem follows_dispatchIdle (hg : g.threads = m'.sched.threads) (htid : tid = locals.idleTid)
    (hth : m'.get tid = some thread)
    (hstep : scheduleStep cpu event (.dispatch none) g l = some (g', l')) :
    Follows m cpu locals g' l' := by
  subst htid
  obtain ⟨hcpu', hsched⟩ := saveThread_ok hcpu hsave
  obtain ⟨⟨tid, th⟩, hth', heq⟩ := map_eq_some_iff.1 hstep
  rw [hcur, bind_some] at hth'
  obtain ⟨th', hth', hpair⟩ := map_eq_some_iff.1 hth'
  cases hpair
  obtain ⟨hget, -⟩ := deref_eq_some.1 hth'
  rw [Table.get, hg] at hget
  cases hth.symm.trans hget
  cases heq
  refine ⟨hidle, m'.setCurrent cpu locals locals.idleTid { thread with cpu := cpu }, none, ?_,
    congrArg (List.set · _ _) hg, ?_⟩
  · rw [hsched, Smp.restoreThread, hth]
  · rw [cpus_setCurrent hcpu']
    exact congrArg (fun c => some (CpuLocals.mk c _)) hcur.symm

theorem follows_dispatch {state : ThreadState}
    (hg : g.threads = m'.sched.threads.set tid (some { thread with state := state }))
    (hth : m'.get tid = some thread) (hp : thread.pickable)
    (hstep : scheduleStep cpu event (.dispatch (some tid)) g l = some (g', l')) :
    Follows m cpu locals g' l' := by
  obtain ⟨hcpu', hsched⟩ := saveThread_ok hcpu hsave
  obtain ⟨⟨i, th'⟩, hth', heq⟩ := bind_eq_some_iff.1 hstep
  rw [hcur, bind_some] at hth'
  obtain ⟨th'', hth'', hpair⟩ := map_eq_some_iff.1 hth'
  cases hpair
  obtain ⟨hget, -⟩ := deref_eq_some.1 hth''
  rw [Table.get, hg, Slots.get_set (Slots.lt_length hth), if_pos rfl] at hget
  cases hget
  dsimp only at heq
  split_ifs at heq with hassert
  cases heq
  refine ⟨hidle, m'.setCurrent cpu locals tid (thread.enter cpu), some tid, ?_, ?_, ?_⟩
  · rw [hsched, Smp.restoreThread, Sched.getThread_eq_ok.2 hth, ok_bind,
      if_pos ⟨hp, by rw [hassert.2]; rfl⟩]
  · show g.threads.set tid _ = _
    rw [hg, List.set_set]
    rfl
  · rw [cpus_setCurrent hcpu']
    exact congrArg (fun c => some (CpuLocals.mk c _)) hcur.symm

end Stages

/-- A statement of `schedule`. -/
theorem Follows.step (hcpu : m.cpus[cpu]? = some locals) (h : Follows m cpu locals g l)
    (hpc : l.pc = .inside stage) (hstep : scheduleStep cpu event stage g l = some (g', l')) :
    Follows m cpu locals g' l' := by
  obtain ⟨hidle, h⟩ := h
  rw [hpc] at h
  cases stage with
  | save => exact follows_save hidle h.1 h.2 hstep
  | pick pickedFirst =>
    obtain ⟨m', hsave, hg⟩ := h
    exact follows_pick hidle hsave hg hstep
  | candidate pickedFirst tid =>
    obtain ⟨m', th, hsave, hg, hth, hp⟩ := h
    exact follows_candidate hidle hsave hg hth hp hstep
  | dispatch next =>
    cases next with
    | none =>
      obtain ⟨m', idle, hsave, hg, hth, hcur⟩ := h
      exact follows_dispatchIdle hidle hsave hcpu hcur hg rfl hth hstep
    | some tid =>
      obtain ⟨m', th, state, hsave, hg, hth, hp, hcur⟩ := h
      exact follows_dispatch hidle hsave hcpu hcur hg hth hp hstep
  | unlock =>
    cases hstep
    exact ⟨hidle, h⟩

/-- **The statements of `schedule` do what `Smp.schedule` does in one step**: the thread that is
picked is the one of the last round. -/
theorem schedule_refines {events : List Bool} (hcpu : m.cpus[cpu]? = some locals)
    (hg : g.threads = m.sched.threads)
    (hl : l = ⟨.inside .save, locals.currentThread, locals.idleTid⟩)
    (hrun : events.foldlM (fun p event => cpuStep cpu (.schedule event) p.1 p.2) (g, l) =
      some (g', l')) (hend : l'.pc = .running) :
    ∃ m' next, m.schedule cpu next = .ok m' ∧ g'.threads = m'.sched.threads ∧
      m'.cpus[cpu]? = some ⟨l'.currentThread, l'.idleTid⟩ := by
  have hall : Follows m cpu locals g' l' := by
    clear hend
    induction events using List.reverseRecOn generalizing g' l' with
    | nil =>
      cases hrun
      subst hl
      exact ⟨rfl, hg, rfl⟩
    | append_singleton events event ih =>
      rw [List.foldlM_append, bind_eq_bind, bind_eq_some_iff] at hrun
      obtain ⟨⟨g1, l1⟩, hrun, hstep⟩ := hrun
      have h := ih hrun
      have hstep : cpuStep cpu (.schedule event) g1 l1 = some (g', l') := by simpa using hstep
      obtain ⟨pc, cur, idle⟩ := l1
      cases pc with
      | inside stage => exact h.step hcpu rfl hstep
      | _ => cases hstep
  obtain ⟨hidle, h⟩ := hall
  rw [hend] at h
  rwa [hidle]

end Atomic

end SchedLock

end DripOS
