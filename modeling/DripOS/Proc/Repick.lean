import DripOS.Lib.CyclicSearch
import DripOS.Proc.Scheduler
import Mathlib.Algebra.Group.Nat.Defs

/-!
# The choice of the next thread

`pick_task` and the loop of `schedule` at the label `repick_task`, of `src/proc/scheduler.c`, and
`await_event_timeout` of `src/proc/event.c`.  `pick_task` returns the next thread that is ready or
waits for an event.  `schedule` makes it the current thread, and calls `pick_task` again if its
event is not set, until it gets the first thread again.

* `RunTable.repick_first` : **the loop ends, and picks the first thread that can run**, in the
  cyclic order after the current thread;
* `RunTable.timeout_iff` : **the test of a timeout** subtracts in the wrong direction.
-/

namespace DripOS

open Slots

/-- The fields of `thread_t` that the choice depends on. -/
structure WaitingThread where
  tid : ℕ
  state : ThreadState
  /-- The address of the event. -/
  event : ℕ
  eventWaitStart : UInt64
  eventTimeout : UInt64
  deriving DecidableEq, Repr

/-- What `await_event_timeout` stores in the thread that calls it. -/
def WaitingThread.awaitEventTimeout (thread : WaitingThread) (e : ℕ)
    (timeout globalTicks : UInt64) : WaitingThread :=
  { thread with
    event := e
    state := .waitEventTimeout
    eventTimeout := timeout
    eventWaitStart := globalTicks }

/-- The states for which `pick_task` returns a thread. -/
def WaitingThread.eligible (task : WaitingThread) : Bool :=
  task.state = .ready ∨ task.state = .waitEvent ∨ task.state = .waitEventTimeout

/-- The table of threads, the events at their addresses, and the time. -/
structure RunTable where
  threads : Slots WaitingThread
  counter : ℕ → BitVec 32
  globalTicks : UInt64

namespace RunTable

variable (q : RunTable)

/-- The body of the loops of `pick_task`. -/
def pickAt (t : ℕ) : Option ℕ :=
  (get q.threads t).bind fun task => if task.eligible then some task.tid else none

/-- `pick_task`; `cur` is the number of the current thread. -/
def pickTask : (cur : Option ℕ) → Option ℕ
  | none => none
  | some cur =>
    ((List.range' (cur + 1) (q.threads.length - (cur + 1))).findSome? q.pickAt).or
      ((List.range (cur + 1)).findSome? q.pickAt)

/-- `atomic_dec`. -/
def atomicDec (e : ℕ) : RunTable :=
  { q with counter := Function.update q.counter e (q.counter e - 1) }

/-- `to_run->state = READY`. -/
def setReady (tid : ℕ) (toRun : WaitingThread) : RunTable :=
  { q with threads := q.threads.set tid (some { toRun with state := .ready }) }

/-- `schedule` looks at a thread: it goes to `picked` with this table, or back to `repick_task`. -/
def examine (tid : ℕ) (toRun : WaitingThread) : Option RunTable :=
  match toRun.state with
  | .waitEvent =>
    if q.counter toRun.event ≠ 0 then some ((q.atomicDec toRun.event).setReady tid toRun) else none
  | .waitEventTimeout =>
    if q.counter toRun.event ≠ 0 then some ((q.atomicDec toRun.event).setReady tid toRun)
    -- the difference is unsigned
    else if toRun.eventTimeout ≤ toRun.eventWaitStart - q.globalTicks then
      some (q.setReady tid toRun)
    else none
  | _ => some q

/-- `threads[tid]`, which is used without a test. -/
def getThread (tid : ℕ) : Except SchedHalt WaitingThread :=
  match get q.threads tid with
  | some thread => .ok thread
  | none => .error .fault

/-- The loop at `repick_task`: the thread that is picked, or the idle thread, and the table.  `seen`
are the threads that were examined. -/
def repick : (fuel : ℕ) → (cur pickedFirst : Option ℕ) → (seen : List ℕ) →
    Except SchedHalt (Option ℕ × List ℕ × RunTable)
  | 0, _, _, _ => .error .hang
  | fuel + 1, cur, pickedFirst, seen =>
    match q.pickTask cur with
    | none => .ok (none, seen, q)
    | some tidRun =>
      if pickedFirst = some tidRun then .ok (none, seen, q)
      else do
        let toRun ← q.getThread tidRun
        match q.examine tidRun toRun with
        | some q' => .ok (some tidRun, seen ++ [tidRun], q')
        | none => repick fuel (some toRun.tid) (some (pickedFirst.getD tidRun)) (seen ++ [tidRun])

/-- The thread is ready, or its event is set, or the test of its timeout succeeds. -/
def Runnable (thread : WaitingThread) : Prop :=
  thread.state = .ready ∨
    (thread.state = .waitEvent ∨ thread.state = .waitEventTimeout) ∧ q.counter thread.event ≠ 0 ∨
    thread.state = .waitEventTimeout ∧ thread.eventTimeout ≤ thread.eventWaitStart - q.globalTicks

instance (thread : WaitingThread) : Decidable (q.Runnable thread) :=
  inferInstanceAs (Decidable (_ ∨ _ ∨ _))

/-- The thread in the slot can run. -/
def runnableAt (t : ℕ) : Bool := (get q.threads t).any fun thread => q.Runnable thread

/-- The table when the thread was picked: it is ready, and an event that was set is decremented. -/
def resume (t : ℕ) (thread : WaitingThread) : RunTable :=
  { q.setReady t thread with
    counter := if thread.state ≠ .ready ∧ q.counter thread.event ≠ 0
      then Function.update q.counter thread.event (q.counter thread.event - 1) else q.counter }

/-- The slots hold the threads with their numbers. -/
def Numbered : Prop := ∀ t thread, get q.threads t = some thread → thread.tid = t

variable {q} {t cur fuel : ℕ} {thread : WaitingThread} {first : Option ℕ} {seen : List ℕ}

theorem setReady_of_ready (hget : get q.threads t = some thread)
    (hready : thread.state = .ready) : q.setReady t thread = q := by
  obtain ⟨hlt, hval⟩ := List.getElem?_eq_some_iff.1 (get_eq_some.1 hget)
  have hset : q.threads.set t (some thread) = q.threads := by
    rw [← hval]
    exact List.set_getElem_self hlt
  unfold setReady
  rw [← hready, hset]

/-- A thread that can run is taken; only its state and its event change. -/
theorem examine_of_runnable (hget : get q.threads t = some thread) (h : q.Runnable thread) :
    q.examine t thread = some (q.resume t thread) := by
  unfold examine resume
  cases hstate : thread.state with
  | ready =>
    dsimp only
    rw [if_neg (fun hne => hne.1 rfl), setReady_of_ready hget hstate]
  | waitEvent =>
    have hevent : q.counter thread.event ≠ 0 := by simpa [Runnable, hstate] using h
    dsimp only
    rw [if_pos hevent, if_pos ⟨nofun, hevent⟩]
    rfl
  | waitEventTimeout =>
    dsimp only
    by_cases hevent : q.counter thread.event ≠ 0
    · rw [if_pos hevent, if_pos ⟨nofun, hevent⟩]
      rfl
    · have htimeout : thread.eventTimeout ≤ thread.eventWaitStart - q.globalTicks := by
        rw [not_not] at hevent
        simpa [Runnable, hstate, hevent] using h
      rw [if_neg hevent, if_pos htimeout, if_neg fun hne => hevent hne.2]
      rfl
  | running => simp [Runnable, hstate] at h
  | blocked => simp [Runnable, hstate] at h
  | sleep => simp [Runnable, hstate] at h

/-- A thread that waits and cannot run is passed over. -/
theorem examine_of_not_runnable (heligible : thread.eligible) (h : ¬ q.Runnable thread) :
    q.examine t thread = none := by
  unfold examine
  simp only [Runnable, not_or, not_and] at h
  obtain ⟨hready, hevent, htimeout⟩ := h
  cases hstate : thread.state with
  | ready => exact absurd hstate hready
  | waitEvent => exact if_neg (hevent (Or.inl hstate))
  | waitEventTimeout =>
    dsimp only
    rw [if_neg (hevent (Or.inr hstate)), if_neg (htimeout hstate)]
  | running => simp [WaitingThread.eligible, hstate] at heligible
  | blocked => simp [WaitingThread.eligible, hstate] at heligible
  | sleep => simp [WaitingThread.eligible, hstate] at heligible

/-! ### The loop as a cyclic search -/

open CyclicSearch

/-- A thread for which `pick_task` returns. -/
def eligibleAt (q : RunTable) (t : ℕ) : Bool := (get q.threads t).any WaitingThread.eligible

theorem eligible_of_runnable (h : q.Runnable thread) : thread.eligible := by
  rcases h with h | ⟨h | h, -⟩ | ⟨h, -⟩ <;> simp [WaitingThread.eligible, h]

theorem eligibleAt_eq_true :
    q.eligibleAt t = true ↔ ∃ thread, get q.threads t = some thread ∧ thread.eligible := by
  unfold eligibleAt
  cases get q.threads t <;> simp

theorem runnableAt_eq_true :
    q.runnableAt t = true ↔ ∃ thread, get q.threads t = some thread ∧ q.Runnable thread := by
  unfold runnableAt
  cases get q.threads t <;> simp

theorem runnableAt_eq (q : RunTable) :
    q.runnableAt = fun t => q.eligibleAt t && q.runnableAt t := by
  funext t
  unfold runnableAt eligibleAt
  cases get q.threads t with
  | none => rfl
  | some thread =>
    by_cases h : q.Runnable thread
    · simp [eligible_of_runnable h]
    · simp [h]

theorem pickAt_eq (h : q.Numbered) : q.pickAt = Option.guard q.eligibleAt := by
  funext t
  unfold pickAt eligibleAt
  cases hget : get q.threads t with
  | none => simp [Option.guard, hget]
  | some thread =>
    by_cases heligible : thread.eligible
    · simp [Option.guard, hget, h t thread hget]
    · simp [Option.guard, hget, heligible]

section

variable (h : q.Numbered) (hcur : cur < q.threads.length)
include h hcur

/-- `pick_task` searches the slots in cyclic order. -/
theorem pickTask_eq : q.pickTask (some cur) = (order q.threads.length cur).find? q.eligibleAt := by
  unfold pickTask
  rw [pickAt_eq h, order_eq hcur, List.find?_append, List.find?_eq_findSome?_guard,
    List.find?_eq_findSome?_guard]

/-- The table when the search ends. -/
def finish (q : RunTable) : Option ℕ → RunTable
  | none => q
  | some t => ((get q.threads t).map (q.resume t)).getD q

/-- The loop is a cyclic search for a thread that can run. -/
theorem repick_eq :
    q.repick fuel (some cur) first seen =
      match search q.threads.length q.eligibleAt q.runnableAt fuel cur first seen with
      | none => .error .hang
      | some (picked, seen) => .ok (picked, seen, q.finish picked) := by
  induction fuel generalizing cur first seen with
  | zero => rfl
  | succ fuel ih =>
    unfold repick search
    rw [pickTask_eq h hcur]
    cases hpick : (order q.threads.length cur).find? q.eligibleAt with
    | none => rfl
    | some t =>
      dsimp only
      by_cases hfirst : first = some t
      · rw [if_pos hfirst, if_pos hfirst]
        rfl
      · rw [if_neg hfirst, if_neg hfirst]
        obtain ⟨thread, hget, heligible⟩ := eligibleAt_eq_true.1 (List.find?_some hpick)
        have hthread : q.getThread t = .ok thread := by
          unfold getThread
          rw [hget]
        rw [hthread, ok_bind]
        by_cases hrun : q.Runnable thread
        · have hrunAt : q.runnableAt t = true := by simp [runnableAt, hget, hrun]
          rw [if_pos hrunAt, examine_of_runnable hget hrun]
          simp [finish, hget]
        · have hrunAt : ¬ q.runnableAt t = true := by simp [runnableAt, hget, hrun]
          rw [if_neg hrunAt, examine_of_not_runnable heligible hrun, h t thread hget]
          exact ih (lt_length hget)

/-- The loop finds the first thread that can run, and passes over the others. -/
theorem repick_spec : q.repick (q.threads.length + 1) (some cur) none [] =
    .ok ((order q.threads.length cur).find? q.runnableAt,
      examined q.eligibleAt q.runnableAt (order q.threads.length cur),
      q.finish ((order q.threads.length cur).find? q.runnableAt)) := by
  have hsearch := search_eq q.threads.length cur q.eligibleAt q.runnableAt
  rw [← runnableAt_eq] at hsearch
  exact (repick_eq h hcur).trans (by rw [hsearch])

end

/-- **The loop ends, and picks the first thread that can run** in the cyclic order of the numbers
after the current thread, or the idle thread.  No thread is examined twice, only threads that are
ready or wait are examined, and only the state and the event of the picked thread change. -/
theorem repick_first (h : q.Numbered) (hcur : cur < q.threads.length) :
    ∃ picked seen q', q.repick (q.threads.length + 1) (some cur) none [] = .ok (picked, seen, q') ∧
      picked = (List.range' (cur + 1) (q.threads.length - (cur + 1)) ++ List.range (cur + 1)).find?
        q.runnableAt ∧
      seen.Nodup ∧ (∀ t ∈ seen, ∃ thread, get q.threads t = some thread ∧ thread.eligible) ∧
      (picked = none ↔ ∀ t thread, get q.threads t = some thread → ¬ q.Runnable thread) ∧
      (picked = none → q' = q) ∧
      ∀ t, picked = some t → ∃ thread, get q.threads t = some thread ∧ q.Runnable thread ∧
        q' = q.resume t thread := by
  have hseen := examined_prefix q.eligibleAt q.runnableAt (order q.threads.length cur)
  refine ⟨_, _, _, repick_spec h hcur, by rw [order_eq hcur],
    hseen.sublist.nodup (nodup_order.filter _), fun t ht => ?_, ?_, fun hnone => ?_, fun t ht => ?_⟩
  · exact eligibleAt_eq_true.1 (List.mem_filter.1 (hseen.subset ht)).2
  · rw [List.find?_eq_none]
    constructor
    · intro hnone t thread hget hrun
      exact hnone t (mem_order.2 (lt_length hget)) (by simp [runnableAt, hget, hrun])
    · intro hnone t _ hrun
      obtain ⟨thread, hget, hrun⟩ := runnableAt_eq_true.1 hrun
      exact hnone t thread hget hrun
  · rw [hnone]
    rfl
  · obtain ⟨thread, hget, hrun⟩ := runnableAt_eq_true.1 (List.find?_some ht)
    refine ⟨thread, hget, hrun, ?_⟩
    simp [ht, finish, hget]

/-- Three threads: the current one, one that waits, and one that is ready. -/
def threeThreads : RunTable where
  threads := [some ⟨0, .ready, 0, 0, 0⟩, some ⟨1, .waitEvent, 7, 0, 0⟩, none,
    some ⟨3, .waitEventTimeout, 8, 0, 50⟩]
  counter := fun e => if e = 8 then 2 else 0
  globalTicks := 0

theorem numbered_threeThreads : threeThreads.Numbered := by
  intro t thread hget
  match t, hget with
  | 0, hget => cases hget; rfl
  | 1, hget => cases hget; rfl
  | 3, hget => cases hget; rfl
  | _ + 4, hget => cases hget

/-- The thread that waits for an event that is not set is passed over. -/
theorem repick_first_threeThreads :
    ∃ picked seen q', threeThreads.repick 5 (some 0) none [] = .ok (picked, seen, q') ∧
      picked = some 3 ∧ seen.Nodup ∧
      (∀ t ∈ seen, ∃ thread, get threeThreads.threads t = some thread ∧ thread.eligible) ∧
      (picked = none ↔ ∀ t thread, get threeThreads.threads t = some thread →
        ¬ threeThreads.Runnable thread) ∧
      (picked = none → q' = threeThreads) ∧
      ∀ t, picked = some t → ∃ thread, get threeThreads.threads t = some thread ∧
        threeThreads.Runnable thread ∧ q' = threeThreads.resume t thread :=
  repick_first numbered_threeThreads (by decide)

/-! ### Timeouts -/

/-- The ticks that have passed are too few, or enough, for both directions of the difference. -/
def DifferenceAgrees (start now timeout : UInt64) : Prop :=
  now = start ∨
    timeout.toNat ≤ min (now.toNat - start.toNat) (2 ^ 64 - (now.toNat - start.toNat)) ∨
    max (now.toNat - start.toNat) (2 ^ 64 - (now.toNat - start.toNat)) < timeout.toNat

/-- The test of the source is right exactly if both directions agree. -/
theorem differenceAgrees_iff {start now timeout : UInt64} (h : start ≤ now) :
    (timeout ≤ start - now ↔ timeout.toNat ≤ now.toNat - start.toNat) ↔
      DifferenceAgrees start now timeout := by
  have hle := UInt64.le_iff_toNat_le.1 h
  have hnow := now.toNat_lt
  rw [UInt64.le_iff_toNat_le, UInt64.toNat_sub]
  unfold DifferenceAgrees
  rw [← UInt64.toNat_inj]
  omega

/-- No thread that can run comes before the thread, so that the loop comes to it. -/
def Reaches (q : RunTable) (cur t : ℕ) : Prop :=
  ∀ s ∈ (List.range' (cur + 1) (q.threads.length - (cur + 1)) ++ List.range (cur + 1)).takeWhile
    (· ≠ t), q.runnableAt s = false

/-- The loop examines the threads that it comes to. -/
theorem mem_examined_iff (hcur : cur < q.threads.length) (helig : q.eligibleAt t = true) :
    t ∈ examined q.eligibleAt q.runnableAt (order q.threads.length cur) ↔ q.Reaches cur t := by
  obtain ⟨thread, hget, -⟩ := eligibleAt_eq_true.1 helig
  obtain ⟨l1, l2, hsplit⟩ := List.append_of_mem (@mem_order q.threads.length cur t |>.2
    (lt_length hget))
  have hnodup := @nodup_order q.threads.length cur
  rw [hsplit] at hnodup
  have hbefore : (order q.threads.length cur).takeWhile (· ≠ t) = l1 := by
    have hl1 : ∀ s ∈ l1, s ≠ t := fun s hs heq =>
      (List.nodup_append.1 hnodup).2.2 s hs t List.mem_cons_self heq
    rw [hsplit, List.takeWhile_append_of_pos (by simpa using hl1)]
    simp
  rw [Reaches, ← order_eq hcur, hbefore, hsplit, mem_examined hnodup helig]
  exact forall_congr' fun s => by rw [← congrFun (runnableAt_eq q) s]

/-- **The test of a timeout.**  A thread has called `await_event_timeout` at the tick `start`, and
its event is still 0.  The loop picks it when the time is over and not before, exactly if it does
not come to it or the two directions of the difference agree. -/
theorem timeout_iff (h : q.Numbered) (hcur : cur < q.threads.length) {e : ℕ}
    {timeout start : UInt64} (hget : get q.threads t =
      some (thread.awaitEventTimeout e timeout start))
    (hevent : q.counter e = 0) (hstart : start ≤ q.globalTicks) :
    ∃ picked seen q', q.repick (q.threads.length + 1) (some cur) none [] = .ok (picked, seen, q') ∧
      (((picked = some t → timeout.toNat ≤ q.globalTicks.toNat - start.toNat) ∧
        (t ∈ seen → timeout.toNat ≤ q.globalTicks.toNat - start.toNat → picked = some t)) ↔
      (q.Reaches cur t → DifferenceAgrees start q.globalTicks timeout)) := by
  refine ⟨_, _, _, repick_spec h hcur, ?_⟩
  have helig : q.eligibleAt t = true := by
    simp [eligibleAt, hget, WaitingThread.eligible, WaitingThread.awaitEventTimeout]
  rw [mem_examined_iff hcur helig]
  have hrun : q.runnableAt t = true ↔ timeout ≤ start - q.globalTicks := by
    simp [runnableAt, hget, Runnable, WaitingThread.awaitEventTimeout, hevent]
  have hpicked : (order q.threads.length cur).find? q.runnableAt = some t ↔
      q.Reaches cur t ∧ timeout ≤ start - q.globalTicks := by
    have hgood := filter_examined q.eligibleAt q.runnableAt (order q.threads.length cur)
    rw [← runnableAt_eq] at hgood
    rw [← Option.mem_toList, ← hgood, List.mem_filter, hrun, mem_examined_iff hcur helig]
  rw [hpicked, ← differenceAgrees_iff hstart]
  tauto

/-- One thread, waiting since tick 100 for at most `timeout` ticks. -/
def oneWaiter (timeout now : UInt64) : RunTable where
  threads := [some (WaitingThread.awaitEventTimeout ⟨0, .running, 0, 0, 0⟩ 7 timeout 100)]
  counter := fun _ => 0
  globalTicks := now

theorem numbered_oneWaiter (timeout now : UInt64) : (oneWaiter timeout now).Numbered := by
  intro t thread hget
  match t, hget with
  | 0, hget => cases hget; rfl
  | _ + 1, hget => cases hget

/-- The thread waits for five ticks, and seven ticks have passed. -/
theorem timeout_iff_oneWaiter :
    ∃ picked seen q', (oneWaiter 5 107).repick 2 (some 0) none [] = .ok (picked, seen, q') ∧
      (((picked = some 0 → (5 : UInt64).toNat ≤ (107 : UInt64).toNat - (100 : UInt64).toNat) ∧
        (0 ∈ seen → (5 : UInt64).toNat ≤ (107 : UInt64).toNat - (100 : UInt64).toNat →
          picked = some 0)) ↔
      ((oneWaiter 5 107).Reaches 0 0 → DifferenceAgrees 100 107 5)) :=
  timeout_iff (numbered_oneWaiter 5 107) (by decide) rfl rfl (by decide)

/-- **A timeout of 1000 ticks is over after one tick.** -/
theorem timeout_after_one_tick :
    ((oneWaiter 1000 101).repick 2 (some 0) none []).toOption.map (fun r => (r.1, r.2.1)) =
      some (some 0, [0]) ∧
    ¬ (1000 : UInt64).toNat ≤ (101 : UInt64).toNat - (100 : UInt64).toNat := by
  decide +kernel

end RunTable

end DripOS
