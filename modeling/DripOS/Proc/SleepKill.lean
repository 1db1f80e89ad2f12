import DripOS.Proc.SleepQueue

/-!
# Sleeping threads that are killed

`kill_thread` leaves the node of a sleeping thread in the queue, and `add_new_tid` gives its number
to the next thread, which `advance_time` finds when the node expires.

`Sched.wakes_own_thread` : in every run in which no new thread gets a number that is in the queue,
`advance_time` wakes up the threads that went to sleep, and its assertion holds.
`Sched.reused_tid_woken` shows what happens otherwise.
-/

namespace DripOS

open Slots

namespace Sched

variable {s s' : Sched}

/-- What happens to threads. -/
inductive ThreadOp where
  | newProcess
  /-- A new thread of a process. -/
  | create (pid : ℕ) (blocked : Bool)
  /-- A new thread without a process. -/
  | start (blocked : Bool)
  | sleep (cpu tid : ℕ) (ms : UInt64) (next : Option ℕ)
  | kill (tid : ℕ)
  /-- A call of `kill_thread` for the thread `ident` goes on after its wait. -/
  | resume (tid ident : ℕ)
  | tick (locked : Bool)
  | schedule (cpu : ℕ) (cur next : Option ℕ)

/-- The state in which the kernel creates a thread. -/
def initState (blocked : Bool) : ThreadState := if blocked then .blocked else .ready

/-- The operations. -/
def exec (s : Sched) : ThreadOp → Except SchedHalt Sched
  | .newProcess => .ok s.newProcess.2
  | .create pid blocked => do
    let (thread, s) := s.createThread (initState blocked)
    let (_, s) ← s.addNewChildThread thread pid
    .ok s
  | .start blocked =>
    let (thread, s) := s.createThread (initState blocked)
    .ok (s.startThread thread).2
  | .sleep cpu tid ms next => s.sleepMs cpu tid ms next
  | .kill tid => s.killThread tid
  | .resume tid ident => if s.dying.contains (tid, ident) then s.killResume tid ident else .ok s
  | .tick locked => s.advanceTime locked
  | .schedule cpu cur next => s.schedule cpu cur next

/-- The number of a new thread is not in the queue. -/
def TidUnused (s : Sched) : ThreadOp → Prop
  | .create _ _ | .start _ => ∀ n ∈ s.queue, n.tid ≠ s.threads.alloc.1
  | _ => True

instance (s : Sched) (op : ThreadOp) : Decidable (s.TidUnused op) := by
  unfold TidUnused
  split <;> infer_instance

/-- An operation that gives no number of the queue to a new thread. -/
def ThreadStep (s : Sched) (op : ThreadOp) (s' : Sched) : Prop :=
  s.TidUnused op ∧ s.exec op = .ok s'

theorem sleepOk_init : SleepOk init := by
  refine ⟨⟨List.nodup_nil, ?_⟩, ?_, ?_, ?_, ?_, ?_⟩ <;> simp [init, Slots.get]

/-- A new thread keeps the invariant, if its number is not in the queue. -/
theorem SleepOk.newThread (h : SleepOk s) (hunused : ∀ n ∈ s.queue, n.tid ≠ s.threads.alloc.1)
    {thread : Thread} (hident : thread.ident = s.nextIdent) (hstate : thread.state ≠ .sleep)
    (hget : ∀ i, get s'.threads i = if i = s.threads.alloc.1 then some thread else get s.threads i)
    (hqueue : s'.queue = s.queue) (hnext : s'.nextIdent = s.nextIdent + 1)
    (hwakes : s'.wakes = s.wakes) : SleepOk s' := by
  have hcases : ∀ i th, get s'.threads i = some th →
      (i = s.threads.alloc.1 ∧ th = thread) ∨ get s.threads i = some th :=
    fun i _ => get_cases (hget i)
  refine ⟨⟨hqueue ▸ h.queue.nodup, fun n hn th hth => ?_⟩, fun i j th th' hi hj heq => ?_,
    fun i th hi => ?_, fun n hn => ?_, fun i th hi hsleep => ?_, hwakes ▸ h.wakes⟩
  · rw [hqueue] at hn
    rcases hcases _ _ hth with ⟨heq, -⟩ | hth
    · exact absurd heq (hunused n hn)
    · exact h.queue.sleeping n hn th hth
  · rcases hcases _ _ hi with ⟨rfl, rfl⟩ | hi
    · rcases hcases _ _ hj with ⟨rfl, rfl⟩ | hj
      · rfl
      · have := h.fresh j th' hj
        omega
    · rcases hcases _ _ hj with ⟨rfl, rfl⟩ | hj
      · have := h.fresh i th hi
        omega
      · exact h.ident i j th th' hi hj heq
  · rcases hcases _ _ hi with ⟨rfl, rfl⟩ | hi
    · omega
    · have := h.fresh i th hi
      omega
  · rw [hqueue] at hn
    obtain ⟨hlt, hunique⟩ := h.owner n hn
    refine ⟨by omega, fun i th hi heq => ?_⟩
    rcases hcases _ _ hi with ⟨rfl, rfl⟩ | hi
    · omega
    · exact hunique i th hi heq
  · rcases hcases _ _ hi with ⟨rfl, rfl⟩ | hi
    · exact absurd hsleep hstate
    · exact h.cpu i th hi hsleep

theorem initState_ne_sleep (blocked : Bool) : initState blocked ≠ .sleep := by
  cases blocked <;> decide

/-- The end of a thread: its node stays in the queue, and names nobody. -/
theorem SleepOk.removed (h : SleepOk s) {tid : ℕ} {thread : Thread}
    (hremoved : Removed s s' tid thread) : SleepOk s' := by
  have hsame := hremoved.same
  refine h.mono (by rw [hsame]) (fun i th' hi => ?_) (by rw [hsame]) (by rw [hsame]; exact h.wakes)
  rw [hremoved.get] at hi
  split_ifs at hi
  exact ⟨th', hi, rfl, h.cpu i th' hi, fun hsleep _ => hsleep⟩

/-- `kill_thread` removes a sleeping thread at once. -/
theorem SleepOk.killThread (h : SleepOk s) {tid : ℕ} (hs : s.killThread tid = .ok s') :
    SleepOk s' := by
  obtain ⟨thread, hget, ⟨-, hremoved⟩ | ⟨hcpu, rfl⟩⟩ := killThread_ok hs
  · exact h.removed hremoved
  · refine h.mono (List.Sublist.refl _) (fun i th' hi => ?_) rfl h.wakes
    have hi := (get_setThread_map hget (fun th => { th with state := .blocked }) i).symm.trans hi
    obtain ⟨th, hth, rfl⟩ := Option.map_eq_some_iff.1 hi
    refine ⟨th, hth, ?_, ?_, fun hsleep _ => ?_⟩
    · split_ifs <;> rfl
    · split_ifs
      · intro hsleep
        cases hsleep
      · exact h.cpu i th hth
    · split_ifs with heq
      · -- a thread on a processor does not sleep
        subst heq
        cases hget.symm.trans hth
        exact absurd (h.cpu i _ hth hsleep) hcpu
      · exact hsleep

theorem SleepOk.exec (h : SleepOk s) {op : ThreadOp} (hunused : s.TidUnused op)
    (hs : s.exec op = .ok s') : SleepOk s' := by
  cases op with
  | newProcess =>
    cases hs
    refine ⟨⟨h.queue.nodup, h.queue.sleeping⟩, h.ident, fun i th hi => ?_, fun n hn => ?_, h.cpu,
      h.wakes⟩
    · exact (h.fresh i th hi).trans (Nat.lt_succ_self _)
    · exact ⟨(h.owner n hn).1.trans (Nat.lt_succ_self _), (h.owner n hn).2⟩
  | create pid blocked =>
    obtain ⟨⟨tid, s1⟩, hadd, hs⟩ := bind_eq_ok.1 hs
    cases hs
    obtain ⟨parent, -, -, hget, hsame, -⟩ := addNewChildThread_ok hadd
    exact @newThread s _ h hunused
      ⟨s.nextIdent, initState blocked, 0, false, some (pid, parent.ident)⟩ rfl
      (initState_ne_sleep blocked) hget (by rw [hsame]) (by rw [hsame]) (by rw [hsame])
  | start blocked =>
    cases hs
    exact @newThread s _ h hunused ⟨s.nextIdent, initState blocked, 0, false, none⟩ rfl
      (initState_ne_sleep blocked) (fun i => get_set_alloc _ _) rfl rfl rfl
  | sleep cpu tid ms next => exact h.sleepMs hs
  | kill tid => exact h.killThread hs
  | resume tid ident =>
    dsimp only [Sched.exec] at hs
    split_ifs at hs
    · obtain ⟨thread, -, -, -, hremoved⟩ := killResume_ok hs
      exact h.removed hremoved
    · cases hs
      exact h
  | tick locked =>
    obtain ⟨s1, hs1, hok⟩ := h.advanceTime locked
    cases hs1.symm.trans hs
    exact hok
  | schedule cpu cur next => exact h.schedule hs

/-- **`advance_time` wakes up the threads that went to sleep**, and its assertion holds, in every
run in which no number of the queue is given to a new thread. -/
theorem wakes_own_thread {ops : List ThreadOp} (hrun : Run ThreadStep init ops s) (locked : Bool) :
    ∃ s', s.advanceTime locked = .ok s' ∧ ∀ p ∈ s'.wakes, p.1 = p.2 := by
  have hinv := hrun.invariant (I := SleepOk) sleepOk_init fun s op s' h ⟨hunused, hexec⟩ =>
    h.exec hunused hexec
  obtain ⟨s', hs', hok⟩ := hinv.advanceTime locked
  exact ⟨s', hs', hok.wakes⟩

/-- Two threads sleep, and the first one is killed in its sleep. -/
def killedSleeper : List ThreadOp :=
  [.newProcess, .create 0 false, .create 0 false, .schedule 0 none (some 0),
    .sleep 0 0 1 (some 1), .kill 0, .sleep 0 1 1 none]

/-- The second thread is woken up. -/
theorem wakes_own_thread_killedSleeper : ∃ s, Run ThreadStep init killedSleeper s ∧
    ∃ s', s.advanceTime false = .ok s' ∧ ∀ p ∈ s'.wakes, p.1 = p.2 := by
  obtain ⟨s, hrun, -⟩ : ∃ s, Run ThreadStep init killedSleeper s ∧ true :=
    Run.exists_of_exec (P := TidUnused) (f := exec) (q := fun _ => true) (by decide +kernel)
  exact ⟨s, hrun, wakes_own_thread hrun false⟩

/-- **The number of a killed thread is given away while it is in the queue.**  The new thread was
never asleep, and the assertion fails; or it sleeps for five ticks, and is woken up by the second
one. -/
theorem reused_tid_woken :
    (List.foldlM exec init [.newProcess, .create 0 false, .schedule 0 none (some 0),
      .sleep 0 0 2 none, .kill 0, .create 0 false, .tick false, .tick false] = .error .assertion) ∧
    (List.foldlM exec init [.newProcess, .create 0 false, .schedule 0 none (some 0),
      .sleep 0 0 2 none, .kill 0, .create 0 false, .schedule 0 none (some 0), .sleep 0 0 5 none,
      .tick false, .tick false]).toOption.map (fun s => (s.wakes, s.clock)) =
        some ([(1, 2)], 2) := by
  decide +kernel

end Sched

end DripOS
