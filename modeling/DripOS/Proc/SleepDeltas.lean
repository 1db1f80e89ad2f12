import DripOS.Proc.SleepDeadline

/-!
# What one insertion and one tick do to the deadlines

The deadlines of a queue are the sums of the `time_left` up to every node.

* `Sched.insertToQueue_deadlines` : `insert_to_queue` adds one deadline and keeps the others;
* `Sched.advanceRound_deadlines` : a tick lowers every deadline by one and wakes up the threads
  whose deadline it reaches;
* `Sched.advanceTime_eq_ticks` : making up for deferred ticks is to process them one by one;
* `Sched.deadlines_exact` : all of this together.
-/

namespace DripOS

open Slots

namespace Sched

open DeltaQueue

variable {s : Sched}

/-- The deadlines of the queue, with the numbers of the threads. -/
def sleepDeadlines (s : Sched) : List (ℕ × ℕ) := deadlines 0 (delta s.queue)

/-- No sum of `time_left` overflows. -/
def NoOverflow (s : Sched) : Prop := ∀ p ∈ s.sleepDeadlines, p.1 < 2 ^ 64

/-- **`insert_to_queue` adds one deadline**, in order, and no subtraction goes below zero. -/
theorem insertToQueue_deadlines (h : s.NoOverflow) (ticks : UInt64) (tid : ℕ) {owner : ℕ}
    (howner : ∀ n ∈ s.queue, n.owner ≠ owner) :
    ∃ s', s.insertToQueue ticks tid owner = .ok s' ∧
      s'.sleepDeadlines.Perm ((ticks.toNat, tid) :: s.sleepDeadlines) ∧
      s' = { s with queue := s'.queue } := by
  have hany : ¬ s.queue.any (·.owner = owner) := by simpa using howner
  obtain ⟨hdelta, hflag⟩ := @delta_insertAfter ticks 0 _ tid owner (Nat.zero_le _) h
  refine ⟨_, if_neg hany, ?_, ?_⟩
  · have hperm := deadlines_insert 0 ticks.toNat tid (delta s.queue)
    rw [Nat.zero_add] at hperm
    exact (List.Perm.of_eq (congrArg (deadlines 0) hdelta)).trans hperm
  · simp [hflag]

/-- **A tick lowers every deadline by one**: the nodes whose deadline is reached leave the queue. -/
theorem advanceRound_deadlines (hpos : Positive (delta s.queue)) (hok : QueueOk s s.queue) :
    ∃ s', s.advanceRound = .ok s' ∧ Positive (delta s'.queue) ∧
      s'.sleepDeadlines = (s.sleepDeadlines.map fun p => (p.1 - 1, p.2)).filter (0 < ·.1) ∧
      (∀ tid, get s'.threads tid = if (1, tid) ∈ s.sleepDeadlines
        then (get s.threads tid).map Thread.wakeUp else get s.threads tid) ∧
      s' = { s with threads := s'.threads, wakes := s'.wakes, queue := s'.queue } := by
  obtain ⟨s', hs', hwoken, hqueue⟩ := hok.advanceRound
  obtain ⟨hfront, hdelta⟩ := Positive.front hpos
  have hlower : deadlines 0 (delta (countDown s.queue)) =
      s.sleepDeadlines.map fun p => (p.1 - 1, p.2) := by
    rw [hdelta]
    exact deadlines_countDown_sub hpos 0
  -- no deadline was reached before this tick
  have hone : ∀ tid, tid ∈ ((countDown s.queue).takeWhile (·.timeLeft = 0)).map (·.tid) ↔
      (1, tid) ∈ s.sleepDeadlines := fun tid => by
    rw [map_tid_takeWhile, takeWhile_map_snd 0, hlower]
    simp only [List.mem_map, List.mem_filter, decide_eq_true_eq]
    constructor
    · rintro ⟨_, ⟨⟨p, hp, rfl⟩, hle⟩, rfl⟩
      have hlt : 0 < p.1 := hpos.lt_of_mem_deadlines hp
      have hp1 : p.1 = 1 := by
        omega
      rwa [← hp1]
    · exact fun hmem => ⟨(0, tid), ⟨⟨_, hmem, rfl⟩, le_rfl⟩, rfl⟩
  refine ⟨s', hs', ?_, ?_, fun tid => ?_, ?_⟩
  · rw [hqueue, delta_dropWhile]
    exact positive_dropWhile _
  · rw [sleepDeadlines, hqueue, delta_dropWhile, deadlines_dropWhile, hlower]
  · rw [hwoken.get]
    simp only [hone]
  · rw [hwoken.same, hfront, Bool.or_false]

/-! ### Deferred ticks -/

/-- The state with other counters: the ghost `clock`, and `lagged_ticks`. -/
def withTicks (clock lagged : ℕ) (s : Sched) : Sched :=
  { s with clock := clock, laggedTicks := lagged }

section Ticks

variable (s : Sched) (c l : ℕ)

theorem wake_withTicks (n : SleepNode) :
    (s.withTicks c l).wake n = (s.wake n).map (withTicks c l) := by
  unfold wake withTicks
  cases get s.threads n.tid with
  | none => rfl
  | some thread =>
    dsimp only
    split_ifs <;> rfl

theorem wakeAll_withTicks (nodes : List SleepNode) :
    (s.withTicks c l).wakeAll nodes = (s.wakeAll nodes).map (withTicks c l) := by
  induction nodes generalizing s with
  | nil => rfl
  | cons n nodes ih =>
    unfold wakeAll
    split_ifs
    · rw [wake_withTicks]
      cases s.wake n with
      | error e => rfl
      | ok s1 => exact ih s1
    · rfl

/-- A round does not depend on the counters. -/
theorem advanceRound_withTicks :
    (s.withTicks c l).advanceRound = s.advanceRound.map (withTicks c l) := by
  rw [advanceRound_eq, advanceRound_eq]
  exact wakeAll_withTicks { s with wrapped := s.wrapped || frontWraps s.queue } c l
    (countDown s.queue)

theorem rounds_withTicks (n : ℕ) :
    forRange n (fun _ s => s.advanceRound) (s.withTicks c l) =
      (forRange n (fun _ s => s.advanceRound) s).map (withTicks c l) := by
  induction n with
  | zero => rfl
  | succ n ih =>
    rw [forRange_succ, forRange_succ, ih]
    cases forRange n (fun _ s => s.advanceRound) s with
    | error e => rfl
    | ok t => exact advanceRound_withTicks t c l

/-- A tick that gets the lock processes the deferred ticks and itself. -/
theorem advanceTime_eq_rounds :
    s.advanceTime false = (forRange (s.laggedTicks + 1) (fun _ s => s.advanceRound) s).map
      (withTicks (s.clock + 1) 0) := by
  unfold advanceTime
  dsimp only
  have hrounds := rounds_withTicks s (s.clock + 1) s.laggedTicks (s.laggedTicks + 1)
  unfold withTicks at hrounds
  rw [hrounds]
  cases forRange (s.laggedTicks + 1) (fun _ s => s.advanceRound) s <;> rfl

/-- Ticks that are processed one by one. -/
theorem ticks_eq_rounds (n : ℕ) :
    forRange n (fun _ t => t.advanceTime false) (s.withTicks c 0) =
      (forRange n (fun _ s => s.advanceRound) s).map (withTicks (c + n) 0) := by
  induction n with
  | zero => rfl
  | succ n ih =>
    rw [forRange_succ, forRange_succ, ih]
    cases forRange n (fun _ s => s.advanceRound) s with
    | error e => rfl
    | ok t =>
      change (t.withTicks (c + n) 0).advanceTime false = t.advanceRound.map _
      rw [advanceTime_eq_rounds]
      change (t.withTicks (c + n) 0).advanceRound.map _ = _
      rw [advanceRound_withTicks]
      cases t.advanceRound <;> rfl

/-- **Making up for deferred ticks is to process them one by one.** -/
theorem advanceTime_eq_ticks :
    (s.advanceTime false).map (withTicks c 0) =
      (forRange (s.laggedTicks + 1) (fun _ t => t.advanceTime false)
        { s with laggedTicks := 0 }).map (withTicks c 0) := by
  rw [advanceTime_eq_rounds]
  refine Eq.trans ?_ (congrArg _ (ticks_eq_rounds s s.clock (s.laggedTicks + 1)).symm)
  cases forRange (s.laggedTicks + 1) (fun _ s => s.advanceRound) s <;> rfl

end Ticks

/-- **The queue computes with deadlines.**  For every queue without overflow, an insertion adds one
deadline, in order, and nothing goes below zero.  For every queue that is empty or begins with a
positive `time_left`, and whose threads sleep, a tick lowers every deadline by one, takes out the
nodes whose deadline is reached and makes their threads ready.  Deferred ticks are processed like
single ones. -/
theorem deadlines_exact (s : Sched) :
    (s.NoOverflow → ∀ (ticks : UInt64) (tid owner : ℕ), (∀ n ∈ s.queue, n.owner ≠ owner) →
      ∃ s', s.insertToQueue ticks tid owner = .ok s' ∧
        s'.sleepDeadlines.Perm ((ticks.toNat, tid) :: s.sleepDeadlines) ∧
        s'.sleepDeadlines.Pairwise (fun p q => p.1 ≤ q.1) ∧ s'.wrapped = s.wrapped) ∧
    (Positive (delta s.queue) → QueueOk s s.queue →
      ∃ s', s.advanceRound = .ok s' ∧ Positive (delta s'.queue) ∧
        s'.sleepDeadlines = (s.sleepDeadlines.map fun p => (p.1 - 1, p.2)).filter (0 < ·.1) ∧
        (∀ tid, get s'.threads tid = if (1, tid) ∈ s.sleepDeadlines
          then (get s.threads tid).map Thread.wakeUp else get s.threads tid) ∧
        s'.wrapped = s.wrapped) ∧
    ∀ c, (s.advanceTime false).map (withTicks c 0) =
      (forRange (s.laggedTicks + 1) (fun _ t => t.advanceTime false)
        { s with laggedTicks := 0 }).map (withTicks c 0) := by
  refine ⟨fun hbound ticks tid owner howner => ?_, fun hpos hok => ?_, advanceTime_eq_ticks s⟩
  · obtain ⟨s', hs', hperm, hsame⟩ := insertToQueue_deadlines hbound ticks tid howner
    exact ⟨s', hs', hperm, pairwise_deadlines 0 _, by rw [hsame]⟩
  · obtain ⟨s', hs', hpos', hdeadlines, hget, hsame⟩ := advanceRound_deadlines hpos hok
    exact ⟨s', hs', hpos', hdeadlines, hget, by rw [hsame]⟩

/-- Threads that wake up after two and three ticks; one tick was deferred. -/
def twoSleepers : Sched :=
  { init with
    threads := [some ⟨0, .sleep, -1, false, none⟩, some ⟨1, .sleep, -1, false, none⟩]
    queue := [⟨2, 0, 0⟩, ⟨1, 1, 1⟩]
    laggedTicks := 1
    nextIdent := 2 }

theorem queueOk_twoSleepers : QueueOk twoSleepers twoSleepers.queue := by
  refine ⟨by decide, fun n hn thread hthread => ?_⟩
  rcases List.mem_pair.1 hn with rfl | rfl
  · cases hthread
    exact ⟨rfl, rfl⟩
  · cases hthread
    exact ⟨rfl, rfl⟩

/-- A third thread goes to sleep for three ticks, or a tick comes. -/
theorem deadlines_exact_twoSleepers :
    (∃ s', twoSleepers.insertToQueue 3 2 2 = .ok s' ∧
      s'.sleepDeadlines.Perm [(3, 2), (2, 0), (3, 1)] ∧
      s'.sleepDeadlines.Pairwise (fun p q => p.1 ≤ q.1) ∧ s'.wrapped = false) ∧
    (∃ s', twoSleepers.advanceRound = .ok s' ∧ Positive (delta s'.queue) ∧
      s'.sleepDeadlines = [(1, 0), (2, 1)] ∧
      (∀ tid, get s'.threads tid = if (1, tid) ∈ twoSleepers.sleepDeadlines
        then (get twoSleepers.threads tid).map Thread.wakeUp
        else get twoSleepers.threads tid) ∧ s'.wrapped = false) ∧
    ∀ c, (twoSleepers.advanceTime false).map (withTicks c 0) =
      (forRange 2 (fun _ t => t.advanceTime false)
        { twoSleepers with laggedTicks := 0 }).map (withTicks c 0) := by
  obtain ⟨hinsert, htick, hdeferred⟩ := deadlines_exact twoSleepers
  have hbound : twoSleepers.NoOverflow := by
    unfold NoOverflow
    decide
  exact ⟨hinsert hbound 3 2 2 (by decide), htick (by unfold Positive; decide) queueOk_twoSleepers,
    hdeferred⟩

end Sched

end DripOS
