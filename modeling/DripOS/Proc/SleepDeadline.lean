import DripOS.Lib.DeltaQueue
import Mathlib.Algebra.Group.Nat.Defs
import Mathlib.Data.List.Nodup
import DripOS.Proc.SleepQueue

/-!
# Threads wake up in time

`Sched.DeadlineState` is what the queue is for: a thread that sleeps has a deadline, and a tick
makes the threads ready whose deadline has come.

`Sched.wakes_on_time` : the queue does this in every run in which no thread sleeps for zero ticks,
or for more than one tick while ticks are deferred.  `Sched.wakes_wrongly` shows what happens
otherwise.
-/

namespace DripOS

open List Slots Function

namespace Sched

open DeltaQueue

variable {s s' : Sched} {b : ℕ}

/-! ### The queue as a delta queue -/

/-- The `time_left` of the nodes, with the numbers of the threads. -/
def delta (nodes : List SleepNode) : List (ℕ × ℕ) := nodes.map fun n => (n.timeLeft.toNat, n.tid)

theorem map_snd_delta (nodes : List SleepNode) :
    (delta nodes).map Prod.snd = nodes.map (·.tid) := by
  rw [delta, map_map]
  rfl

/-- The insertion is that of a delta queue, and nothing goes below zero. -/
theorem delta_insertAfter {ticks total : UInt64} {nodes : List SleepNode} (tid owner : ℕ)
    (hle : total.toNat ≤ ticks.toNat)
    (hbound : ∀ p ∈ deadlines total.toNat (delta nodes), p.1 < 2 ^ 64) :
    delta (insertAfter ticks tid owner total nodes).1 =
      DeltaQueue.insert (ticks.toNat - total.toNat) tid (delta nodes) ∧
    (insertAfter ticks tid owner total nodes).2 = false := by
  have hsub : (ticks - total).toNat = ticks.toNat - total.toNat :=
    UInt64.toNat_sub_of_le _ _ (UInt64.le_iff_toNat_le.2 hle)
  induction nodes generalizing total with
  | nil =>
    refine ⟨by simp [insertAfter, delta, DeltaQueue.insert, hsub], ?_⟩
    simpa [insertAfter, UInt64.le_iff_toNat_le] using hle
  | cons n nodes ih =>
    have hn : total.toNat + n.timeLeft.toNat < 2 ^ 64 := hbound _ mem_cons_self
    have hadd : (total + n.timeLeft).toNat = total.toNat + n.timeLeft.toNat := by
      rw [UInt64.toNat_add, Nat.mod_eq_of_lt hn]
    have hcond : (total ≤ ticks ∧ total + n.timeLeft ≥ ticks) ↔
        ticks.toNat - total.toNat ≤ n.timeLeft.toNat := by
      rw [UInt64.le_iff_toNat_le, ge_iff_le, UInt64.le_iff_toNat_le, hadd]
      omega
    unfold insertAfter
    by_cases hpos : ticks.toNat - total.toNat ≤ n.timeLeft.toNat
    · have hle' : ticks - total ≤ n.timeLeft := UInt64.le_iff_toNat_le.2 (hsub ▸ hpos)
      rw [if_pos (hcond.2 hpos)]
      refine ⟨?_, by simpa using hle'⟩
      simp [delta, DeltaQueue.insert, hpos, hsub, UInt64.toNat_sub_of_le _ _ hle']
    · rw [if_neg fun h => hpos (hcond.1 h)]
      have hle' : (total + n.timeLeft).toNat ≤ ticks.toNat := by omega
      obtain ⟨hdelta, hflag⟩ := ih hle'
        (fun p hp => hbound p (mem_cons_of_mem _ (hadd ▸ hp)))
        (UInt64.toNat_sub_of_le _ _ (UInt64.le_iff_toNat_le.2 hle'))
      refine ⟨?_, hflag⟩
      have hrest : ticks.toNat - (total + n.timeLeft).toNat =
          ticks.toNat - total.toNat - n.timeLeft.toNat := by omega
      rw [hrest] at hdelta
      simpa [delta, DeltaQueue.insert, hpos] using hdelta

theorem Positive.front {nodes : List SleepNode} (h : Positive (delta nodes)) :
    frontWraps nodes = false ∧ delta (countDown nodes) = DeltaQueue.countDown (delta nodes) := by
  cases nodes with
  | nil => exact ⟨rfl, rfl⟩
  | cons n nodes =>
    have hn : 0 < n.timeLeft.toNat := h _ rfl
    have hne : n.timeLeft ≠ 0 := fun h0 => by simp [h0] at hn
    have hle : (1 : UInt64) ≤ n.timeLeft := UInt64.le_iff_toNat_le.2 hn
    refine ⟨by simpa [frontWraps] using hne, ?_⟩
    simp [countDown, delta, DeltaQueue.countDown, UInt64.toNat_sub_of_le _ _ hle]

theorem delta_dropWhile (nodes : List SleepNode) :
    delta (nodes.dropWhile (·.timeLeft = 0)) = (delta nodes).dropWhile (·.1 = 0) := by
  rw [delta, delta, dropWhile_map]
  congr 2
  funext n
  simp [← UInt64.toNat_inj]

theorem map_tid_takeWhile (nodes : List SleepNode) :
    (nodes.takeWhile (·.timeLeft = 0)).map (·.tid) =
      ((delta nodes).takeWhile (·.1 = 0)).map Prod.snd := by
  rw [delta, takeWhile_map, map_map]
  congr 2
  funext n
  simp [← UInt64.toNat_inj]

/-! ### Several rounds of `advance_time` -/

/-- The queue after `n` rounds from `s`, where it stood at time `b`: the threads whose deadline has
come were woken up. -/
structure Rounds (s : Sched) (b n : ℕ) (s' : Sched) : Prop where
  ok : SleepOk s'
  positive : Positive (delta s'.queue)
  deadlines_eq : deadlines (b + n) (delta s'.queue) =
    (deadlines b (delta s.queue)).filter (b + n < ·.1)
  woken : ∀ p ∈ deadlines b (delta s.queue), p.1 ≤ b + n →
    get s'.threads p.2 = (get s.threads p.2).map Thread.wakeUp
  kept : ∀ tid, (∀ p ∈ deadlines b (delta s.queue), p.2 = tid → b + n < p.1) →
    get s'.threads tid = get s.threads tid
  same : s' = { s with threads := s'.threads, wakes := s'.wakes, queue := s'.queue }

/-- A thread has one deadline. -/
theorem SleepOk.deadline_unique (h : SleepOk s) {p p' : ℕ × ℕ}
    (hp : p ∈ deadlines b (delta s.queue)) (hp' : p' ∈ deadlines b (delta s.queue))
    (heq : p.2 = p'.2) : p = p' := by
  have hnodup : ((deadlines b (delta s.queue)).map Prod.snd).Nodup := by
    rw [map_snd_deadlines, map_snd_delta]
    exact h.queue.nodup
  exact inj_on_of_nodup_map hnodup hp hp' heq

theorem rounds_zero (h : SleepOk s) (hpos : Positive (delta s.queue)) : Rounds s b 0 s := by
  have hlt : ∀ p ∈ deadlines b (delta s.queue), b < p.1 := fun p => hpos.lt_of_mem_deadlines
  refine ⟨h, hpos, ?_, fun p hp hle => ?_, fun _ _ => rfl, rfl⟩
  · exact (filter_eq_self.2 fun p hp => by simpa using hlt p hp).symm
  · have := hlt p hp
    omega

theorem Rounds.succ (hok : SleepOk s) {n : ℕ} (h : Rounds s b n s') (hwrapped : s.wrapped = false) :
    ∃ s'', s'.advanceRound = .ok s'' ∧ Rounds s b (n + 1) s'' := by
  obtain ⟨s'', hs'', hok'', hwoken, hqueue⟩ := h.ok.advanceRound
  obtain ⟨hfront, hdelta⟩ := Positive.front h.positive
  have hcount := deadlines_countDown h.positive (b + n)
  rw [← hdelta, h.deadlines_eq] at hcount
  -- the threads that are woken up in this round
  have hmem : ∀ tid, tid ∈ ((countDown s'.queue).takeWhile (·.timeLeft = 0)).map (·.tid) ↔
      ∃ p ∈ deadlines b (delta s.queue), p.2 = tid ∧ b + n < p.1 ∧ p.1 ≤ b + n + 1 := fun tid => by
    rw [map_tid_takeWhile, takeWhile_map_snd (b + n + 1), hcount]
    simp only [mem_map, mem_filter, decide_eq_true_eq]
    constructor
    · rintro ⟨p, ⟨⟨hp, hlt⟩, hle⟩, rfl⟩
      exact ⟨p, hp, rfl, hlt, hle⟩
    · rintro ⟨p, hp, rfl, hlt, hle⟩
      exact ⟨p, ⟨⟨hp, hlt⟩, hle⟩, rfl⟩
  refine ⟨s'', hs'', hok'', ?_, ?_, fun p hp hle => ?_, fun tid htid => ?_, ?_⟩
  · rw [hqueue, delta_dropWhile]
    exact positive_dropWhile _
  · rw [hqueue, delta_dropWhile, ← Nat.add_assoc, deadlines_dropWhile, hcount, filter_filter]
    refine filter_congr fun p _ => ?_
    rw [← Bool.decide_and]
    exact decide_eq_decide.2 ⟨fun hlt => hlt.1, fun hlt => ⟨hlt, by omega⟩⟩
  · rw [hwoken.get]
    by_cases hlt : b + n < p.1
    · rw [if_pos ((hmem p.2).2 ⟨p, hp, rfl, hlt, hle⟩)]
      refine congrArg _ (h.kept p.2 fun p' hp' heq => ?_)
      rw [hok.deadline_unique hp' hp heq]
      exact hlt
    · rw [if_neg]
      · exact h.woken p hp (Nat.le_of_not_lt hlt)
      · rintro hin
        obtain ⟨p', hp', heq, hlt', -⟩ := (hmem p.2).1 hin
        rw [hok.deadline_unique hp' hp heq] at hlt'
        exact hlt hlt'
  · rw [hwoken.get, if_neg]
    · exact h.kept tid fun p hp heq => Nat.lt_of_succ_lt (htid p hp heq)
    · rintro hin
      obtain ⟨p, hp, heq, -, hle⟩ := (hmem tid).1 hin
      have := htid p hp heq
      omega
  · have hwr : s'.wrapped = false := by rw [h.same, hwrapped]
    rw [hwoken.same, hfront, hwr, h.same, hwrapped]
    rfl

theorem rounds_forRange (h : SleepOk s) (hpos : Positive (delta s.queue))
    (hwrapped : s.wrapped = false) (n : ℕ) :
    ∃ s', forRange n (fun _ s => s.advanceRound) s = .ok s' ∧ Rounds s b n s' := by
  induction n with
  | zero => exact ⟨s, rfl, rounds_zero h hpos⟩
  | succ n ih =>
    obtain ⟨s1, hs1, hrounds⟩ := ih
    obtain ⟨s2, hs2, hrounds2⟩ := hrounds.succ h hwrapped
    refine ⟨s2, ?_, hrounds2⟩
    rw [forRange_succ, hs1, ok_bind, hs2]

/-! ### What the queue is for -/

/-- The states of the threads, and when the sleeping ones are to be woken up. -/
structure DeadlineState where
  clock : ℕ
  state : ℕ → Option ThreadState
  deadline : ℕ → ℕ

/-- Sleep requests and ticks.  The other threads go on running. -/
inductive SleepOp where
  | sleep (cpu tid : ℕ) (ms : UInt64) (next : Option ℕ)
  | tick (locked : Bool)
  | schedule (cpu : ℕ) (cur next : Option ℕ)

/-- A thread leaves its processor. -/
def leaveState (cur : Option ℕ) (state : ℕ → Option ThreadState) : ℕ → Option ThreadState :=
  fun i => (state i).map fun st => if cur = some i ∧ st = .running then .ready else st

/-- A thread gets a processor. -/
def enterState (next : Option ℕ) (state : ℕ → Option ThreadState) : ℕ → Option ThreadState :=
  fun i => (state i).map fun st => if next = some i then .running else st

/-- A thread that sleeps for `ms` ticks has its deadline at the `max ms 1`-th tick from now, and the
first processed tick at or after it makes it ready. -/
inductive DeadlineStep (a : DeadlineState) : SleepOp → DeadlineState → Prop
  | sleep {cpu tid : ℕ} {ms : UInt64} {next : Option ℕ} : a.state tid = some .running →
      DeadlineStep a (.sleep cpu tid ms next)
        ⟨a.clock, enterState next (update a.state tid (some .sleep)),
          update a.deadline tid (a.clock + max ms.toNat 1)⟩
  | deferred : DeadlineStep a (.tick true) { a with clock := a.clock + 1 }
  | tick : DeadlineStep a (.tick false)
      ⟨a.clock + 1,
        fun tid => if a.state tid = some .sleep ∧ a.deadline tid ≤ a.clock + 1 then some .ready
          else a.state tid,
        a.deadline⟩
  | schedule {cpu : ℕ} {cur next : Option ℕ} : DeadlineStep a (.schedule cpu cur next)
      { a with state := enterState next (leaveState cur a.state) }

/-- The operations. -/
def execSleep (s : Sched) : SleepOp → Except SchedHalt Sched
  | .sleep cpu tid ms next => s.sleepMs cpu tid ms next
  | .tick locked => s.advanceTime locked
  | .schedule cpu cur next => s.schedule cpu cur next

/-- No thread sleeps for zero ticks, or for more than one tick while ticks are deferred. -/
def InTime (s : Sched) : SleepOp → Prop
  | .sleep _ _ ms _ => 1 ≤ ms ∧ (s.laggedTicks = 0 ∨ ms = 1)
  | _ => True

instance (s : Sched) (op : SleepOp) : Decidable (s.InTime op) := by
  unfold InTime
  split <;> infer_instance

/-- An operation with a sleep request that is met in time. -/
def SleepStep (s : Sched) (op : SleepOp) (s' : Sched) : Prop :=
  s.InTime op ∧ s.execSleep op = .ok s'

/-- The state of a thread. -/
def stateOf (s : Sched) (tid : ℕ) : Option ThreadState := (get s.threads tid).map (·.state)

/-- The queue wakes up the threads at their deadlines. -/
structure OnTime (s : Sched) (a : DeadlineState) : Prop where
  ok : SleepOk s
  clock : a.clock = s.clock
  state : s.stateOf = a.state
  wrapped : s.wrapped = false
  lagged : s.laggedTicks ≤ s.clock
  sleeping : ∀ tid, s.stateOf tid = some .sleep ↔ tid ∈ s.queue.map (·.tid)
  positive : Positive (delta s.queue)
  bounded : ∀ p ∈ deadlines 0 (delta s.queue), p.1 < 2 ^ 64
  /-- The queue and the deadline agree on every tick from the next one on. -/
  deadline : ∀ p ∈ deadlines (s.clock - s.laggedTicks) (delta s.queue),
    max p.1 (s.clock + 1) = max (a.deadline p.2) (s.clock + 1)

theorem mem_queue_of_deadlines {p : ℕ × ℕ} (hp : p ∈ deadlines b (delta s.queue)) :
    p.2 ∈ s.queue.map (·.tid) := by
  rw [← map_snd_delta, ← map_snd_deadlines b]
  exact mem_map_of_mem hp

theorem exists_deadline {tid : ℕ} (h : tid ∈ s.queue.map (·.tid)) (b : ℕ) :
    ∃ d, (d, tid) ∈ deadlines b (delta s.queue) := by
  rw [← map_snd_delta, ← map_snd_deadlines b] at h
  obtain ⟨⟨d, i⟩, hp, rfl⟩ := mem_map.1 h
  exact ⟨d, hp⟩

variable {a : DeadlineState}

/-! ### The states of the threads after an operation -/

section States

variable {cpu tid i : ℕ} {ms : UInt64} {cur next : Option ℕ}

theorem stateOf_schedule (hs : s.schedule cpu cur next = .ok s') :
    s'.stateOf = enterState next (leaveState cur s.stateOf) := by
  obtain ⟨hget, -, -⟩ := schedule_ok hs
  funext i
  unfold stateOf enterState leaveState
  dsimp only
  rw [hget]
  cases get s.threads i with
  | none => rfl
  | some th =>
    by_cases hnext : next = some i
    · simp [hnext, Thread.enter]
    · by_cases hcur : cur = some i
      · simp [hnext, hcur, Thread.leave]
      · simp [hnext, hcur]

/-- `schedule` leaves the threads that sleep alone. -/
theorem sleeps_schedule_iff (hs : s.schedule cpu cur next = .ok s') :
    s'.stateOf i = some .sleep ↔ s.stateOf i = some .sleep := by
  obtain ⟨hget, -, hpick⟩ := schedule_ok hs
  unfold stateOf
  rw [hget]
  cases hi : get s.threads i with
  | none => rfl
  | some th =>
    have hpick' := hpick i th
    simp only [Option.map_some, Option.some.injEq]
    split_ifs at hpick' ⊢ with hnext hcur hcur
    · have := hpick' hnext hi
      simp only [Thread.enter, reduceCtorEq, false_iff]
      intro heq
      simp [Thread.leave, Thread.pickable, heq] at this
    · have := hpick' hnext hi
      simp only [Thread.enter, reduceCtorEq, false_iff]
      intro heq
      simp [Thread.pickable, heq] at this
    · unfold Thread.leave
      split_ifs with hrun
      · simp [hrun]
      · rfl
    · rfl

theorem stateOf_sleepMs (hs : s.sleepMs cpu tid ms next = .ok s') :
    s'.stateOf = enterState next (update s.stateOf tid (some .sleep)) := by
  obtain ⟨thread, hthread, -, hnext, hget, -, -⟩ := sleepMs_ok hs
  funext i
  unfold stateOf enterState
  rw [hget, update_apply]
  by_cases hi : i = tid
  · subst hi
    rw [hthread]
    simp [hnext]
  · simp only [hi, if_false]
    cases get s.threads i with
    | none => rfl
    | some th =>
      split_ifs <;> rfl

/-- `sleep_ms` puts its caller to sleep, and wakes up no thread. -/
theorem sleeps_sleepMs_iff (hs : s.sleepMs cpu tid ms next = .ok s') :
    s'.stateOf i = some .sleep ↔ i = tid ∨ s.stateOf i = some .sleep := by
  obtain ⟨thread, hthread, -, -, hget, hpick, -⟩ := sleepMs_ok hs
  unfold stateOf
  rw [hget]
  by_cases hi : i = tid
  · subst hi
    simp [hthread]
  · simp only [hi, if_false, false_or]
    cases hgi : get s.threads i with
    | none => rfl
    | some th =>
      simp only [Option.map_some, Option.some.injEq]
      split_ifs with hni
      · have := hpick i th hni hgi
        simp only [Thread.enter, reduceCtorEq, false_iff]
        intro heq
        simp [Thread.pickable, heq] at this
      · rfl

end States

theorem OnTime.schedule (h : OnTime s a) {cpu : ℕ} {cur next : Option ℕ}
    (hs : s.schedule cpu cur next = .ok s') :
    OnTime s' { a with state := enterState next (leaveState cur a.state) } := by
  obtain ⟨-, hsame, -⟩ := schedule_ok hs
  obtain ⟨threads, rfl⟩ : ∃ threads, s' = { s with threads := threads } := ⟨_, hsame⟩
  exact ⟨h.ok.schedule hs, h.clock, h.state ▸ stateOf_schedule hs, h.wrapped, h.lagged,
    fun tid => (sleeps_schedule_iff hs).trans (h.sleeping tid), h.positive, h.bounded, h.deadline⟩

theorem OnTime.sleepMs (h : OnTime s a) {cpu tid : ℕ} {ms : UInt64} {next : Option ℕ}
    (hms : 1 ≤ ms) (hlag : s.laggedTicks = 0 ∨ ms = 1)
    (hs : s.sleepMs cpu tid ms next = .ok s') :
    ∃ a', DeadlineStep a (.sleep cpu tid ms next) a' ∧ OnTime s' a' := by
  obtain ⟨thread, hthread, hrunning, -, -, -, hsame⟩ := sleepMs_ok hs
  obtain ⟨threads, rfl⟩ : ∃ threads, s' = { s with
      threads := threads
      queue := (insertAfter ms tid thread.ident 0 s.queue).1
      wrapped := s.wrapped || (insertAfter ms tid thread.ident 0 s.queue).2 } := ⟨_, hsame⟩
  have hrun : s.stateOf tid = some .running := by rw [stateOf, hthread, Option.map_some, hrunning]
  have hpos : 1 ≤ ms.toNat := UInt64.le_iff_toNat_le.1 hms
  have hnot : tid ∉ s.queue.map (·.tid) := fun hmem => by
    rw [← h.sleeping, hrun] at hmem
    cases hmem
  obtain ⟨hdelta, hflag⟩ := @delta_insertAfter ms 0 s.queue tid thread.ident
    (Nat.zero_le ms.toNat) h.bounded
  rw [UInt64.toNat_zero, Nat.sub_zero] at hdelta
  have hperm : ∀ b, (deadlines b (delta (insertAfter ms tid thread.ident 0 s.queue).1)).Perm
      ((b + ms.toNat, tid) :: deadlines b (delta s.queue)) := fun b => by
    rw [hdelta]
    exact deadlines_insert b ms.toNat tid _
  refine ⟨_, .sleep (h.state ▸ hrun), h.ok.sleepMs hs, h.clock, h.state ▸ stateOf_sleepMs hs, ?_,
    h.lagged, fun i => ?_, hdelta ▸ h.positive.insert hpos tid, fun p hp => ?_, fun p hp => ?_⟩
  · dsimp only
    rw [h.wrapped, hflag]
    rfl
  · have hmem := ((hperm 0).map Prod.snd).mem_iff (a := i)
    rw [map_snd_deadlines, map_snd_delta, map_cons, mem_cons, map_snd_deadlines,
      map_snd_delta] at hmem
    rw [hmem, ← h.sleeping, sleeps_sleepMs_iff hs]
  · rcases mem_cons.1 ((hperm 0).subset hp) with rfl | hp
    · simpa using ms.toNat_lt
    · exact h.bounded p hp
  · dsimp only at hp ⊢
    rcases mem_cons.1 ((hperm _).subset hp) with rfl | hp
    · -- with deferred ticks, only a sleep of one tick is not too short
      rw [update_self, h.clock]
      rcases hlag with hlag | rfl
      · omega
      · rw [UInt64.toNat_one]
        omega
    · have hne : p.2 ≠ tid := fun heq => hnot (heq ▸ mem_queue_of_deadlines hp)
      rw [update_of_ne hne]
      exact h.deadline p hp

theorem OnTime.deferred (h : OnTime s a) :
    OnTime { s with clock := s.clock + 1, laggedTicks := s.laggedTicks + 1 }
      { a with clock := a.clock + 1 } := by
  refine ⟨h.ok.setTicks _ _, congrArg (· + 1) h.clock, h.state, h.wrapped,
    Nat.succ_le_succ h.lagged, h.sleeping, h.positive, h.bounded, fun p hp => ?_⟩
  have hsub : s.clock + 1 - (s.laggedTicks + 1) = s.clock - s.laggedTicks := by omega
  dsimp only at hp ⊢
  rw [hsub] at hp
  have := h.deadline p hp
  omega

section Tick

variable {s1 : Sched} (h : OnTime s a)
  (hr : Rounds { s with clock := s.clock + 1 } (s.clock - s.laggedTicks) (s.laggedTicks + 1) s1)

include h

theorem OnTime.now : s.clock - s.laggedTicks + (s.laggedTicks + 1) = s.clock + 1 := by
  have hle := h.lagged
  omega

/-- The queue and the deadline agree on the next tick. -/
theorem OnTime.agree {p : ℕ × ℕ} (hp : p ∈ deadlines (s.clock - s.laggedTicks) (delta s.queue)) :
    p.1 ≤ s.clock + 1 ↔ a.deadline p.2 ≤ s.clock + 1 := by
  have hmax := h.deadline p hp
  omega

include hr

/-- After the deferred ticks and this one, the deadlines that have not come are left. -/
theorem OnTime.deadlines_tick : deadlines (s.clock + 1) (delta s1.queue) =
    (deadlines (s.clock - s.laggedTicks) (delta s.queue)).filter (s.clock + 1 < ·.1) := by
  have heq := hr.deadlines_eq
  rwa [h.now] at heq

/-- Exactly the threads whose deadline has come are ready. -/
theorem OnTime.stateOf_tick (tid : ℕ) : s1.stateOf tid =
    if a.state tid = some .sleep ∧ a.deadline tid ≤ a.clock + 1 then some .ready
    else a.state tid := by
  have hkept : (∀ p ∈ deadlines (s.clock - s.laggedTicks) (delta s.queue), p.2 = tid →
      s.clock + 1 < p.1) → s1.stateOf tid = s.stateOf tid := fun htid =>
    congrArg _ (hr.kept tid fun p hp heq => h.now ▸ htid p hp heq)
  rw [← h.state, h.clock]
  by_cases hsleep : s.stateOf tid = some .sleep
  · obtain ⟨d, hd⟩ := exists_deadline ((h.sleeping tid).1 hsleep) (s.clock - s.laggedTicks)
    by_cases hle : d ≤ s.clock + 1
    · obtain ⟨th, hth, -⟩ := Option.map_eq_some_iff.1 hsleep
      rw [if_pos ⟨hsleep, (h.agree hd).1 hle⟩, stateOf, hr.woken _ hd (h.now ▸ hle)]
      rw [hth]
      rfl
    · rw [if_neg fun hand => hle ((h.agree hd).2 hand.2)]
      refine hkept fun p hp heq => ?_
      rw [h.ok.deadline_unique hp hd heq]
      exact Nat.lt_of_not_le hle
  · rw [if_neg fun hand => hsleep hand.1]
    refine hkept fun p hp heq => ?_
    exact absurd ((h.sleeping tid).2 (heq ▸ mem_queue_of_deadlines hp)) hsleep

/-- The threads that still sleep are those in the queue. -/
theorem OnTime.sleeping_tick (tid : ℕ) :
    s1.stateOf tid = some .sleep ↔ tid ∈ s1.queue.map (·.tid) := by
  have hmem : tid ∈ s1.queue.map (·.tid) ↔
      ∃ p ∈ deadlines (s.clock - s.laggedTicks) (delta s.queue), p.2 = tid ∧ s.clock + 1 < p.1 := by
    rw [← map_snd_delta, ← map_snd_deadlines (s.clock + 1), h.deadlines_tick hr]
    simp only [mem_map, mem_filter, decide_eq_true_eq]
    exact ⟨fun ⟨p, ⟨hp, hlt⟩, heq⟩ => ⟨p, hp, heq, hlt⟩,
      fun ⟨p, hp, heq, hlt⟩ => ⟨p, ⟨hp, hlt⟩, heq⟩⟩
  rw [hmem, h.stateOf_tick hr, ← h.state, h.clock]
  constructor
  · intro hsome
    split_ifs at hsome with hdead
    · cases hsome
    · obtain ⟨d, hd⟩ := exists_deadline ((h.sleeping tid).1 hsome) (s.clock - s.laggedTicks)
      exact ⟨_, hd, rfl, Nat.lt_of_not_le fun hle => hdead ⟨hsome, (h.agree hd).1 hle⟩⟩
  · rintro ⟨p, hp, rfl, hlt⟩
    rw [if_neg fun hand => absurd ((h.agree hp).2 hand.2) (Nat.not_le_of_lt hlt)]
    exact (h.sleeping p.2).2 (mem_queue_of_deadlines hp)

/-- What is left of a sleep gets shorter. -/
theorem OnTime.bounded_tick (p : ℕ × ℕ) (hp : p ∈ deadlines 0 (delta s1.queue)) : p.1 < 2 ^ 64 := by
  have hp' : (p.1 + (s.clock + 1), p.2) ∈ deadlines (s.clock + 1) (delta s1.queue) := by
    rw [← Nat.zero_add (s.clock + 1), deadlines_add]
    exact mem_map.2 ⟨p, hp, by simp⟩
  rw [h.deadlines_tick hr] at hp'
  have hold := (mem_filter.1 hp').1
  rw [← Nat.zero_add (s.clock - s.laggedTicks), deadlines_add] at hold
  obtain ⟨q, hq, heq⟩ := mem_map.1 hold
  have hlt := h.bounded q hq
  have hfst : q.1 + (s.clock - s.laggedTicks) = p.1 + (s.clock + 1) := congrArg Prod.fst heq
  omega

end Tick

/-- **A tick that is processed wakes up the threads whose deadline has come.** -/
theorem OnTime.tick (h : OnTime s a) : ∃ s' a', s.advanceTime false = .ok s' ∧
    DeadlineStep a (.tick false) a' ∧ OnTime s' a' := by
  obtain ⟨s1, hs1, hr⟩ := @rounds_forRange { s with clock := s.clock + 1 }
    (s.clock - s.laggedTicks) (h.ok.setTicks _ _) h.positive h.wrapped (s.laggedTicks + 1)
  have hclock : s1.clock = s.clock + 1 := by rw [hr.same]
  have hstate := h.stateOf_tick hr
  have hsleeping := h.sleeping_tick hr
  have hbounded := h.bounded_tick hr
  refine ⟨{ s1 with laggedTicks := 0 }, _, ?_, .tick, hr.ok.setTicks _ _, ?_, funext hstate,
    by rw [hr.same]; exact h.wrapped, Nat.zero_le _, hsleeping, hr.positive, hbounded,
    fun p hp => ?_⟩
  · unfold advanceTime
    rw [if_neg Bool.false_ne_true, hs1]
    rfl
  · dsimp only
    rw [hclock, h.clock]
  · dsimp only at hp ⊢
    rw [hclock, Nat.sub_zero, h.deadlines_tick hr] at hp
    obtain ⟨hold, hfuture⟩ := mem_filter.1 hp
    have hmax := h.deadline p hold
    omega

/-- A running thread can go to sleep: its node is not in the queue. -/
theorem OnTime.sleepMs_returns (h : OnTime s a) {tid : ℕ} (hrun : s.stateOf tid = some .running)
    (cpu : ℕ) (ms : UInt64) : ∃ s', s.sleepMs cpu tid ms none = .ok s' := by
  obtain ⟨thread, hget, hstate⟩ := Option.map_eq_some_iff.1 hrun
  have hany : s.queue.any (·.owner = thread.ident) = false := by
    rw [any_eq_false]
    intro n hn heq
    have heq : n.owner = thread.ident := by simpa using heq
    have htid := (h.ok.owner n hn).2 tid thread hget heq.symm
    have hsleep := (h.ok.queue.sleeping n hn thread (htid ▸ hget)).2
    rw [hstate] at hsleep
    cases hsleep
  have hget' : ∀ queue wrapped,
      ({ s.setThread tid (some { thread with state := .sleep }) with
        queue := queue, wrapped := wrapped } : Sched).getThread tid =
          .ok { thread with state := .sleep } := fun queue wrapped =>
    getThread_eq_ok.2 ((get_setThread hget _ tid).trans (if_pos rfl))
  unfold Sched.sleepMs
  rw [getThread_eq_ok.2 hget, ok_bind, if_pos hstate]
  unfold insertToQueue
  dsimp only
  rw [show (s.setThread tid (some { thread with state := .sleep })).queue = s.queue from rfl, hany,
    if_neg Bool.false_ne_true, ok_bind]
  unfold Sched.schedule leaveCpu
  dsimp only
  rw [hget', ok_bind]
  exact ⟨_, rfl⟩

/-- No thread sleeps yet. -/
structure Awake (s : Sched) : Prop where
  queue : s.queue = []
  laggedTicks : s.laggedTicks = 0
  wrapped : s.wrapped = false
  wakes : s.wakes = []
  state : ∀ tid, s.stateOf tid ≠ some .sleep
  ident : ∀ i j th th', Slots.get s.threads i = some th → Slots.get s.threads j = some th' →
    th.ident = th'.ident → i = j
  fresh : ∀ i th, Slots.get s.threads i = some th → th.ident < s.nextIdent

theorem Awake.onTime (h : Awake s) (deadline : ℕ → ℕ) :
    OnTime s ⟨s.clock, s.stateOf, deadline⟩ := by
  refine ⟨⟨⟨?_, ?_⟩, h.ident, h.fresh, ?_, fun i th hi hsleep => ?_, ?_⟩, rfl, rfl, h.wrapped, ?_,
    fun tid => ?_, ?_, ?_, ?_⟩
  · rw [h.queue]
    exact nodup_nil
  · simp [h.queue]
  · simp [h.queue]
  · exact absurd (by rw [stateOf, hi, Option.map_some, hsleep]) (h.state i)
  · simp [h.wakes]
  · simp [h.laggedTicks]
  · simp [h.queue, h.state tid]
  · simp [h.queue, delta, Positive]
  · simp [h.queue, delta, deadlines]
  · simp [h.queue, delta, deadlines]

/-- **Threads wake up in time**, in every run in which no thread sleeps for zero ticks, or for more
than one tick while ticks are deferred: the states are those of the deadline machine, no `time_left`
goes below zero, and ticks and sleep requests return. -/
theorem wakes_on_time {s₀ : Sched} {ops : List SleepOp} (hinit : s₀.Awake) (deadline : ℕ → ℕ)
    (hrun : Run SleepStep s₀ ops s) :
    (∃ a, Run DeadlineStep ⟨s₀.clock, s₀.stateOf, deadline⟩ ops a ∧ s.stateOf = a.state) ∧
    s.wrapped = false ∧ (∀ locked, ∃ s', s.advanceTime locked = .ok s') ∧
    ∀ cpu tid ms, s.stateOf tid = some .running → ∃ s', s.sleepMs cpu tid ms none = .ok s' := by
  obtain ⟨a, hrun', h⟩ := hrun.simulate (R := OnTime) (hinit.onTime deadline)
    fun s a op s' h ⟨hop, hexec⟩ => by
      cases op with
      | sleep cpu tid ms next => exact h.sleepMs hop.1 hop.2 hexec
      | tick locked =>
        cases locked with
        | true =>
          cases hexec
          exact ⟨_, .deferred, h.deferred⟩
        | false =>
          obtain ⟨s1, a', hs1, hstep, h'⟩ := h.tick
          cases hs1.symm.trans hexec
          exact ⟨a', hstep, h'⟩
      | schedule cpu cur next => exact ⟨_, .schedule, h.schedule hexec⟩
  refine ⟨⟨a, hrun', h.state⟩, h.wrapped, fun locked => ?_, fun cpu tid ms hrunning =>
    h.sleepMs_returns hrunning cpu ms⟩
  obtain ⟨s', hs', -⟩ := h.ok.advanceTime locked
  exact ⟨s', hs'⟩

/-- Two running threads. -/
def twoThreads : Sched :=
  { init with
    threads := [some ⟨0, .running, 0, true, none⟩, some ⟨1, .running, 1, true, none⟩]
    nextIdent := 2 }

theorem awake_twoThreads : twoThreads.Awake := by
  have hget : ∀ i th, Slots.get twoThreads.threads i = some th → th.ident = i ∧ i < 2 ∧
      th.state = .running := fun i th hi => by
    match i, hi with
    | 0, hi => cases hi; exact ⟨rfl, by decide, rfl⟩
    | 1, hi => cases hi; exact ⟨rfl, by decide, rfl⟩
    | _ + 2, hi => cases hi
  refine ⟨rfl, rfl, rfl, rfl, fun tid hsleep => ?_, fun i j th th' hi hj heq => ?_,
    fun i th hi => ?_⟩
  · obtain ⟨th, hth, hstate⟩ := Option.map_eq_some_iff.1 hsleep
    rw [(hget tid th hth).2.2] at hstate
    cases hstate
  · rw [← (hget i th hi).1, ← (hget j th' hj).1, heq]
  · rw [(hget i th hi).1]
    exact (hget i th hi).2.1

/-- Sleeps of three ticks and of one tick, with a deferred tick. -/
def twoSleeps : List SleepOp := [.sleep 0 0 3 none, .sleep 1 1 1 none, .tick true, .tick false]

/-- The second thread is ready, and the first one still sleeps. -/
theorem wakes_on_time_twoSleeps : ∃ s, Run SleepStep twoThreads twoSleeps s ∧
    (∃ a, Run DeadlineStep ⟨0, twoThreads.stateOf, fun _ => 0⟩ twoSleeps a ∧ s.stateOf = a.state) ∧
    s.wrapped = false ∧ (∀ locked, ∃ s', s.advanceTime locked = .ok s') ∧
    ∀ cpu tid ms, s.stateOf tid = some .running → ∃ s', s.sleepMs cpu tid ms none = .ok s' := by
  obtain ⟨s, hrun, -⟩ : ∃ s, Run SleepStep twoThreads twoSleeps s ∧ true :=
    Run.exists_of_exec (P := InTime) (f := execSleep) (q := fun _ => true) (by decide +kernel)
  exact ⟨s, hrun, wakes_on_time awake_twoThreads (fun _ => 0) hrun⟩

/-- **A sleep of zero ticks wraps**, and **a sleep of two ticks is over after one tick**, if a tick
was deferred before it began. -/
theorem wakes_wrongly :
    (List.foldlM execSleep twoThreads [.sleep 0 0 0 none, .tick false]).toOption.map
      (fun s => (s.wrapped, s.stateOf 0)) = some (true, some .sleep) ∧
    (List.foldlM execSleep twoThreads [.tick true, .sleep 0 0 2 none, .tick false]).toOption.map
      (fun s => s.stateOf 0) = some (some .ready) := by
  decide +kernel

end Sched

end DripOS
