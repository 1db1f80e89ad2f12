import DripOS.Lib.Interleave
import Mathlib.Data.BitVec

/-!
# Events

`await_event`, `await_event_timeout` and `trigger_event` of `src/proc/event.c`, with the part of
`schedule` that looks at the events of waiting threads.  An event is a counter that `trigger_event`
increments.  Two places consume it: `await_event`, which reads and decrements the counter without a
lock, and `schedule`, under `sched_lock`.  The read and the decrement are two steps.

`Event.awaits_le_triggers` : as long as a consumer that finds the counter set finds it above the
number of those that did so before it and have not decremented it yet, no event is consumed more
often than it was triggered.  `Event.one_trigger_two_awaits` shows the other interleavings.
-/

namespace DripOS

open Function Finset

namespace Event

/-- Where the processor that holds `sched_lock` is. -/
inductive SchedPc where
  /-- The lock is free. -/
  | free
  /-- In the loop of `schedule` that picks a thread. -/
  | scanning
  /-- The event of the thread is set, and will be decremented. -/
  | found (tid : ℕ)
  /-- At the label `picked`. -/
  | picked
  deriving DecidableEq, Repr

/-- Where a thread is. -/
inductive AwaitPc where
  /-- Anywhere else. -/
  | running
  /-- In `await_event`, before `atomic_dec`. -/
  | decrement (e : ℕ)
  /-- In `await_event`, before it takes `sched_lock`. -/
  | suspend (e : ℕ)
  /-- In `await_event_timeout`, before it takes `sched_lock`. -/
  | suspendTimeout (e : ℕ) (timeout : UInt64)
  /-- `WAIT_EVENT`. -/
  | waitEvent (e : ℕ)
  /-- `WAIT_EVENT_TIMEOUT`, with `event_wait_start` and `event_timeout`. -/
  | waitEventTimeout (e : ℕ) (waitStart timeout : UInt64)
  deriving DecidableEq, Repr

/-- The shared state. -/
structure Events where
  /-- The event at an address: an `int` of 32 bits. -/
  counter : ℕ → BitVec 32
  globalTicks : UInt64
  sched : SchedPc
  /-- Ghost: the threads that found the event set, and have not decremented it yet. -/
  claimed : ℕ → Finset ℕ
  /-- Ghost: the calls of `trigger_event`. -/
  triggers : ℕ → ℕ
  /-- Ghost: the awaits that ended because of the event. -/
  completed : ℕ → ℕ

/-- The statements of a thread, and of `schedule` about a thread. -/
inductive AwaitStmt where
  /-- `await_event` reads the counter. -/
  | await (e : ℕ)
  /-- `await_event` decrements the counter. -/
  | dec
  /-- `await_event_timeout` is called. -/
  | awaitTimeout (e : ℕ) (timeout : UInt64)
  /-- The thread takes `sched_lock`, stores its state and enters `schedule`. -/
  | suspend
  /-- `schedule` has picked the thread, and looks at its event. -/
  | check
  /-- `schedule` decrements the counter. -/
  | take
  deriving DecidableEq, Repr

/-- The other statements. -/
inductive EventStmt where
  | trigger (e : ℕ)
  /-- `schedule` is entered with `sched_lock` taken. -/
  | enter
  /-- `schedule` gives the lock up. -/
  | leave
  | tick
  deriving DecidableEq, Repr

namespace Events

/-- The event is found set. -/
def claim (g : Events) (tid e : ℕ) : Events :=
  { g with claimed := update g.claimed e (insert tid (g.claimed e)) }

/-- `atomic_dec`, which ends an await. -/
def atomicDec (g : Events) (tid e : ℕ) : Events :=
  { g with
    counter := update g.counter e (g.counter e - 1)
    claimed := update g.claimed e ((g.claimed e).erase tid)
    completed := update g.completed e (g.completed e + 1) }

/-- `trigger_event`. -/
def triggerEvent (g : Events) (e : ℕ) : Events :=
  { g with
    counter := update g.counter e (g.counter e + 1)
    triggers := update g.triggers e (g.triggers e + 1) }

end Events

/-- The event a thread waits for. -/
def AwaitPc.event : AwaitPc → Option ℕ
  | .waitEvent e | .waitEventTimeout e _ _ => some e
  | _ => none

/-- The statements of a thread. -/
def threadStep (tid : ℕ) (a : AwaitStmt) (g : Events) (pc : AwaitPc) : Option (Events × AwaitPc) :=
  match a, pc with
  | .await e, .running =>
    if g.counter e ≠ 0 then some (g.claim tid e, .decrement e) else some (g, .suspend e)
  | .dec, .decrement e => some (g.atomicDec tid e, .running)
  | .awaitTimeout e timeout, .running => some (g, .suspendTimeout e timeout)
  | .suspend, .suspend e =>
    if g.sched = .free then some ({ g with sched := .scanning }, .waitEvent e) else none
  | .suspend, .suspendTimeout e timeout =>
    if g.sched = .free then
      some ({ g with sched := .scanning }, .waitEventTimeout e g.globalTicks timeout)
    else none
  | .check, .waitEvent e =>
    if g.sched ≠ .scanning then none
    else if g.counter e ≠ 0 then some ({ g.claim tid e with sched := .found tid }, .waitEvent e)
    else some (g, .waitEvent e)
  | .check, .waitEventTimeout e waitStart timeout =>
    if g.sched ≠ .scanning then none
    else if g.counter e ≠ 0 then
      some ({ g.claim tid e with sched := .found tid }, .waitEventTimeout e waitStart timeout)
    -- the difference is unsigned
    else if timeout ≤ waitStart - g.globalTicks then some ({ g with sched := .picked }, .running)
    else some (g, .waitEventTimeout e waitStart timeout)
  | .take, pc =>
    if g.sched = .found tid then
      pc.event.map fun e => ({ g.atomicDec tid e with sched := .picked }, .running)
    else none
  | _, _ => none

/-- The statements on the shared state. -/
def sharedStep (b : EventStmt) (g : Events) : Option Events :=
  match b with
  | .trigger e => some (g.triggerEvent e)
  | .enter => if g.sched = .free then some { g with sched := .scanning } else none
  | .leave =>
    if g.sched = .scanning ∨ g.sched = .picked then some { g with sched := .free } else none
  | .tick => some { g with globalTicks := g.globalTicks + 1 }

/-- Threads that wait for events. -/
def system : System ℕ Events AwaitPc AwaitStmt EventStmt := ⟨sharedStep, threadStep⟩

/-- No event was triggered, and no thread waits. -/
def init : Conf ℕ Events AwaitPc :=
  ⟨⟨fun _ => 0, 0, .free, fun _ => ∅, fun _ => 0, fun _ => 0⟩, fun _ => .running⟩

/-- There is a trigger left for a consumer that finds the event set. -/
def Events.Unclaimed (g : Events) (e : ℕ) : Prop :=
  g.counter e ≠ 0 → (g.claimed e).card < (g.counter e).toNat

/-- A consumer finds an event set only while there is a trigger left for it, and no event is
triggered beyond the largest `int`. -/
def HasTrigger (c : Conf ℕ Events AwaitPc) : Act ℕ AwaitStmt EventStmt → Prop
  | .proc _ (.await e) => c.shared.Unclaimed e
  | .proc tid .check => ∀ e ∈ (c.loc tid).event, c.shared.Unclaimed e
  | .shared (.trigger e) => (c.shared.counter e).toNat < 2 ^ 31 - 1
  | _ => True

instance (c : Conf ℕ Events AwaitPc) (l : Act ℕ AwaitStmt EventStmt) :
    Decidable (HasTrigger c l) := by
  unfold HasTrigger Events.Unclaimed
  split <;> infer_instance

/-! ### The invariant -/

/-- The counters are the triggers that were not consumed, and enough for those that were claimed. -/
structure Counted (g : Events) (e : ℕ) : Prop where
  balance : (g.counter e).toNat + g.completed e = g.triggers e
  bound : (g.counter e).toNat < 2 ^ 31
  claims : (g.claimed e).card ≤ (g.counter e).toNat

/-- The events that are claimed for a thread. -/
def Claims (tid : ℕ) (g : Events) (pc : AwaitPc) : Prop :=
  ∀ e, tid ∈ g.claimed e ↔ pc = .decrement e ∨ (pc.event = some e ∧ g.sched = .found tid)

variable {g g' : Events} {tid e tid' e' : ℕ} {pc : AwaitPc}

/-- A claim that finds a trigger left keeps the counters. -/
theorem Counted.claim (h : ∀ e, Counted g e) (hleft : g.Unclaimed e) (hset : g.counter e ≠ 0)
    (e' : ℕ) : Counted (g.claim tid e) e' := by
  refine ⟨(h e').balance, (h e').bound, ?_⟩
  rcases eq_or_ne e' e with rfl | he
  · have hcard := card_insert_le tid (g.claimed e')
    have := hleft hset
    simp only [Events.claim, update_self]
    omega
  · simpa only [Events.claim, update_of_ne he] using (h e').claims

theorem Counted.atomicDec (h : ∀ e, Counted g e) (hclaimed : tid ∈ g.claimed e) (e' : ℕ) :
    Counted (g.atomicDec tid e) e' := by
  rcases eq_or_ne e' e with rfl | he
  · have hpos : 0 < (g.claimed e').card := card_pos.2 ⟨tid, hclaimed⟩
    have hclaims := (h e').claims
    have hbalance := (h e').balance
    have hbound := (h e').bound
    have hdec : (g.counter e' - 1).toNat = (g.counter e').toNat - 1 := by
      rw [BitVec.toNat_sub_of_le (by rw [BitVec.le_def]; exact hpos.trans_le hclaims)]
      rfl
    refine ⟨?_, ?_, ?_⟩ <;>
      simp only [Events.atomicDec, update_self, card_erase_of_mem hclaimed] <;>
      omega
  · refine ⟨?_, ?_, ?_⟩ <;> simp only [Events.atomicDec, update_of_ne he]
    · exact (h e').balance
    · exact (h e').bound
    · exact (h e').claims

theorem Counted.triggerEvent (h : ∀ e, Counted g e) (hlt : (g.counter e).toNat < 2 ^ 31 - 1)
    (e' : ℕ) : Counted (g.triggerEvent e) e' := by
  rcases eq_or_ne e' e with rfl | he
  · have hclaims := (h e').claims
    have hbalance := (h e').balance
    have hinc : (g.counter e' + 1).toNat = (g.counter e').toNat + 1 := by
      have hone : (1 : BitVec 32).toNat = 1 := rfl
      rw [BitVec.toNat_add_of_lt (by omega), hone]
    refine ⟨?_, ?_, ?_⟩ <;> simp only [Events.triggerEvent, update_self] <;> omega
  · refine ⟨?_, ?_, ?_⟩ <;> simp only [Events.triggerEvent, update_of_ne he]
    · exact (h e').balance
    · exact (h e').bound
    · exact (h e').claims

/-- A step that changes neither the claims of a thread nor its place. -/
theorem Claims.of_eq (h : Claims tid g pc)
    (hclaimed : ∀ e, tid ∈ g'.claimed e ↔ tid ∈ g.claimed e)
    (hsched : g'.sched = .found tid ↔ g.sched = .found tid) : Claims tid g' pc := by
  intro e
  rw [hclaimed, hsched]
  exact h e

theorem mem_claim :
    tid' ∈ (g.claim tid e).claimed e' ↔ (tid' = tid ∧ e' = e) ∨ tid' ∈ g.claimed e' := by
  rcases eq_or_ne e' e with rfl | he
  · simp [Events.claim]
  · simp [Events.claim, he]

theorem mem_atomicDec :
    tid' ∈ (g.atomicDec tid e).claimed e' ↔ ¬ (tid' = tid ∧ e' = e) ∧ tid' ∈ g.claimed e' := by
  rcases eq_or_ne e' e with rfl | he
  · simp [Events.atomicDec]
  · simp [Events.atomicDec, he]

section

variable (hcounted : ∀ e, Counted g e) {pc' : AwaitPc} {sched : SchedPc}
include hcounted

theorem sharedStep_invariant {b : EventStmt}
    (hroom : ∀ e, b = .trigger e → (g.counter e).toNat < 2 ^ 31 - 1)
    (h : sharedStep b g = some g') :
    (∀ e, Counted g' e) ∧ ∀ tid pc, Claims tid g pc → Claims tid g' pc := by
  cases b with
  | trigger e =>
    cases h
    exact ⟨Counted.triggerEvent hcounted (hroom e rfl), fun tid pc hc => hc⟩
  | enter =>
    dsimp only [sharedStep] at h
    split_ifs at h with hfree
    cases h
    refine ⟨fun e => ⟨(hcounted e).balance, (hcounted e).bound, (hcounted e).claims⟩,
      fun tid pc hc => hc.of_eq (fun e => Iff.rfl) ?_⟩
    simp [hfree]
  | leave =>
    dsimp only [sharedStep] at h
    split_ifs at h with hlocked
    cases h
    refine ⟨fun e => ⟨(hcounted e).balance, (hcounted e).bound, (hcounted e).claims⟩,
      fun tid pc hc => hc.of_eq (fun e => Iff.rfl) ?_⟩
    rcases hlocked with hs | hs <;> simp [hs]
  | tick =>
    cases h
    exact ⟨fun e => ⟨(hcounted e).balance, (hcounted e).bound, (hcounted e).claims⟩,
      fun tid pc hc => hc⟩

/-- The invariant after a step of a thread, and for the other threads. -/
structure Kept (tid : ℕ) (g g' : Events) (pc' : AwaitPc) : Prop where
  counted : ∀ e, Counted g' e
  own : Claims tid g' pc'
  others : ∀ j pcj, j ≠ tid → Claims j g pcj → Claims j g' pcj

/-- A step that claims nothing and decrements nothing. -/
theorem Kept.silent (hclaims : Claims tid g pc)
    (hsched : ∀ j, sched = .found j ↔ g.sched = .found j) (hpc : ∀ e, pc ≠ .decrement e)
    (hpc' : ∀ e, pc' ≠ .decrement e) (hevent : g.sched = .found tid → pc'.event = pc.event) :
    Kept tid g { g with sched := sched } pc' := by
  refine ⟨fun e => ⟨(hcounted e).balance, (hcounted e).bound, (hcounted e).claims⟩, fun e => ?_,
    fun j pcj _ hj => hj.of_eq (fun e => Iff.rfl) (hsched j)⟩
  rw [hclaims e, hsched]
  simp only [hpc, hpc', false_or]
  exact and_congr_left fun hfound => by rw [hevent hfound]

theorem Kept.await (hclaims : Claims tid g .running) (hleft : g.Unclaimed e)
    (hset : g.counter e ≠ 0) :
    Kept tid g (g.claim tid e) (.decrement e) := by
  refine ⟨Counted.claim hcounted hleft hset, fun e' => ?_, fun j pcj hne hj => hj.of_eq
    (fun e' => by simp [mem_claim, hne]) Iff.rfl⟩
  have := hclaims e'
  rw [mem_claim]
  simp [AwaitPc.event, this, eq_comm]

theorem Kept.check (hclaims : Claims tid g pc) (hleft : g.Unclaimed e) (hset : g.counter e ≠ 0)
    (hpc : pc.event = some e) (hsched : g.sched = .scanning) :
    Kept tid g { g.claim tid e with sched := .found tid } pc := by
  have hcounted' : ∀ e', Counted (g.claim tid e) e' := Counted.claim hcounted hleft hset
  refine ⟨fun e' => ⟨(hcounted' e').balance, (hcounted' e').bound, (hcounted' e').claims⟩,
    fun e' => ?_, fun j pcj hne hj => hj.of_eq (fun e' => ?_) ?_⟩
  · have := hclaims e'
    rw [show tid ∈ _ ↔ _ from mem_claim]
    cases pc <;> simp_all [AwaitPc.event, eq_comm]
  · rw [show j ∈ _ ↔ _ from mem_claim]
    simp [hne]
  · simp [hsched, hne.symm]

theorem Kept.atomicDec (hclaims : Claims tid g pc)
    (hpc : pc = .decrement e ∧ sched = g.sched ∨
      pc.event = some e ∧ g.sched = .found tid ∧ sched = .picked) :
    Kept tid g { g.atomicDec tid e with sched := sched } .running := by
  have hmem : ∀ e', tid ∈ g.claimed e' ↔ e' = e := fun e' => by
    rw [hclaims e']
    rcases hpc with ⟨rfl, -⟩ | ⟨hev, hsched, -⟩
    · simp [AwaitPc.event, eq_comm]
    · cases pc <;> simp_all [AwaitPc.event, eq_comm]
  have hcounted' := Counted.atomicDec hcounted ((hmem e).2 rfl)
  refine ⟨fun e' => ⟨(hcounted' e').balance, (hcounted' e').bound, (hcounted' e').claims⟩,
    fun e' => ?_, fun j pcj hne hj => hj.of_eq (fun e' => ?_) ?_⟩
  · rw [show tid ∈ _ ↔ _ from mem_atomicDec, hmem]
    simp [AwaitPc.event]
  · rw [show j ∈ _ ↔ _ from mem_atomicDec]
    simp [hne]
  · rcases hpc with ⟨-, rfl⟩ | ⟨-, hsched, rfl⟩
    · exact Iff.rfl
    · simp [hsched, hne.symm]

theorem threadStep_kept {a : AwaitStmt} (hclaims : Claims tid g pc)
    (hawait : ∀ e, a = .await e → g.Unclaimed e)
    (hcheck : a = .check → ∀ e ∈ pc.event, g.Unclaimed e)
    (h : threadStep tid a g pc = some (g', pc')) : Kept tid g g' pc' := by
  have hsame {pc' : AwaitPc} (hpc : ∀ e, pc ≠ .decrement e) (hpc' : ∀ e, pc' ≠ .decrement e)
      (hevent : pc'.event = pc.event) : Kept tid g g pc' :=
    Kept.silent hcounted hclaims (fun _ => Iff.rfl) hpc hpc' fun _ => hevent
  unfold threadStep at h
  split at h
  · -- `await_event` reads the counter
    split_ifs at h with hset <;> cases h
    · exact Kept.await hcounted hclaims (hawait _ rfl) hset
    · exact hsame (by simp) (by simp) rfl
  · cases h
    exact Kept.atomicDec hcounted hclaims (Or.inl ⟨rfl, rfl⟩)
  · cases h
    exact hsame (by simp) (by simp) rfl
  · split_ifs at h with hfree
    cases h
    exact Kept.silent hcounted hclaims (by simp [hfree]) (by simp) (by simp) (by simp [hfree])
  · split_ifs at h with hfree
    cases h
    exact Kept.silent hcounted hclaims (by simp [hfree]) (by simp) (by simp) (by simp [hfree])
  · -- `schedule` looks at the event of a thread in `WAIT_EVENT`
    split_ifs at h with hsched hset <;> cases h
    · exact Kept.check hcounted hclaims (hcheck rfl _ rfl) hset rfl (not_not.1 hsched)
    · exact hsame (by simp) (by simp) rfl
  · split_ifs at h with hsched hset htime <;> cases h
    · exact Kept.check hcounted hclaims (hcheck rfl _ rfl) hset rfl (not_not.1 hsched)
    · have := not_not.1 hsched
      exact Kept.silent hcounted hclaims (by simp [this]) (by simp) (by simp) (by simp [this])
    · exact hsame (by simp) (by simp) rfl
  · split_ifs at h with hfound
    obtain ⟨e, he, h⟩ := Option.map_eq_some_iff.1 h
    cases h
    exact Kept.atomicDec hcounted hclaims (Or.inr ⟨he, hfound, rfl⟩)
  · cases h

end

theorem holds_of_run {ls : List (Act ℕ AwaitStmt EventStmt)} {c : Conf ℕ Events AwaitPc}
    (hrun : Run (system.Step HasTrigger) init ls c) :
    System.Holds (fun g => ∀ e, Counted g e) Claims c := by
  refine System.invariant hrun
    ⟨fun e => ⟨rfl, by simp [init], Nat.le_refl 0⟩, fun tid e => ?_⟩ ?_ ?_
  · simp [init]
  · intro c b g hc hP hstep
    have hroom : ∀ e, b = .trigger e → (c.shared.counter e).toNat < 2 ^ 31 - 1 := by
      rintro e rfl
      exact hP
    obtain ⟨hcounted, hclaims⟩ := sharedStep_invariant hc.shared hroom hstep
    exact ⟨hcounted, fun tid => hclaims tid _ (hc.loc tid)⟩
  · intro c tid a g pc hc hP hstep
    have hawait : ∀ e, a = .await e → c.shared.Unclaimed e := by
      rintro e rfl
      exact hP
    have hcheck : a = .check → ∀ e ∈ (c.loc tid).event, c.shared.Unclaimed e := by
      rintro rfl
      exact hP
    have hkept := threadStep_kept hc.shared (hc.loc tid) hawait hcheck hstep
    exact ⟨hkept.counted, hkept.own, fun j hj => hkept.others j _ hj (hc.loc j)⟩

/-- **No event is consumed more often than it was triggered, and no counter is negative**, in every
interleaving in which a consumer that finds an event set finds a trigger that no other one is about
to take, and no event is triggered beyond the largest `int`. -/
theorem awaits_le_triggers {ls : List (Act ℕ AwaitStmt EventStmt)} {c : Conf ℕ Events AwaitPc}
    (hrun : Run (system.Step HasTrigger) init ls c) (e : ℕ) :
    c.shared.completed e ≤ c.shared.triggers e ∧ 0 ≤ (c.shared.counter e).toInt := by
  obtain ⟨hbalance, hbound, -⟩ := (holds_of_run hrun).shared e
  refine ⟨by omega, ?_⟩
  rw [BitVec.toInt_eq_toNat_of_lt (by omega)]
  exact Int.natCast_nonneg _

/-- A thread takes the first trigger in `await_event`, and `schedule` wakes up another one with the
second. -/
def twoTriggers : List (Act ℕ AwaitStmt EventStmt) :=
  [.proc 1 (.await 7), .proc 1 .suspend, .proc 1 .check, .shared .leave, .shared (.trigger 7),
    .shared (.trigger 7), .proc 2 (.await 7), .shared .enter, .proc 1 .check, .proc 2 .dec,
    .proc 1 .take, .shared .leave]

/-- Both awaits have ended. -/
theorem awaits_le_triggers_twoTriggers : ∃ c, Run (system.Step HasTrigger) init twoTriggers c ∧
    c.shared.completed 7 = 2 ∧ c.shared.completed 7 ≤ c.shared.triggers 7 ∧
    0 ≤ (c.shared.counter 7).toInt := by
  obtain ⟨c, hrun, hcompleted⟩ : ∃ c, Run (system.Step HasTrigger) init twoTriggers c ∧
      c.shared.completed 7 = 2 :=
    System.exists_run (by decide +kernel)
  exact ⟨c, hrun, hcompleted, awaits_le_triggers hrun 7⟩

/-- **One trigger ends two awaits.**  Both consumers read the counter before one of them decrements
it: two calls of `await_event`, or one and `schedule`.  The counter is -1, and a third await ends at
once. -/
theorem one_trigger_two_awaits :
    (∃ c, Run (system.Step fun _ _ => True) init
      [.shared (.trigger 7), .proc 1 (.await 7), .proc 2 (.await 7), .proc 1 .dec, .proc 2 .dec,
        .proc 3 (.await 7), .proc 3 .dec] c ∧
      c.shared.triggers 7 = 1 ∧ c.shared.completed 7 = 3 ∧ (c.shared.counter 7).toInt = -2) ∧
    ∃ c, Run (system.Step fun _ _ => True) init
      [.proc 1 (.await 7), .proc 1 .suspend, .proc 1 .check, .shared .leave, .shared (.trigger 7),
        .shared .enter, .proc 1 .check, .proc 2 (.await 7), .proc 1 .take, .proc 2 .dec] c ∧
      c.shared.triggers 7 = 1 ∧ c.shared.completed 7 = 2 ∧ (c.shared.counter 7).toInt = -1 := by
  exact ⟨System.exists_run (by decide +kernel), System.exists_run (by decide +kernel)⟩

end Event

end DripOS
