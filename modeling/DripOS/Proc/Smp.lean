import DripOS.Proc.SleepKill

/-!
# Threads on several processors

`schedule` of `src/proc/scheduler.c` with the data of each processor: its current thread and its
idle thread, which is in the table of threads.  Every operation holds `sched_lock`, so it is one
step; `Proc/SchedLock.lean` has the steps inside.

`Smp.SmpOk` is the invariant: a processor runs one thread, and nobody else picks this thread.
`Smp.schedule_sched` : between threads that are not idle `schedule` is that of `Proc/Scheduler`.
-/

namespace DripOS

open Option

/-- The fields of `cpu_locals_t` that the scheduler uses.  The current thread is a number, and the
thread that had it. -/
structure CpuLocals where
  currentThread : Option (ℕ × ℕ)
  idleTid : ℕ
  deriving DecidableEq, Repr

/-- The scheduler and the processors. -/
structure Smp where
  sched : Sched
  cpus : List CpuLocals
  /-- Ghost: the threads that became the current thread of a processor. -/
  ran : List ℕ
  deriving DecidableEq, Repr

/-- What `schedule` does to the current thread. -/
def Thread.save (thread : Thread) (idle : Bool) : Thread :=
  { thread with
    cpu := -1
    running := false
    state := if thread.state = .running ∧ !idle then .ready else thread.state }

/-- What the first part of `schedule` does to the thread with a number. -/
def CpuLocals.left (locals : CpuLocals) (tid : ℕ) (thread : Thread) : Thread :=
  if locals.currentThread.map Prod.fst = some tid then thread.save (tid = locals.idleTid)
  else thread

namespace Sched

/-- Some threads that were asleep have been woken up. -/
structure Wakes (s s' : Sched) : Prop where
  get : ∀ i, Slots.get s'.threads i = Slots.get s.threads i ∨
    ∃ th, Slots.get s.threads i = some th ∧ th.state = .sleep ∧
      Slots.get s'.threads i = some th.wakeUp
  nextIdent : s'.nextIdent = s.nextIdent

variable {s s' : Sched}

theorem Wakes.of_threads (h : s'.threads = s.threads) (hnext : s'.nextIdent = s.nextIdent) :
    Wakes s s' :=
  ⟨fun i => Or.inl (by rw [h]), hnext⟩

/-- A thread that was woken up is not asleep, so it is not woken up again. -/
theorem Wakes.trans {s1 s2 s3 : Sched} (h : Wakes s1 s2) (h' : Wakes s2 s3) : Wakes s1 s3 := by
  refine ⟨fun i => ?_, h'.nextIdent.trans h.nextIdent⟩
  rcases h'.get i with heq' | ⟨th', hth', hsleep', hwoken'⟩
  · rw [heq']
    exact h.get i
  · rcases h.get i with heq | ⟨th, hth, hsleep, hwoken⟩
    · exact Or.inr ⟨th', heq ▸ hth', hsleep', hwoken'⟩
    · cases hwoken.symm.trans hth'
      cases hsleep'

theorem wake_wakes {node : SleepNode} (h : s.wake node = .ok s') : Wakes s s' := by
  unfold wake at h
  split at h
  · cases h
    exact .of_threads rfl rfl
  · rename_i thread hthread
    split_ifs at h with hsleep
    cases h
    refine ⟨fun i => ?_, rfl⟩
    rcases eq_or_ne i node.tid with rfl | hi
    · exact Or.inr ⟨thread, hthread, hsleep, (get_setThread hthread _ _).trans (if_pos rfl)⟩
    · exact Or.inl ((get_setThread hthread _ i).trans (if_neg hi))

theorem wakeAll_wakes {nodes : List SleepNode} (h : s.wakeAll nodes = .ok s') : Wakes s s' := by
  induction nodes generalizing s with
  | nil =>
    cases h
    exact .of_threads rfl rfl
  | cons node nodes ih =>
    unfold wakeAll at h
    split_ifs at h
    · obtain ⟨s1, hwake, h⟩ := bind_eq_ok.1 h
      exact (wake_wakes hwake).trans (ih h)
    · cases h
      exact .of_threads rfl rfl

theorem advanceTime_wakes {locked : Bool} (h : s.advanceTime locked = .ok s') : Wakes s s' := by
  unfold advanceTime at h
  split_ifs at h
  · cases h
    exact .of_threads rfl rfl
  · obtain ⟨s1, hloop, h⟩ := bind_eq_ok.1 h
    cases h
    have hrounds : Wakes { s with clock := s.clock + 1 } s1 := by
      refine forRange_induct (fun _ t => Wakes { s with clock := s.clock + 1 } t)
        (.of_threads rfl rfl) (fun _ t t' _ ht hround => ht.trans ?_) hloop
      unfold advanceRound at hround
      split at hround
      · cases hround
        exact .of_threads rfl rfl
      · have hwakes := wakeAll_wakes hround
        exact ⟨hwakes.get, hwakes.nextIdent⟩
    exact ⟨hrounds.get, hrounds.nextIdent⟩

theorem insertToQueue_ok {ticks : UInt64} {tid owner : ℕ}
    (h : s.insertToQueue ticks tid owner = .ok s') :
    s'.threads = s.threads ∧ s'.nextIdent = s.nextIdent := by
  unfold insertToQueue at h
  split_ifs at h
  cases h
  exact ⟨rfl, rfl⟩

end Sched

namespace Smp

/-- Nothing is running. -/
def init : Smp := ⟨.init, [], []⟩

/-- `threads[tid]`. -/
def get (m : Smp) (tid : ℕ) : Option Thread := Slots.get m.sched.threads tid

/-- The first part of `schedule`. -/
def saveThread (m : Smp) (locals : CpuLocals) : Except SchedHalt Smp :=
  match locals.currentThread with
  | none => .ok m
  | some (tid, ident) =>
    match m.get tid with
    | none => .error .freed
    | some thread =>
      if thread.ident = ident then
        .ok { m with
          sched := m.sched.setThread tid (some (thread.save (tid = locals.idleTid))) }
      else .error .freed

/-- A thread becomes the current thread. -/
def setCurrent (m : Smp) (cpu : ℕ) (locals : CpuLocals) (tid : ℕ) (thread : Thread) : Smp :=
  { m with
    sched := m.sched.setThread tid (some thread)
    cpus := m.cpus.set cpu { locals with currentThread := some (tid, thread.ident) }
    ran := thread.ident :: m.ran }

/-- The last part of `schedule`, with the thread that was picked. -/
def restoreThread (m : Smp) (cpu : ℕ) (locals : CpuLocals) : Option ℕ → Except SchedHalt Smp
  | none =>
    match m.get locals.idleTid with
    | none => .error .fault
    | some thread => .ok (m.setCurrent cpu locals locals.idleTid { thread with cpu := cpu })
  | some tid => do
    let thread ← m.sched.getThread tid
    if thread.pickable ∧ !thread.running then
      .ok (m.setCurrent cpu locals tid (thread.enter cpu))
    else .error .assertion

/-- `schedule` on a processor. -/
def schedule (m : Smp) (cpu : ℕ) (next : Option ℕ) : Except SchedHalt Smp :=
  match m.cpus[cpu]? with
  | none => .ok m
  | some locals => do
    let m ← m.saveThread locals
    m.restoreThread cpu locals next

/-- `sleep_ms`, called by the current thread of a processor. -/
def sleepMs (m : Smp) (cpu : ℕ) (ms : UInt64) (next : Option ℕ) : Except SchedHalt Smp :=
  match m.cpus[cpu]? with
  | none => .ok m
  | some locals =>
    match locals.currentThread with
    | none => .error .fault
    | some (tid, ident) =>
      match m.get tid with
      | none => .error .freed
      | some thread =>
        if thread.ident ≠ ident then .error .freed
        else if thread.state = .running then do
          let s := m.sched.setThread tid (some { thread with state := .sleep })
          let s ← s.insertToQueue ms tid ident
          { m with sched := s }.schedule cpu next
        else .error .assertion

/-- `init_sched_cpu_locals`, on a processor that is started. -/
def initSchedCpuLocals (m : Smp) : Smp :=
  let (newIdle, s) := m.sched.createThread .blocked
  let (idleTid, s) := s.startThread newIdle
  { m with sched := s, cpus := m.cpus ++ [⟨none, idleTid⟩] }

/-- The operations. -/
inductive Op where
  | newProcess
  /-- `create_thread` and `add_new_child_thread`. -/
  | create (pid : ℕ) (blocked : Bool)
  /-- `create_thread` and `start_thread`. -/
  | start (blocked : Bool)
  | bootCpu
  | schedule (cpu : ℕ) (next : Option ℕ)
  | sleep (cpu : ℕ) (ms : UInt64) (next : Option ℕ)
  | tick (locked : Bool)
  | kill (tid : ℕ)
  /-- A call of `kill_thread` goes on after its wait. -/
  | resume (tid ident : ℕ)
  deriving DecidableEq, Repr

/-- An operation on the tables. -/
def onSched (m : Smp) (op : Sched.ThreadOp) : Except SchedHalt Smp :=
  (m.sched.exec op).map fun s => { m with sched := s }

/-- The operations. -/
def exec (m : Smp) : Op → Except SchedHalt Smp
  | .newProcess => m.onSched .newProcess
  | .create pid blocked => m.onSched (.create pid blocked)
  | .start blocked => m.onSched (.start blocked)
  | .bootCpu => .ok m.initSchedCpuLocals
  | .schedule cpu next => m.schedule cpu next
  | .sleep cpu ms next => m.sleepMs cpu ms next
  | .tick locked => m.onSched (.tick locked)
  | .kill tid => m.onSched (.kill tid)
  | .resume tid ident => m.onSched (.resume tid ident)

/-! ### What the operations do -/

variable {m m' : Smp} {cpu tid i c : ℕ} {locals : CpuLocals} {next busy : Option ℕ} {th : Thread}
  {s' : Sched}

theorem saveThread_ok (h : m.saveThread locals = .ok m') :
    (∀ i, m'.get i = (m.get i).map (locals.left i)) ∧
    m' = { m with sched := { m.sched with threads := m'.sched.threads } } ∧
    ∀ p, locals.currentThread = some p → ∃ th, m.get p.1 = some th ∧ th.ident = p.2 := by
  unfold saveThread at h
  split at h
  · rename_i hcur
    cases h
    have hleft : ∀ i, locals.left i = id := fun i => by
      funext th
      simp [CpuLocals.left, hcur]
    refine ⟨fun i => by rw [hleft, map_id_fun, id_eq], rfl, fun p hp => ?_⟩
    cases hcur.symm.trans hp
  · rename_i tid ident hcur
    split at h
    · cases h
    · rename_i thread hthread
      split_ifs at h with hident
      cases h
      refine ⟨fun i => ?_, rfl, fun p hp => ?_⟩
      · refine (Sched.get_setThread_map hthread
          (fun th => th.save (tid = locals.idleTid)) i).trans ?_
        congr 1
        funext th
        by_cases hi : i = tid
        · simp [CpuLocals.left, hcur, hi]
        · simp [CpuLocals.left, hcur, hi, Ne.symm hi]
      · cases hcur.symm.trans hp
        exact ⟨thread, hthread, hident⟩

/-- The new current thread: the idle thread, or one that could be picked. -/
theorem restoreThread_ok (h : m.restoreThread cpu locals next = .ok m') :
    ∃ tid thread thread', m.get tid = some thread ∧ m' = m.setCurrent cpu locals tid thread' ∧
      thread'.ident = thread.ident ∧ thread'.cpu = cpu ∧
      (next = none ∧ tid = locals.idleTid ∧ thread'.state = thread.state ∨
        next = some tid ∧ thread.pickable ∧ thread'.state = .running) := by
  cases next with
  | none =>
    dsimp only [restoreThread] at h
    split at h
    · cases h
    · rename_i thread hthread
      cases h
      exact ⟨_, thread, _, hthread, rfl, rfl, rfl, Or.inl ⟨rfl, rfl, rfl⟩⟩
  | some tid =>
    obtain ⟨thread, hthread, h⟩ := bind_eq_ok.1 h
    split_ifs at h with hpick
    cases h
    exact ⟨tid, thread, _, Sched.getThread_eq_ok.1 hthread, rfl, rfl, rfl,
      Or.inr ⟨rfl, hpick.1, rfl⟩⟩

/-- **Between threads that are not idle `Smp.schedule` is `Sched.schedule`**, for which the idle
threads are no threads of the table. -/
theorem schedule_sched {cur ident next : ℕ} (hcpu : m.cpus[cpu]? = some locals)
    (hcur : locals.currentThread = some (cur, ident)) (hne : cur ≠ locals.idleTid)
    (h : m.schedule cpu (some next) = .ok m') :
    m.sched.schedule cpu (some cur) (some next) = .ok m'.sched := by
  rw [schedule, hcpu] at h
  obtain ⟨m1, hsave, h⟩ := bind_eq_ok.1 h
  rw [saveThread, hcur] at hsave
  dsimp only at hsave
  split at hsave
  · cases hsave
  · rename_i thread hthread
    split_ifs at hsave
    cases hsave
    have hleave : thread.save (cur = locals.idleTid) = thread.leave := by
      simp [Thread.save, Thread.leave, hne]
    rw [Sched.schedule, Sched.leaveCpu, Sched.getThread_eq_ok.2 hthread, ok_bind, ← hleave, ok_bind]
    obtain ⟨picked, hpicked, h⟩ := bind_eq_ok.1 h
    split_ifs at h with hassert
    cases h
    rw [Sched.enterCpu, hpicked, ok_bind, if_pos hassert]
    rfl

/-- `schedule`: thread `tid` enters the processor, and the current thread leaves it. -/
structure Scheduled (m : Smp) (cpu : ℕ) (locals : CpuLocals) (next : Option ℕ) (tid : ℕ)
    (thread thread' : Thread) (m' : Smp) : Prop where
  old : m.get tid = some thread
  get : ∀ i, m'.get i = if i = tid then some thread' else (m.get i).map (locals.left i)
  cpus : m'.cpus = m.cpus.set cpu { locals with currentThread := some (tid, thread.ident) }
  ran : m'.ran = thread.ident :: m.ran
  sched : m'.sched = { m.sched with threads := m'.sched.threads }
  ident : thread'.ident = thread.ident
  onCpu : thread'.cpu = cpu
  entered : next = none ∧ tid = locals.idleTid ∧ thread'.state = (locals.left tid thread).state ∨
    next = some tid ∧ (locals.left tid thread).pickable ∧ thread'.state = .running

theorem ident_left (i : ℕ) (th : Thread) : (locals.left i th).ident = th.ident := by
  unfold CpuLocals.left
  split_ifs <;> rfl

theorem schedule_ok (h : m.schedule cpu next = .ok m') (hcpu : m.cpus[cpu]? = some locals) :
    ∃ tid thread thread', Scheduled m cpu locals next tid thread thread' m' := by
  unfold schedule at h
  rw [hcpu] at h
  obtain ⟨m1, hsave, h⟩ := bind_eq_ok.1 h
  obtain ⟨hget, hsame, -⟩ := saveThread_ok hsave
  obtain ⟨tid, thread1, thread', hthread1, rfl, hident, hc, hnext⟩ := restoreThread_ok h
  rw [hget] at hthread1
  obtain ⟨thread, hthread, rfl⟩ := map_eq_some_iff.1 hthread1
  have hsched : m1.sched = { m.sched with threads := m1.sched.threads } := by rw [hsame]
  refine ⟨tid, thread, thread', hthread, fun i => ?_, ?_, ?_, ?_,
    hident.trans (ident_left tid thread), hc, hnext⟩
  · rw [← hget]
    exact Sched.get_setThread (by rw [← get, hget, hthread]; rfl) (some thread') i
  · show m1.cpus.set cpu _ = _
    rw [hident, ident_left, hsame]
  · show thread'.ident :: m1.ran = _
    rw [hident, ident_left, hsame]
  · show m1.sched.setThread tid (some thread') = _
    rw [hsched]
    rfl

/-- The thread is the current thread of the processor. -/
def CurrentOn (m : Smp) (cpu tid ident : ℕ) : Prop :=
  ∃ locals, m.cpus[cpu]? = some locals ∧ locals.currentThread = some (tid, ident)

/-- The number is the one of an idle thread. -/
def IdleTid (m : Smp) (cpu tid : ℕ) : Prop :=
  ∃ locals, m.cpus[cpu]? = some locals ∧ locals.idleTid = tid

/-- The invariant.  The processor `busy` is about to enter `schedule`, and its current thread may be
anything. -/
structure SmpOk (busy : Option ℕ) (m : Smp) : Prop where
  ident : ∀ i j th th', m.get i = some th → m.get j = some th' → th.ident = th'.ident → i = j
  fresh : ∀ i th, m.get i = some th → th.ident < m.sched.nextIdent
  ranFresh : ∀ x ∈ m.ran, x < m.sched.nextIdent
  /-- A processor runs a thread that nobody will pick. -/
  current : ∀ c i id, m.CurrentOn c i id → ∃ th, m.get i = some th ∧ th.ident = id ∧ th.cpu = c ∧
    id ∈ m.ran ∧ (busy = some c ∨ th.pickable = false ∧ th.state ≠ .sleep)
  /-- A thread that was picked, and is not running, has left its processor. -/
  saved : ∀ i th, m.get i = some th → th.ident ∈ m.ran → th.cpu ≠ -1 → ∃ c, m.CurrentOn c i th.ident
  created : ∀ i th, m.get i = some th → th.ident ∉ m.ran → th.cpu = 0
  idle : ∀ c i, m.IdleTid c i → ∃ th, m.get i = some th ∧ th.state = .blocked
  idleCurrent : ∀ c d i id, m.IdleTid c i → m.CurrentOn d i id → d = c
  idleInj : ∀ c d i, m.IdleTid c i → m.IdleTid d i → c = d

theorem smpOk_init : SmpOk none init := by
  constructor <;> simp [init, get, Sched.init, Slots.get, CurrentOn, IdleTid]

theorem currentOn_congr {c i id : ℕ} (hcpus : m'.cpus = m.cpus) :
    m'.CurrentOn c i id ↔ m.CurrentOn c i id := by
  unfold CurrentOn
  rw [hcpus]

theorem idleTid_congr {c i : ℕ} (hcpus : m'.cpus = m.cpus) : m'.IdleTid c i ↔ m.IdleTid c i := by
  unfold IdleTid
  rw [hcpus]

/-- A processor after another one has got a new current thread. -/
theorem currentOn_set (hcpu : m.cpus[cpu]? = some locals) {cur : ℕ × ℕ}
    (hcpus : m'.cpus = m.cpus.set cpu { locals with currentThread := some cur }) (c i id : ℕ) :
    m'.CurrentOn c i id ↔ if c = cpu then cur = (i, id) else m.CurrentOn c i id := by
  have hlt := (List.getElem?_eq_some_iff.1 hcpu).1
  unfold CurrentOn
  rw [hcpus]
  split_ifs with hc
  · subst hc
    simp [List.getElem?_set_self hlt]
  · rw [List.getElem?_set_ne (Ne.symm hc)]

theorem idleTid_set (hcpu : m.cpus[cpu]? = some locals) {cur : Option (ℕ × ℕ)}
    (hcpus : m'.cpus = m.cpus.set cpu { locals with currentThread := cur }) (c i : ℕ) :
    m'.IdleTid c i ↔ m.IdleTid c i := by
  have hlt := (List.getElem?_eq_some_iff.1 hcpu).1
  unfold IdleTid
  rw [hcpus]
  rcases eq_or_ne c cpu with rfl | hc
  · simp [List.getElem?_set_self hlt, hcpu]
  · rw [List.getElem?_set_ne (Ne.symm hc)]

theorem left_of_ne (h : ∀ id, locals.currentThread ≠ some (i, id)) : locals.left i th = th := by
  unfold CpuLocals.left
  rw [if_neg]
  rintro heq
  obtain ⟨p, hp, rfl⟩ := map_eq_some_iff.1 heq
  exact h p.2 hp

theorem state_left_blocked (h : th.state = .blocked) : (locals.left i th).state = .blocked := by
  unfold CpuLocals.left
  split_ifs <;> simp [Thread.save, h]

/-- A thread runs on one processor only. -/
theorem SmpOk.current_unique (hok : SmpOk busy m) {d id id' : ℕ} (hc : m.CurrentOn c i id)
    (hd : m.CurrentOn d i id') : c = d := by
  obtain ⟨th1, hth1, -, hcpu1, -⟩ := hok.current c i id hc
  obtain ⟨th2, hth2, -, hcpu2, -⟩ := hok.current d i id' hd
  cases hth1.symm.trans hth2
  exact Int.ofNat_inj.1 (hcpu1.symm.trans hcpu2)

/-- `schedule` leaves a thread alone that runs on another processor. -/
theorem SmpOk.left_current (hok : SmpOk busy m) (hcpu : m.cpus[cpu]? = some locals) {id : ℕ}
    (hc : c ≠ cpu) (hcur : m.CurrentOn c i id) : locals.left i th = th :=
  left_of_ne fun _ hid => hc (hok.current_unique hcur ⟨locals, hcpu, hid⟩)

namespace Scheduled

variable {thread thread' : Thread} (h : Scheduled m cpu locals next tid thread thread' m')

include h

/-- The threads are those of before. -/
theorem of_get {i : ℕ} {th' : Thread} (hi : m'.get i = some th') :
    ∃ th, m.get i = some th ∧ th'.ident = th.ident ∧ (i ≠ tid → th' = locals.left i th) := by
  rw [h.get] at hi
  split_ifs at hi with heq
  · cases hi
    exact ⟨thread, heq ▸ h.old, h.ident, fun hne => absurd heq hne⟩
  · obtain ⟨th, hth, rfl⟩ := map_eq_some_iff.1 hi
    exact ⟨th, hth, ident_left i th, fun _ => rfl⟩

theorem nextIdent : m'.sched.nextIdent = m.sched.nextIdent := by rw [h.sched]

variable (hok : SmpOk (some cpu) m) (hcpu : m.cpus[cpu]? = some locals) {c : ℕ}

include hok hcpu

/-- The thread that enters is nobody else's current thread. -/
theorem not_current {id : ℕ} (hne : c ≠ cpu) : ¬ m.CurrentOn c tid id := by
  intro hcur
  rcases h.entered with ⟨-, rfl, -⟩ | ⟨-, hpick, -⟩
  · exact hne (hok.idleCurrent cpu c _ id ⟨locals, hcpu, rfl⟩ hcur)
  · obtain ⟨th, hth, -, -, -, hbusy⟩ := hok.current c tid id hcur
    cases hth.symm.trans h.old
    obtain ⟨hnot, -⟩ := hbusy.resolve_left fun heq => hne (Option.some.inj heq).symm
    rw [hok.left_current hcpu hne hcur] at hpick
    exact absurd hpick (by simp [hnot])

/-- An idle thread enters only its own processor. -/
theorem idle_of_enters (hidle : m.IdleTid c tid) : c = cpu ∧ thread'.state = .blocked := by
  obtain ⟨th, hth, hblocked⟩ := hok.idle c tid hidle
  cases hth.symm.trans h.old
  rcases h.entered with ⟨-, rfl, hst⟩ | ⟨-, hpick, -⟩
  · exact ⟨hok.idleInj c cpu _ hidle ⟨locals, hcpu, rfl⟩, hst.trans (state_left_blocked hblocked)⟩
  · simp [Thread.pickable, state_left_blocked hblocked] at hpick

theorem state_entered : thread'.state = .blocked ∨ thread'.state = .running := by
  rcases h.entered with ⟨-, rfl, -⟩ | ⟨-, -, hst⟩
  · exact Or.inl (h.idle_of_enters hok hcpu ⟨locals, hcpu, rfl⟩).2
  · exact Or.inr hst

theorem current (c i id : ℕ) (hcur : m'.CurrentOn c i id) :
    ∃ th, m'.get i = some th ∧ th.ident = id ∧ th.cpu = c ∧ id ∈ m'.ran ∧
      (none = some c ∨ th.pickable = false ∧ th.state ≠ .sleep) := by
  rw [currentOn_set hcpu h.cpus] at hcur
  split_ifs at hcur with heq
  · cases hcur
    refine ⟨thread', by rw [h.get, if_pos rfl], h.ident, by rw [h.onCpu, heq], by simp [h.ran], ?_⟩
    rcases h.state_entered hok hcpu with hst | hst <;> simp [Thread.pickable, hst]
  · obtain ⟨th, hth, hid, hthcpu, hr, hbusy⟩ := hok.current c i id hcur
    have hne : i ≠ tid := fun hi => h.not_current hok hcpu heq (hi ▸ hcur)
    refine ⟨th, ?_, hid, hthcpu, by simp [h.ran, hr], Or.inr (hbusy.resolve_left ?_)⟩
    · rw [h.get, if_neg hne, hth, map_some, hok.left_current hcpu heq hcur]
    · exact fun hb => heq (Option.some.inj hb).symm

theorem saved (i : ℕ) (th' : Thread) (hi : m'.get i = some th') (hr : th'.ident ∈ m'.ran)
    (hne : th'.cpu ≠ -1) : ∃ c, m'.CurrentOn c i th'.ident := by
  have hcurrent := currentOn_set hcpu h.cpus
  obtain ⟨th, hth, hid, hleft⟩ := h.of_get hi
  rcases eq_or_ne i tid with rfl | hi'
  · cases hth.symm.trans h.old
    exact ⟨cpu, (hcurrent _ _ _).2 (by rw [if_pos rfl, hid])⟩
  · rw [hleft hi'] at hne
    -- a thread that has just left has -1
    have hnotcur : ∀ id, locals.currentThread ≠ some (i, id) := fun id hcur => by
      simp [CpuLocals.left, hcur, Thread.save] at hne
    rw [left_of_ne hnotcur] at hne
    have hr' : th.ident ∈ m.ran := by
      rw [h.ran, hid] at hr
      rcases List.mem_cons.1 hr with heq | hr
      · exact absurd (hok.ident i tid th thread hth h.old heq) hi'
      · exact hr
    obtain ⟨c, hcur⟩ := hok.saved i th hth hr' hne
    have hcne : c ≠ cpu := by
      rintro rfl
      obtain ⟨locals', hlocals', hcur'⟩ := hcur
      cases hlocals'.symm.trans hcpu
      exact hnotcur _ hcur'
    exact ⟨c, (hcurrent _ _ _).2 (by rw [if_neg hcne, hid]; exact hcur)⟩

theorem created (i : ℕ) (th' : Thread) (hi : m'.get i = some th') (hr : th'.ident ∉ m'.ran) :
    th'.cpu = 0 := by
  obtain ⟨th, hth, hid, hleft⟩ := h.of_get hi
  have hi' : i ≠ tid := by
    rintro rfl
    cases hth.symm.trans h.old
    exact hr (by simp [h.ran, hid])
  have hr' : th.ident ∉ m.ran := fun hmem => hr (by simp [h.ran, hid, hmem])
  have hnotcur : ∀ id, locals.currentThread ≠ some (i, id) := fun id hcur => by
    obtain ⟨th1, hth1, hid1, -, hr1, -⟩ := hok.current cpu i id ⟨locals, hcpu, hcur⟩
    cases hth1.symm.trans hth
    exact hr' (hid1 ▸ hr1)
  rw [hleft hi', left_of_ne hnotcur]
  exact hok.created i th hth hr'

theorem idle (c i : ℕ) (hi : m'.IdleTid c i) : ∃ th, m'.get i = some th ∧ th.state = .blocked := by
  rw [idleTid_set hcpu h.cpus] at hi
  obtain ⟨th, hth, hblocked⟩ := hok.idle c i hi
  rcases eq_or_ne i tid with rfl | hne
  · exact ⟨thread', by rw [h.get, if_pos rfl], (h.idle_of_enters hok hcpu hi).2⟩
  · refine ⟨locals.left i th, ?_, state_left_blocked hblocked⟩
    rw [h.get, if_neg hne, hth, map_some]

theorem idleCurrent (c d i id : ℕ) (hi : m'.IdleTid c i) (hcur : m'.CurrentOn d i id) : d = c := by
  rw [idleTid_set hcpu h.cpus] at hi
  rw [currentOn_set hcpu h.cpus] at hcur
  split_ifs at hcur with heq
  · cases hcur
    exact heq.trans (h.idle_of_enters hok hcpu hi).1.symm
  · exact hok.idleCurrent c d i id hi hcur

end Scheduled

/-- **`schedule` keeps the invariant.** -/
theorem SmpOk.schedule (hok : SmpOk (some cpu) m) (hcpu : m.cpus[cpu]? = some locals)
    (h : m.schedule cpu next = .ok m') : SmpOk none m' := by
  obtain ⟨tid, thread, thread', h⟩ := schedule_ok h hcpu
  refine ⟨fun i j th th' hi hj heq => ?_, fun i th' hi => ?_, fun x hx => ?_,
    h.current hok hcpu, h.saved hok hcpu, h.created hok hcpu, h.idle hok hcpu,
    h.idleCurrent hok hcpu, fun c d i hi hj => ?_⟩
  · obtain ⟨th0, hth0, hident0, -⟩ := h.of_get hi
    obtain ⟨th1, hth1, hident1, -⟩ := h.of_get hj
    exact hok.ident i j th0 th1 hth0 hth1 (hident0.symm.trans (heq.trans hident1))
  · obtain ⟨th, hth, hid, -⟩ := h.of_get hi
    rw [hid, h.nextIdent]
    exact hok.fresh i th hth
  · rw [h.ran] at hx
    rw [h.nextIdent]
    rcases List.mem_cons.1 hx with rfl | hx
    · exact hok.fresh tid thread h.old
    · exact hok.ranFresh x hx
  · rw [idleTid_set hcpu h.cpus] at hi hj
    exact hok.idleInj c d i hi hj

/-- The thread must not go away: it is running, or an idle thread. -/
def Used (m : Smp) (i : ℕ) : Prop := (∃ c id, m.CurrentOn c i id) ∨ ∃ c, m.IdleTid c i

/-- A step that leaves the threads of the processors as they are keeps the invariant. -/
theorem SmpOk.mono (hok : SmpOk none m) (hnext : m.sched.nextIdent ≤ s'.nextIdent)
    (hold : ∀ i th', Slots.get s'.threads i = some th' → ∃ th, m.get i = some th ∧
      th'.ident = th.ident ∧ th'.cpu = th.cpu)
    (hused : ∀ i th, m.get i = some th → m.Used i → ∃ th', Slots.get s'.threads i = some th' ∧
      (th.state = .blocked → th'.state = .blocked) ∧
      (th.pickable = false → th.state ≠ .sleep → th'.pickable = false ∧ th'.state ≠ .sleep ∨
        ∃ c id, busy = some c ∧ m.CurrentOn c i id)) : SmpOk busy { m with sched := s' } := by
  refine ⟨fun i j th th' hi hj heq => ?_, fun i th' hi => ?_,
    fun x hx => (hok.ranFresh x hx).trans_le hnext, fun c i id hcur => ?_,
    fun i th' hi hr hne => ?_, fun i th' hi hr => ?_, fun c i hi => ?_, hok.idleCurrent,
    hok.idleInj⟩
  · obtain ⟨th0, hth0, hident0, -⟩ := hold i th hi
    obtain ⟨th1, hth1, hident1, -⟩ := hold j th' hj
    exact hok.ident i j th0 th1 hth0 hth1 (hident0.symm.trans (heq.trans hident1))
  · obtain ⟨th, hth, hid, -⟩ := hold i th' hi
    rw [hid]
    exact (hok.fresh i th hth).trans_le hnext
  · obtain ⟨th, hth, hid, hthcpu, hr, hbusy⟩ := hok.current c i id hcur
    obtain ⟨hpick, hsleep⟩ := hbusy.resolve_left (by simp)
    obtain ⟨th', hth', -, hstate⟩ := hused i th hth (Or.inl ⟨c, id, hcur⟩)
    obtain ⟨th0, hth0, hid0, hcpu0⟩ := hold i th' hth'
    cases hth0.symm.trans hth
    refine ⟨th', hth', hid0.trans hid, hcpu0.trans hthcpu, hr, ?_⟩
    rcases hstate hpick hsleep with hkeep | ⟨c', id', hb, hcur'⟩
    · exact Or.inr hkeep
    · exact Or.inl (hb.trans (congrArg some (hok.current_unique hcur' hcur)))
  · obtain ⟨th, hth, hid, hcpu⟩ := hold i th' hi
    rw [hcpu] at hne
    rw [hid] at hr ⊢
    exact hok.saved i th hth hr hne
  · obtain ⟨th, hth, hid, hcpu⟩ := hold i th' hi
    rw [hid] at hr
    rw [hcpu]
    exact hok.created i th hth hr
  · obtain ⟨th, hth, hblocked⟩ := hok.idle c i hi
    obtain ⟨th', hth', hstate, -⟩ := hused i th hth (Or.inr ⟨c, hi⟩)
    exact ⟨th', hth', hstate hblocked⟩

/-- A new thread is in a slot that was free, with 0 in `cpu`. -/
theorem SmpOk.newThread (hok : SmpOk none m) {thread : Thread}
    (hident : thread.ident = m.sched.nextIdent) (hcpu : thread.cpu = 0)
    (hget : ∀ i, Slots.get s'.threads i =
      if i = m.sched.threads.alloc.1 then some thread else m.get i)
    (hnext : s'.nextIdent = m.sched.nextIdent + 1) : SmpOk none { m with sched := s' } := by
  have hfree : m.get m.sched.threads.alloc.1 = none := Slots.get_alloc_free _
  have hlt : m.sched.nextIdent < s'.nextIdent := by omega
  have hkeep : ∀ i th, m.get i = some th → Slots.get s'.threads i = some th := fun i th hth => by
    rw [hget, if_neg, hth]
    rintro rfl
    cases hfree.symm.trans hth
  have hcases : ∀ i th, Slots.get s'.threads i = some th →
      (i = m.sched.threads.alloc.1 ∧ th = thread) ∨ m.get i = some th :=
    fun i _ => Slots.get_cases (hget i)
  have hnew : thread.ident ∉ m.ran := fun hmem => by
    have := hok.ranFresh _ hmem
    omega
  refine ⟨fun i j th th' hi hj heq => ?_, fun i th hi => ?_,
    fun x hx => (hok.ranFresh x hx).trans hlt, fun c i id hcur => ?_, fun i th hi hr hne => ?_,
    fun i th hi hr => ?_, fun c i hi => ?_, hok.idleCurrent, hok.idleInj⟩
  · rcases hcases i th hi with ⟨rfl, rfl⟩ | hi
    · rcases hcases j th' hj with ⟨rfl, rfl⟩ | hj
      · rfl
      · have := hok.fresh j th' hj
        omega
    · rcases hcases j th' hj with ⟨rfl, rfl⟩ | hj
      · have := hok.fresh i th hi
        omega
      · exact hok.ident i j th th' hi hj heq
  · rcases hcases i th hi with ⟨-, rfl⟩ | hi
    · exact hident.trans_lt hlt
    · exact (hok.fresh i th hi).trans hlt
  · obtain ⟨th, hth, h⟩ := hok.current c i id hcur
    exact ⟨th, hkeep i th hth, h⟩
  · rcases hcases i th hi with ⟨-, rfl⟩ | hi
    · exact absurd hr hnew
    · exact hok.saved i th hi hr hne
  · rcases hcases i th hi with ⟨-, rfl⟩ | hi
    · exact hcpu
    · exact hok.created i th hi hr
  · obtain ⟨th, hth, hblocked⟩ := hok.idle c i hi
    exact ⟨th, hkeep i th hth, hblocked⟩

section

variable (hok : SmpOk none m) {thread : Thread} {ident : ℕ}
include hok

theorem SmpOk.removed (hthread : m.get tid = some thread) (hcpu : thread.cpu = -1)
    (hidle : ∀ c, ¬ m.IdleTid c tid) (h : Sched.Removed m.sched s' tid thread) :
    SmpOk none { m with sched := s' } := by
  refine hok.mono (by rw [h.same]) (fun i th' hi => ?_) fun i th hi hused => ?_
  · have hi := (h.get i).symm.trans hi
    split_ifs at hi
    exact ⟨th', hi, rfl, rfl⟩
  · have hne : i ≠ tid := by
      rintro rfl
      rcases hused with ⟨c, id, hcur⟩ | ⟨c, hc⟩
      · obtain ⟨th1, hth1, -, hcpu1, -⟩ := hok.current c i id hcur
        cases hth1.symm.trans hthread
        omega
      · exact hidle c hc
    exact ⟨th, (h.get i).trans ((if_neg hne).trans hi), fun h => h, fun h1 h2 => Or.inl ⟨h1, h2⟩⟩

/-- A thread is on no processor, or is blocked, or goes to sleep before `schedule`. -/
theorem SmpOk.setState {state : ThreadState}
    (hset : ∀ i, Slots.get s'.threads i =
      (m.get i).map fun th => if i = tid then { th with state := state } else th)
    (hnext : s'.nextIdent = m.sched.nextIdent)
    (hstate : m.Used tid → state = .blocked ∨ (∀ th, m.get tid = some th → th.state = .running) ∧
      ∃ c id, busy = some c ∧ m.CurrentOn c tid id) : SmpOk busy { m with sched := s' } := by
  refine hok.mono (Nat.le_of_eq hnext.symm) (fun i th' hi => ?_) fun i th hi hused => ?_
  · obtain ⟨th, hth, rfl⟩ := map_eq_some_iff.1 ((hset i).symm.trans hi)
    refine ⟨th, hth, ?_⟩
    split_ifs <;> exact ⟨rfl, rfl⟩
  · refine ⟨_, (hset i).trans (congrArg _ hi), ?_⟩
    split_ifs with heq
    · subst heq
      rcases hstate hused with rfl | ⟨hrunning, hbusy⟩
      · exact ⟨fun _ => rfl, fun _ _ => Or.inl (by simp [Thread.pickable])⟩
      · refine ⟨fun hblocked => ?_, fun _ _ => Or.inr hbusy⟩
        cases (hrunning th hi).symm.trans hblocked
    · exact ⟨fun h => h, fun h1 h2 => Or.inl ⟨h1, h2⟩⟩

theorem SmpOk.kill (hidle : ∀ c, ¬ m.IdleTid c tid) (h : m.sched.killThread tid = .ok s') :
    SmpOk none { m with sched := s' } := by
  obtain ⟨thread, hthread, ⟨hcpu, hremoved⟩ | ⟨-, rfl⟩⟩ := Sched.killThread_ok h
  · exact hok.removed hthread hcpu hidle hremoved
  · exact hok.setState (Sched.get_setThread_map hthread fun th => { th with state := .blocked }) rfl
      fun _ => Or.inl rfl

theorem SmpOk.resume (hidle : ∀ c, ¬ m.IdleTid c tid) (h : m.sched.killResume tid ident = .ok s') :
    SmpOk none { m with sched := s' } := by
  obtain ⟨thread, hthread, -, hcpu, hremoved⟩ := Sched.killResume_ok h
  exact hok.removed hthread hcpu hidle hremoved

theorem SmpOk.wakes (h : Sched.Wakes m.sched s') : SmpOk none { m with sched := s' } := by
  refine hok.mono (Nat.le_of_eq h.nextIdent.symm) (fun i th' hi => ?_) fun i th hi _ => ?_
  · rcases h.get i with heq | ⟨th, hth, -, hwoken⟩
    · exact ⟨th', heq.symm.trans hi, rfl, rfl⟩
    · cases hwoken.symm.trans hi
      exact ⟨th, hth, rfl, rfl⟩
  · rcases h.get i with heq | ⟨th', hth', hsleep, hwoken⟩
    · exact ⟨th, heq.trans hi, fun h => h, fun h1 h2 => Or.inl ⟨h1, h2⟩⟩
    · cases hth'.symm.trans hi
      refine ⟨_, hwoken, fun hblocked => ?_, fun _ hne => absurd hsleep hne⟩
      cases hsleep.symm.trans hblocked

theorem SmpOk.sleepMs {ms : UInt64} (h : m.sleepMs cpu ms next = .ok m') : SmpOk none m' := by
  unfold Smp.sleepMs at h
  split at h
  · cases h
    exact hok
  · rename_i locals hcpu
    split at h
    · cases h
    · rename_i tid ident hcur
      split at h
      · cases h
      · rename_i thread hthread
        split_ifs at h with _ hrunning
        obtain ⟨s1, hinsert, h⟩ := bind_eq_ok.1 h
        obtain ⟨hthreads, hnext⟩ := Sched.insertToQueue_ok hinsert
        have hset := Sched.get_setThread_map hthread fun th => { th with state := .sleep }
        rw [← hthreads] at hset
        refine (hok.setState hset hnext fun _ => Or.inr ⟨fun th hth => ?_, cpu, ident, rfl, locals,
          hcpu, hcur⟩).schedule hcpu h
        cases hthread.symm.trans hth
        exact hrunning

end

theorem SmpOk.initSchedCpuLocals (hok : SmpOk none m) : SmpOk none m.initSchedCpuLocals := by
  have hnew : SmpOk none { m with sched := m.initSchedCpuLocals.sched } :=
    @newThread m _ hok ⟨m.sched.nextIdent, .blocked, 0, false, none⟩ rfl rfl
      (fun i => Slots.get_set_alloc _ _) rfl
  have hget : m.initSchedCpuLocals.get m.sched.threads.alloc.1 =
      some ⟨m.sched.nextIdent, .blocked, 0, false, none⟩ :=
    (Slots.get_set_alloc _ _).trans (if_pos rfl)
  -- the new processor runs nothing, and its idle thread is a new one
  have hcurrent : ∀ c i id, m.initSchedCpuLocals.CurrentOn c i id ↔ m.CurrentOn c i id := by
    intro c i id
    constructor
    · rintro ⟨l, hl, hcur⟩
      rcases getElem?_snoc.1 hl with hl | ⟨-, rfl⟩
      · exact ⟨l, hl, hcur⟩
      · cases hcur
    · rintro ⟨l, hl, hcur⟩
      exact ⟨l, getElem?_snoc.2 (Or.inl hl), hcur⟩
  have hidle : ∀ c i, m.initSchedCpuLocals.IdleTid c i ↔
      m.IdleTid c i ∨ c = m.cpus.length ∧ m.sched.threads.alloc.1 = i := by
    intro c i
    constructor
    · rintro ⟨l, hl, hi⟩
      rcases getElem?_snoc.1 hl with hl | ⟨hc, rfl⟩
      · exact Or.inl ⟨l, hl, hi⟩
      · exact Or.inr ⟨hc, hi⟩
    · rintro (⟨l, hl, hi⟩ | ⟨hc, hi⟩)
      · exact ⟨l, getElem?_snoc.2 (Or.inl hl), hi⟩
      · exact ⟨_, getElem?_snoc.2 (Or.inr ⟨hc, rfl⟩), hi⟩
  have hfree : m.get m.sched.threads.alloc.1 = none := Slots.get_alloc_free _
  refine ⟨hnew.ident, hnew.fresh, hnew.ranFresh, fun c i id hcur => ?_, fun i th hi hr hne => ?_,
    hnew.created, fun c i hi => ?_, fun c d i id hi hcur => ?_, fun c d i hi hj => ?_⟩
  · exact hnew.current c i id ((hcurrent c i id).1 hcur)
  · obtain ⟨c, hcur⟩ := hnew.saved i th hi hr hne
    exact ⟨c, (hcurrent _ _ _).2 hcur⟩
  · rcases (hidle c i).1 hi with hi | ⟨-, rfl⟩
    · exact hnew.idle c i hi
    · exact ⟨_, hget, rfl⟩
  · rw [hcurrent] at hcur
    rcases (hidle c i).1 hi with hi | ⟨-, rfl⟩
    · exact hok.idleCurrent c d i id hi hcur
    · obtain ⟨th, hth, -⟩ := hok.current d _ id hcur
      cases hfree.symm.trans hth
  · have hlive : ∀ c, ¬ m.IdleTid c m.sched.threads.alloc.1 := fun c hc => by
      obtain ⟨th, hth, -⟩ := hok.idle c _ hc
      cases hfree.symm.trans hth
    rcases (hidle c i).1 hi with hi | ⟨hc, rfl⟩
    · rcases (hidle d i).1 hj with hj | ⟨-, rfl⟩
      · exact hok.idleInj c d i hi hj
      · exact absurd hi (hlive c)
    · rcases (hidle d _).1 hj with hj | ⟨hd, -⟩
      · exact absurd hj (hlive d)
      · exact hc.trans hd.symm

/-- `kill_thread` is called for no idle thread. -/
def KillsNoIdle (m : Smp) : Op → Prop
  | .kill tid | .resume tid _ => ∀ locals ∈ m.cpus, locals.idleTid ≠ tid
  | _ => True

instance (m : Smp) (op : Op) : Decidable (m.KillsNoIdle op) := by
  unfold KillsNoIdle
  split <;> infer_instance

/-- An operation that kills no idle thread. -/
def Step (m : Smp) (op : Op) (m' : Smp) : Prop := m.KillsNoIdle op ∧ m.exec op = .ok m'

theorem SmpOk.exec (hok : SmpOk none m) {op : Op} (hidle : m.KillsNoIdle op)
    (h : m.exec op = .ok m') : SmpOk none m' := by
  have hnot {tid : ℕ} (hne : ∀ locals ∈ m.cpus, locals.idleTid ≠ tid) (c : ℕ) :
      ¬ m.IdleTid c tid := by
    rintro ⟨l, hl, hi⟩
    exact hne l (List.mem_of_getElem? hl) hi
  cases op with
  | newProcess =>
    cases h
    exact hok.mono (Nat.le_succ _) (fun i th hi => ⟨th, hi, rfl, rfl⟩)
      fun i th hi _ => ⟨th, hi, fun h => h, fun h1 h2 => Or.inl ⟨h1, h2⟩⟩
  | create pid blocked =>
    obtain ⟨s1, hs1, rfl⟩ := map_eq_ok.1 h
    obtain ⟨⟨tid, s2⟩, hadd, hs1⟩ := bind_eq_ok.1 hs1
    cases hs1
    obtain ⟨parent, -, -, hget, hsame, -⟩ := Sched.addNewChildThread_ok hadd
    exact @newThread m _ hok
      ⟨m.sched.nextIdent, Sched.initState blocked, 0, false, some (pid, parent.ident)⟩ rfl rfl hget
      (by rw [hsame])
  | start blocked =>
    cases h
    exact @newThread m _ hok ⟨m.sched.nextIdent, Sched.initState blocked, 0, false, none⟩ rfl rfl
      (fun i => Slots.get_set_alloc _ _) rfl
  | bootCpu =>
    cases h
    exact hok.initSchedCpuLocals
  | schedule cpu next =>
    cases hcpu : m.cpus[cpu]? with
    | none =>
      rw [Smp.exec, Smp.schedule, hcpu] at h
      cases h
      exact hok
    | some locals =>
      have hbusy : SmpOk (some cpu) m :=
        hok.mono (Nat.le_refl _) (fun i th hi => ⟨th, hi, rfl, rfl⟩)
          fun i th hi _ => ⟨th, hi, fun h => h, fun h1 h2 => Or.inl ⟨h1, h2⟩⟩
      exact hbusy.schedule hcpu h
  | sleep cpu ms next => exact hok.sleepMs h
  | tick locked =>
    obtain ⟨s1, hs1, rfl⟩ := map_eq_ok.1 h
    exact hok.wakes (Sched.advanceTime_wakes hs1)
  | kill tid =>
    obtain ⟨s1, hs1, rfl⟩ := map_eq_ok.1 h
    exact hok.kill (hnot hidle) hs1
  | resume tid ident =>
    obtain ⟨s1, hs1, rfl⟩ := map_eq_ok.1 h
    dsimp only [Sched.exec] at hs1
    split_ifs at hs1
    · exact hok.resume (hnot hidle) hs1
    · cases hs1
      exact hok

end Smp

end DripOS
