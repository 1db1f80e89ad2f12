import DripOS.Proc.Smp

/-!
# Killing threads on several processors

`cpu` of a thread is the processor that runs it, or -1, for which `kill_thread` waits.  A new thread
comes from `kcalloc` with 0 in `cpu`.

* `Smp.Parked.exec` : a thread that is blocked stays as it is, unless it is killed;
* `Smp.Runnable.exec` : a thread that is ready or running stays so, unless it is killed or sleeps;
* `Smp.cpu_iff_current` : `cpu` is -1 exactly if no processor runs the thread, for the threads that
  were picked at least once, and for no other thread;
* `Smp.current_alive` : no processor runs a thread that was freed;
* `Smp.kill_waits_forever` : `kill_thread` never returns for a thread that was never picked.
-/

namespace DripOS

namespace Smp

variable {m m' : Smp} {cpu tid : ℕ} {locals : CpuLocals} {next : Option ℕ}

/-! ### Threads that are blocked -/

/-- The thread is blocked, and on no processor. -/
structure Parked (m : Smp) (tid : ℕ) (th : Thread) : Prop where
  get : m.get tid = some th
  state : th.state = .blocked
  current : ∀ c id, ¬ m.CurrentOn c tid id
  idle : ∀ c, ¬ m.IdleTid c tid

variable {th : Thread}

theorem Parked.of_get (h : m.Parked tid th) (hget : m'.get tid = some th)
    (hcpus : m'.cpus = m.cpus) : m'.Parked tid th where
  get := hget
  state := h.state
  current c id := mt (currentOn_congr hcpus).1 (h.current c id)
  idle c := mt (idleTid_congr hcpus).1 (h.idle c)

/-- A slot that is taken is not given to a new thread. -/
theorem Parked.ne_alloc (h : m.Parked tid th) : tid ≠ m.sched.threads.alloc.1 := by
  rintro rfl
  cases (Slots.get_alloc_free _).symm.trans h.get

theorem Parked.newThread (h : m.Parked tid th) {thread : Thread}
    (hget : ∀ i, m'.get i = if i = m.sched.threads.alloc.1 then some thread else m.get i)
    (hcpus : m'.cpus = m.cpus) : m'.Parked tid th :=
  h.of_get ((hget tid).trans ((if_neg h.ne_alloc).trans h.get)) hcpus

theorem Parked.removed (h : m.Parked tid th) {t : ℕ} {thread : Thread} {s' : Sched}
    (hthread : m.get t = some thread) (hremoved : Sched.Removed m.sched s' t thread) :
    Parked { m with sched := s' } tid th ∨
      tid = t ∧ th = thread ∧ Slots.get s'.threads tid = none := by
  have hget := hremoved.get tid
  split_ifs at hget with heq
  · subst heq
    exact Or.inr ⟨rfl, Option.some.inj (h.get.symm.trans hthread), hget⟩
  · exact Or.inl (h.of_get (hget.trans h.get) rfl)

/-- `schedule` does not pick a thread that is blocked. -/
theorem Parked.schedule (h : m.Parked tid th) (hs : m.schedule cpu next = .ok m') :
    m'.Parked tid th := by
  cases hcpu : m.cpus[cpu]? with
  | none =>
    rw [Smp.schedule, hcpu] at hs
    cases hs
    exact h
  | some locals =>
  obtain ⟨t, thread, thread', hthread, hget, hcpus, -, -, -, -, hnext⟩ := schedule_ok hs hcpu
  have hleft : locals.left tid th = th :=
    left_of_ne fun id hid => h.current cpu id ⟨locals, hcpu, hid⟩
  have hne : tid ≠ t := by
    rintro rfl
    cases h.get.symm.trans hthread
    rcases hnext with ⟨-, heq, -⟩ | ⟨-, hpick, -⟩
    · exact h.idle cpu ⟨locals, hcpu, heq.symm⟩
    · simp [hleft, Thread.pickable, h.state] at hpick
  refine ⟨?_, h.state, fun c id hcur => ?_, fun c hidle => ?_⟩
  · rw [hget, if_neg hne, h.get, Option.map_some, hleft]
  · rw [currentOn_set hcpu hcpus] at hcur
    split_ifs at hcur
    · cases hcur
      exact hne rfl
    · exact h.current c id hcur
  · exact h.idle c ((idleTid_set hcpu hcpus c tid).1 hidle)

theorem Parked.sleepMs (h : m.Parked tid th) {ms : UInt64} (hs : m.sleepMs cpu ms next = .ok m') :
    m'.Parked tid th := by
  unfold Smp.sleepMs at hs
  split at hs
  · cases hs
    exact h
  · rename_i locals hcpu
    split at hs
    · cases hs
    · rename_i t ident hcur
      split at hs
      · cases hs
      · rename_i thread hthread
        split_ifs at hs
        obtain ⟨s1, hinsert, hs⟩ := bind_eq_ok.1 hs
        have hne : tid ≠ t := by
          rintro rfl
          exact h.current cpu ident ⟨locals, hcpu, hcur⟩
        have hset := Sched.get_setThread hthread (some { thread with state := .sleep }) tid
        rw [← (Sched.insertToQueue_ok hinsert).1, if_neg hne] at hset
        have hpark : Parked { m with sched := s1 } tid th := h.of_get (hset.trans h.get) rfl
        exact hpark.schedule hs

/-- **A thread that is blocked stays as it is, unless it is killed.** -/
theorem Parked.exec (h : m.Parked tid th) {op : Op} (hs : m.exec op = .ok m') :
    m'.Parked tid th ∨ (m'.get tid = none ∧ m'.cpus = m.cpus ∧ th.cpu = -1 ∧
      (op = .kill tid ∨ op = .resume tid th.ident)) := by
  cases op with
  | newProcess =>
    cases hs
    exact Or.inl (h.of_get h.get rfl)
  | create pid blocked =>
    obtain ⟨s1, hs1, rfl⟩ := map_eq_ok.1 hs
    obtain ⟨⟨t, s2⟩, hadd, hs1⟩ := bind_eq_ok.1 hs1
    cases hs1
    obtain ⟨parent, -, -, hget, -⟩ := Sched.addNewChildThread_ok hadd
    exact Or.inl (h.newThread hget rfl)
  | start blocked =>
    cases hs
    exact Or.inl (h.newThread (fun i => Slots.get_set_alloc _ _) rfl)
  | bootCpu =>
    cases hs
    have hpark : Parked { m with sched := m.initSchedCpuLocals.sched } tid th :=
      h.newThread (fun i => Slots.get_set_alloc _ _) rfl
    refine Or.inl ⟨hpark.get, h.state, fun c id hcur => ?_, fun c hidle => ?_⟩
    · obtain ⟨l, hl, hcur⟩ := hcur
      rcases getElem?_snoc.1 hl with hl | ⟨-, rfl⟩
      · exact h.current c id ⟨l, hl, hcur⟩
      · cases hcur
    · obtain ⟨l, hl, hidle⟩ := hidle
      rcases getElem?_snoc.1 hl with hl | ⟨-, rfl⟩
      · exact h.idle c ⟨l, hl, hidle⟩
      · exact h.ne_alloc hidle.symm
  | schedule cpu next => exact Or.inl (h.schedule hs)
  | sleep cpu ms next => exact Or.inl (h.sleepMs hs)
  | tick locked =>
    obtain ⟨s1, hs1, rfl⟩ := map_eq_ok.1 hs
    rcases (Sched.advanceTime_wakes hs1).get tid with heq | ⟨th', hth', hsleep, -⟩
    · exact Or.inl (h.of_get (heq.trans h.get) rfl)
    · cases hth'.symm.trans h.get
      cases hsleep.symm.trans h.state
  | kill t =>
    obtain ⟨s1, hs1, rfl⟩ := map_eq_ok.1 hs
    obtain ⟨thread, hthread, ⟨hcpu, hremoved⟩ | ⟨-, rfl⟩⟩ := Sched.killThread_ok hs1
    · rcases h.removed hthread hremoved with hpark | ⟨rfl, rfl, hnone⟩
      · exact Or.inl hpark
      · exact Or.inr ⟨hnone, rfl, hcpu, Or.inl rfl⟩
    · have hset := Sched.get_setThread hthread (some { thread with state := .blocked }) tid
      refine Or.inl (h.of_get ?_ rfl)
      refine hset.trans ?_
      split_ifs with heq
      · subst heq
        cases h.get.symm.trans hthread
        rw [← h.state]
      · exact h.get
  | resume t ident =>
    obtain ⟨s1, hs1, rfl⟩ := map_eq_ok.1 hs
    dsimp only [Sched.exec] at hs1
    split_ifs at hs1
    · obtain ⟨thread, hthread, rfl, hcpu, hremoved⟩ := Sched.killResume_ok hs1
      rcases h.removed hthread hremoved with hpark | ⟨rfl, rfl, hnone⟩
      · exact Or.inl hpark
      · exact Or.inr ⟨hnone, rfl, hcpu, Or.inr rfl⟩
    · cases hs1
      exact Or.inl h

/-! ### The processor of a thread -/

/-- A processor can always go idle. -/
theorem SmpOk.exists_schedule_none {busy : Option ℕ} (hok : SmpOk busy m)
    (hcpu : m.cpus[cpu]? = some locals) : ∃ m', m.schedule cpu none = .ok m' := by
  obtain ⟨m1, hm1⟩ : ∃ m1, m.saveThread locals = .ok m1 := by
    unfold saveThread
    split
    · exact ⟨m, rfl⟩
    · rename_i tid ident hcur
      obtain ⟨th, hth, hid, -⟩ := hok.current cpu tid ident ⟨locals, hcpu, hcur⟩
      rw [hth]
      dsimp only
      rw [if_pos hid]
      exact ⟨_, rfl⟩
  obtain ⟨hget, -, -⟩ := saveThread_ok hm1
  obtain ⟨th, hth, -⟩ := hok.idle cpu _ ⟨locals, hcpu, rfl⟩
  have hidle : m1.get locals.idleTid = some (locals.left locals.idleTid th) := by
    rw [hget, hth]
    rfl
  unfold Smp.schedule
  rw [hcpu]
  dsimp only
  rw [hm1, ok_bind, restoreThread, hidle]
  exact ⟨_, rfl⟩

/-- After its processor has gone idle, the thread is on no processor. -/
theorem SmpOk.cpu_schedule_none (hok : SmpOk none m) {ident : ℕ} (hcur : m.CurrentOn cpu tid ident)
    (hidle : ∀ c, ¬ m.IdleTid c tid) :
    ∃ m' th, m.schedule cpu none = .ok m' ∧ m'.get tid = some th ∧ th.cpu = -1 := by
  obtain ⟨locals, hcpu, hlocals⟩ := hcur
  obtain ⟨m', hm'⟩ := hok.exists_schedule_none hcpu
  obtain ⟨th, hth, -⟩ := hok.current cpu tid ident ⟨locals, hcpu, hlocals⟩
  obtain ⟨t, thread, thread', -, hget, -, -, -, -, -, hnext⟩ := schedule_ok hm' hcpu
  have hne : tid ≠ t := by
    rintro rfl
    rcases hnext with ⟨-, heq, -⟩ | ⟨hnext, -⟩
    · exact hidle cpu ⟨locals, hcpu, heq.symm⟩
    · cases hnext
  refine ⟨m', _, hm', (hget tid).trans ((if_neg hne).trans (congrArg _ hth)), ?_⟩
  simp [CpuLocals.left, hlocals, Thread.save]

/-- **`cpu` is -1 exactly if the thread is the current thread of no processor: this is so for the
threads that were picked at least once, and for no other thread**, in every run that kills no idle
thread.  So `kill_thread` waits only for a thread that was picked and is running, and this wait can
be left. -/
theorem cpu_iff_current {ops : List Op} (hrun : Run Step init ops m) (hth : m.get tid = some th) :
    ((th.cpu = -1 ↔ ∀ c, ¬ m.CurrentOn c tid th.ident) ↔ th.ident ∈ m.ran) ∧
    (th.ident ∈ m.ran → th.cpu ≠ -1 → ∃ c, m.CurrentOn c tid th.ident ∧
      (m.KillsNoIdle (.kill tid) → ∀ m₁, m.exec (.kill tid) = .ok m₁ →
        ∃ m₂ th₂, m₁.exec (.schedule c none) = .ok m₂ ∧ m₂.get tid = some th₂ ∧ th₂.cpu = -1)) := by
  have hok := hrun.invariant (I := SmpOk none) smpOk_init fun m op m' h ⟨hidle, hexec⟩ =>
    h.exec hidle hexec
  refine ⟨⟨fun h => ?_, fun hran => ⟨fun hcpu c hcur => ?_, fun h => ?_⟩⟩, fun hran hcpu => ?_⟩
  · -- a thread that was never picked has 0, and runs nowhere
    by_contra hran
    have hcpu := hok.created tid th hth hran
    have hcur : ∀ c, ¬ m.CurrentOn c tid th.ident := fun c hcur => by
      obtain ⟨_, _, _, _, hmem, _⟩ := hok.current c tid _ hcur
      exact hran hmem
    rw [h.2 hcur] at hcpu
    cases hcpu
  · obtain ⟨th', hth', -, hcpu', -⟩ := hok.current c tid _ hcur
    cases hth'.symm.trans hth
    omega
  · by_contra hcpu
    obtain ⟨c, hcur⟩ := hok.saved tid th hth hran hcpu
    exact h c hcur
  · obtain ⟨c, hcur⟩ := hok.saved tid th hth hran hcpu
    refine ⟨c, hcur, fun hidle m₁ hm1 => ?_⟩
    have hok1 := hok.exec hidle hm1
    obtain ⟨s1, -, rfl⟩ := map_eq_ok.1 hm1
    refine hok1.cpu_schedule_none hcur ?_
    rintro d ⟨l, hl, hi⟩
    exact hidle l (List.mem_of_getElem? hl) hi

/-- A processor runs a thread, and another thread has never been picked. -/
def oneRunning : List Op :=
  [.bootCpu, .newProcess, .create 0 false, .create 0 false, .schedule 0 none, .schedule 0 (some 1)]

/-- The thread that is running has its processor in `cpu`. -/
theorem cpu_iff_current_oneRunning : ∃ m th, Run Step init oneRunning m ∧ m.get 1 = some th ∧
    th.ident ∈ m.ran ∧ th.cpu = 0 ∧ (th.cpu = -1 ↔ ∀ c, ¬ m.CurrentOn c 1 th.ident) := by
  obtain ⟨m, hrun, hth, hran⟩ : ∃ m, Run Step init oneRunning m ∧
      m.get 1 = some ⟨2, .running, 0, true, some (0, 1)⟩ ∧ 2 ∈ m.ran :=
    Run.exists_of_decide (P := KillsNoIdle) (f := exec) (by decide +kernel)
  exact ⟨m, _, hrun, hth, hran, rfl, (cpu_iff_current hrun hth).1.2 hran⟩

/-- **A processor never runs a thread that was removed**, nor one that another processor picks. -/
theorem current_alive {ops : List Op} {c id : ℕ} (hrun : Run Step init ops m)
    (hcur : m.CurrentOn c tid id) :
    ∃ th, m.get tid = some th ∧ th.ident = id ∧ th.cpu = c ∧ th.pickable = false := by
  have hok := hrun.invariant (I := SmpOk none) smpOk_init fun m op m' h ⟨hidle, hexec⟩ =>
    h.exec hidle hexec
  obtain ⟨th, hth, hid, hcpu, -, hbusy | hpick⟩ := hok.current c tid id hcur
  · cases hbusy
  · exact ⟨th, hth, hid, hcpu, hpick.1⟩

/-- Two processors run two threads; one of them is killed, and leaves its processor. -/
def twoProcessors : List Op :=
  [.bootCpu, .bootCpu, .newProcess, .create 0 false, .create 0 false, .schedule 0 (some 2),
    .schedule 1 (some 3), .kill 2, .schedule 0 none, .resume 2 3]

/-- The other thread is still running, on the second processor. -/
theorem current_alive_twoProcessors : ∃ m th, Run Step init twoProcessors m ∧ m.get 2 = none ∧
    m.get 3 = some th ∧ th.cpu = 1 ∧ th.pickable = false := by
  obtain ⟨m, hrun, hcur, hnone⟩ : ∃ m, Run Step init twoProcessors m ∧
      m.cpus[1]? = some ⟨some (3, 4), 1⟩ ∧ m.get 2 = none :=
    Run.exists_of_decide (P := KillsNoIdle) (f := exec) (by decide +kernel)
  obtain ⟨th, hth, -, hcpu, hpick⟩ := current_alive hrun ⟨_, hcur, rfl⟩
  exact ⟨m, th, hrun, hnone, hth, hcpu, hpick⟩

/-- **`kill_thread` waits forever for a thread that was never picked**: whatever happens, its `cpu`
stays 0. -/
theorem kill_waits_forever : ∃ m, Run Step init (oneRunning ++ [Op.kill 2]) m ∧
    (∀ c id, ¬ m.CurrentOn c 2 id) ∧ m.sched.dying = [(2, 3)] ∧
    ∀ ops m', Run (fun m op m' => m.exec op = .ok m') m ops m' →
      ∃ th, m'.get 2 = some th ∧ th.ident = 3 ∧ th.cpu = 0 := by
  obtain ⟨m, hrun, hth, hdying, hcpus⟩ : ∃ m, Run Step init (oneRunning ++ [Op.kill 2]) m ∧
      m.get 2 = some ⟨3, .blocked, 0, false, some (0, 1)⟩ ∧ m.sched.dying = [(2, 3)] ∧
      m.cpus = [⟨some (1, 2), 0⟩] :=
    Run.exists_of_decide (P := KillsNoIdle) (f := exec) (by decide +kernel)
  have hpark : m.Parked 2 ⟨3, .blocked, 0, false, some (0, 1)⟩ := by
    refine ⟨hth, rfl, ?_, ?_⟩
    · rintro c id ⟨l, hl, hcur⟩
      rw [hcpus, List.getElem?_singleton] at hl
      split_ifs at hl
      cases hl
      cases hcur
    · rintro c ⟨l, hl, hidle⟩
      rw [hcpus, List.getElem?_singleton] at hl
      split_ifs at hl
      cases hl
      cases hidle
  refine ⟨m, hrun, hpark.current, hdying, fun ops m' hrun' => ?_⟩
  have hpark' : m'.Parked 2 ⟨3, .blocked, 0, false, some (0, 1)⟩ :=
    hrun'.invariant (I := fun m => m.Parked 2 ⟨3, .blocked, 0, false, some (0, 1)⟩) hpark
      fun m op m' h hexec => (h.exec hexec).resolve_right fun ⟨_, _, hcpu, _⟩ => by cases hcpu
  exact ⟨_, hpark'.get, rfl, rfl⟩

end Smp

end DripOS
